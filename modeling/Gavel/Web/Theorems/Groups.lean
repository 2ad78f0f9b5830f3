import Gavel.Web.Groups
import Gavel.Web.Theorems.Encoding

/-!
# Deferred sections arrive whole and once

What a section says of itself is kept by the loop, and taking it out of the groups again gives it as it was
built, whichever way the loop went. The address it is fetched from is read as it was written.
-/

namespace Gavel.Web

open Gavel.Market (Region)

/-! ## Forms written and read -/

section Forms

variable {s : Text} {fields : List (Text × Text)}

/-- A query value has none of the characters that divide a query string. -/
theorem not_mem_queryValue : '&' ∉ queryValue s ∧ '=' ∉ queryValue s := by
  have hbyte (b : UInt8) : '&' ∉ escape b ∧ '=' ∉ escape b :=
    forall_byte (P := fun b => '&' ∉ escape b ∧ '=' ∉ escape b) (by decide +kernel) b
  simp only [queryValue, List.mem_flatMap, not_exists, not_and]
  exact ⟨fun b _ => (hbyte b).1, fun b _ => (hbyte b).2⟩

theorem unescape_queryValue (s : Text) : unescape (queryValue s) = some s := by
  rw [unescape, percentDecode_queryValue, Option.bind_some, Text.decodeUtf8_bytes]

theorem formPairs_writeForm (h : fields ≠ []) : formPairs (writeForm fields) = some fields := by
  have hsplit : (writeForm fields).splitOn '&' =
      fields.map fun f => queryValue f.1 ++ '=' :: queryValue f.2 := by
    apply List.splitOn_intercalate
    · intro piece hpiece
      obtain ⟨f, -, rfl⟩ := List.mem_map.mp hpiece
      simp [not_mem_queryValue]
    · simpa using h
  rw [formPairs, hsplit]
  clear hsplit h
  induction fields with
  | nil => rfl
  | cons f fields ih =>
      have honce : Text.splitOnce '=' (queryValue f.1 ++ '=' :: queryValue f.2) =
          some (queryValue f.1, queryValue f.2) := Text.splitOnce_append not_mem_queryValue.2
      have hkept : (queryValue f.1 ++ '=' :: queryValue f.2).isEmpty = false := by simp
      simp only [Option.bind_eq_bind] at ih
      simp only [List.map_cons, List.filter_cons, hkept, Bool.not_false, if_true, List.mapM_cons,
        honce, Option.getD_some, unescape_queryValue, Option.bind_eq_bind, Option.bind_some, ih]
      rfl

/-- A parser that reads what is well formed and nothing else. -/
def strictParser : FormParser := ⟨formPairs, fun _ => formPairs_writeForm⟩

end Forms

/-! ## Addresses -/

section Addresses

variable (parser : FormParser) (page : SectionPage) (catalogId group : Text)

/-- An address says the catalogue first and the group last. -/
theorem deferHref_eq : ∃ more, (∀ f ∈ more, f.1 = "region".toList ∨ f.1 = "realm".toList) ∧
    page.deferHref catalogId group = page.fragmentPath ++ '?' ::
      writeForm (("expansion".toList, catalogId) :: (more ++ [("group".toList, group)])) := by
  have hregion (region : Region) : queryValue region.asStr = region.asStr := by cases region <;> rfl
  have hname : queryValue "expansion".toList = "expansion".toList ∧
      queryValue "region".toList = "region".toList ∧ queryValue "realm".toList = "realm".toList ∧
      queryValue "group".toList = "group".toList := ⟨rfl, rfl, rfl, rfl⟩
  have hmark : "?expansion=".toList = '?' :: "expansion".toList ++ ['='] ∧
      "&region=".toList = '&' :: "region".toList ++ ['='] ∧
      "&realm=".toList = '&' :: "realm".toList ++ ['='] ∧
      "&group=".toList = '&' :: "group".toList ++ ['='] := ⟨rfl, rfl, rfl, rfl⟩
  cases page with
  | gear region realm | recipes region realm =>
      refine ⟨[("region".toList, region.asStr), ("realm".toList, realm.getD [])], by simp, ?_⟩
      simp only [SectionPage.deferHref, writeForm, hname, hmark, hregion, List.map_cons, List.map_nil,
        List.intercalate_cons_cons, List.intercalate_singleton, List.cons_append, List.nil_append,
        List.append_assoc]
  | reagents | enchants =>
      refine ⟨[], by simp, ?_⟩
      simp only [SectionPage.deferHref, writeForm, hname, hmark, List.map_cons, List.map_nil,
        List.intercalate_cons_cons, List.intercalate_singleton, List.cons_append, List.nil_append,
        List.append_assoc]

/-- An address is read as the group and the catalogue it was written for, and no search. -/
theorem readAddress_deferHref : readAddress parser (page.deferHref catalogId group) =
    some (page.fragmentPath, ⟨none, some group, some catalogId⟩) := by
  obtain ⟨more, hmore, heq⟩ := deferHref_eq page catalogId group
  have hpath : '?' ∉ page.fragmentPath := by
    cases page with
    | gear region realm => exact show '?' ∉ "/partials/gear".toList by decide
    | recipes region realm => exact show '?' ∉ "/partials/recipes".toList by decide
    | reagents => exact show '?' ∉ "/partials/reagents".toList by decide
    | enchants => exact show '?' ∉ "/partials/enchants".toList by decide
  -- Neither the region nor the realm is asked for.
  have hfield (name : Text) (hname : "region".toList ≠ name ∧ "realm".toList ≠ name) :
      (("expansion".toList, catalogId) :: (more ++ [("group".toList, group)])).filter
          (fun pair => pair.1 = name) =
        (if "expansion".toList = name then [("expansion".toList, catalogId)] else []) ++
          if "group".toList = name then [("group".toList, group)] else [] := by
    have hnone : more.filter (fun pair => pair.1 = name) = [] := by
      rw [List.filter_eq_nil_iff]
      intro f hf
      rcases hmore f hf with h | h
      · simpa only [h, decide_eq_true_eq] using hname.1
      · simpa only [h, decide_eq_true_eq] using hname.2
    rw [List.filter_cons, List.filter_append, hnone, List.nil_append, List.filter_singleton]
    generalize "expansion".toList = first
    generalize "group".toList = last
    by_cases h : first = name <;> simp [h]
  have hparams : SearchParams.fromQuery parser
      (writeForm (("expansion".toList, catalogId) :: (more ++ [("group".toList, group)]))) =
        some ⟨none, some group, some catalogId⟩ := by
    rw [SearchParams.fromQuery, parser.fromStr_writeForm _ (List.cons_ne_nil _ _)]
    have hq := hfield "q".toList (by decide)
    have hgroup := hfield "group".toList (by decide)
    have hexpansion := hfield "expansion".toList (by decide)
    rw [if_neg (by decide), if_neg (by decide)] at hq
    rw [if_neg (by decide), if_pos rfl] at hgroup
    rw [if_pos rfl, if_neg (by decide)] at hexpansion
    simp only [SearchParams.field, Option.bind_eq_bind, Option.bind_some, hq, hgroup, hexpansion]
    rfl
  rw [heq, readAddress, Text.splitOnce_append hpath]
  simp only [Option.bind_eq_bind, Option.bind_some, hparams]

end Addresses

/-! ## The budget -/

namespace Sections

open Deferrable

variable {G : Type} [Deferrable G] {g : G} {groups : List G} {target : Text → Text} {inlined : Nat}
  {searching : Bool}

/-- Nothing is deferred, or the loop has run from its start. -/
theorem defer_cases (groups : List G) (searching : Bool) (target : Text → Text) :
    ((searching = true ∨ total groups ≤ Site.inlineLimit) ∧ defer groups searching target = groups) ∨
      (searching = false ∧ Site.inlineLimit < total groups ∧
        defer groups searching target = deferAfter target 0 groups) := by
  cases searching with
  | true => exact .inl ⟨.inl rfl, rfl⟩
  | false =>
      by_cases hsmall : total groups ≤ Site.inlineLimit
      · exact .inl ⟨.inr hsmall, if_pos hsmall⟩
      · exact .inr ⟨rfl, Nat.lt_of_not_le hsmall, if_neg hsmall⟩

/-- Whatever the loop does to a group is undone by taking the group out. -/
theorem undefer_deferAfter : (deferAfter target inlined groups).map undefer = groups.map undefer := by
  induction groups generalizing inlined with
  | nil => rfl
  | cons g groups ih =>
      rw [deferAfter]
      split
      · rw [List.map_cons, List.map_cons, ih]
      · rw [List.map_cons, List.map_cons, ih, undefer_deferTo]

theorem undefer_defer (groups : List G) (searching : Bool) (target : Text → Text) :
    (defer groups searching target).map undefer = groups.map undefer := by
  rcases defer_cases groups searching target with ⟨-, heq⟩ | ⟨-, -, heq⟩
  · rw [heq]
  · rw [heq, undefer_deferAfter]

/-- A group goes out as it was built, or as a placeholder for it. -/
theorem mem_deferAfter (h : g ∈ deferAfter target inlined groups) :
    g ∈ groups ∨ ∃ built ∈ groups, g = deferTo built (target (Deferrable.slug built)) := by
  induction groups generalizing inlined with
  | nil => cases h
  | cons built groups ih =>
      have hmore {inlined : Nat} (h : g ∈ deferAfter target inlined groups) :
          g ∈ built :: groups ∨
            ∃ b ∈ built :: groups, g = deferTo b (target (Deferrable.slug b)) := by
        rcases ih h with h | ⟨b, hb, heq⟩
        · exact .inl (List.mem_cons_of_mem _ h)
        · exact .inr ⟨b, List.mem_cons_of_mem _ hb, heq⟩
      rw [deferAfter] at h
      split at h
      · rcases List.mem_cons.mp h with rfl | h
        · exact .inl List.mem_cons_self
        · exact hmore h
      · rcases List.mem_cons.mp h with rfl | h
        · exact .inr ⟨built, List.mem_cons_self, rfl⟩
        · exact hmore h

theorem mem_defer (h : g ∈ defer groups searching target) :
    g ∈ groups ∨ ∃ built ∈ groups, g = deferTo built (target (Deferrable.slug built)) := by
  rcases defer_cases groups searching target with ⟨-, heq⟩ | ⟨-, -, heq⟩
  · exact .inl (heq ▸ h)
  · exact mem_deferAfter (heq ▸ h)

/-- The groups whose cards are in the response. -/
def inResponse (groups : List G) : List G := groups.filter fun g => !deferred g

/-- Once something is inlined, the budget holds for all that is. -/
theorem total_deferAfter (groups : List G) (target : Text → Text) (hpos : 0 < inlined) :
    inlined + total (inResponse (deferAfter target inlined groups)) ≤ max Site.inlineLimit inlined := by
  induction groups generalizing inlined with
  | nil => exact Nat.le_max_right _ _
  | cons g groups ih =>
      rw [deferAfter]
      split
      · rename_i hfits
        have hle : inlined + cardCount g ≤ Site.inlineLimit := by
          rcases hfits with h | h
          · exact absurd h (Nat.ne_of_gt hpos)
          · exact h
        have hrest := ih (Nat.lt_of_lt_of_le hpos (Nat.le_add_right _ (cardCount g)))
        have hone : total (inResponse (g :: deferAfter target (inlined + cardCount g) groups)) ≤
            cardCount g + total (inResponse (deferAfter target (inlined + cardCount g) groups)) := by
          rw [inResponse, List.filter_cons]
          split
          · simp [total, inResponse]
          · simp [inResponse]
        omega
      · have hgone (rest : List G) (t : Text) : inResponse (deferTo g t :: rest) = inResponse rest := by
          rw [inResponse, List.filter_cons, deferred_deferTo]
          rfl
        rw [hgone]
        exact ih hpos

theorem only_defer (hnew : ∀ g ∈ groups, undefer g = g) (hslugs : (groups.map Deferrable.slug).Nodup)
    (hg : g ∈ groups) : only (defer groups searching target) (Deferrable.slug g) = some g := by
  have hundefer : groups.map undefer = groups := by
    rw [List.map_congr_left hnew, List.map_id']
  have hfind (wanted : Text) : only (defer groups searching target) wanted =
      groups.find? fun g => Deferrable.slug g = wanted := by
    have hslug : ((fun g : G => decide (Deferrable.slug g = wanted)) ∘ undefer) =
        fun g => decide (Deferrable.slug g = wanted) := by
      funext g
      simp only [Function.comp_apply, slug_undefer]
    conv_rhs => rw [← hundefer, ← undefer_defer groups searching target, List.find?_map, hslug]
    rfl
  rw [hfind]
  cases hfound : groups.find? fun g' => Deferrable.slug g' = Deferrable.slug g with
  | none => exact absurd (decide_eq_true rfl) (List.find?_eq_none.mp hfound g hg)
  | some found =>
      have hsame := List.find?_some hfound
      have hmem := List.mem_of_find?_eq_some hfound
      rw [List.inj_on_of_nodup_map hslugs hmem hg (of_decide_eq_true hsame)]

/-- The deferred groups are those whose links the page carries. -/
theorem slugs_deferred (hnew : ∀ g ∈ groups, undefer g = g) :
    ((defer groups searching target).filter deferred).map Deferrable.slug =
      Site.deferred searching (groups.map fun g => (Deferrable.slug g, cardCount g)) := by
  have hinline : ∀ g ∈ groups, deferred g = false := by
    intro g hg
    rw [← hnew g hg]
    exact deferred_undefer g
  have hafter (inlined : Nat) (hinline : ∀ g ∈ groups, deferred g = false) :
      ((deferAfter target inlined groups).filter deferred).map Deferrable.slug =
        Site.deferredAfter inlined (groups.map fun g => (Deferrable.slug g, cardCount g)) := by
    induction groups generalizing inlined with
    | nil => rfl
    | cons g groups ih =>
        obtain ⟨hg, hgroups⟩ := List.forall_mem_cons.mp hinline
        have hnew' := (List.forall_mem_cons.mp hnew).2
        rw [deferAfter, List.map_cons, Site.deferredAfter]
        split
        · rw [List.filter_cons, hg]
          exact ih hnew' hgroups _ hgroups
        · rw [List.filter_cons, deferred_deferTo, if_pos rfl, List.map_cons, slug_deferTo,
            ih hnew' hgroups _ hgroups]
  have hsum : ((groups.map fun g => (Deferrable.slug g, cardCount g)).map Prod.snd).sum = total groups := by
    rw [List.map_map]
    rfl
  have hnone : groups.filter deferred = [] := by
    rw [List.filter_eq_nil_iff]
    intro g hg
    rw [hinline g hg]
    exact Bool.false_ne_true
  rw [Site.deferred, hsum]
  rcases defer_cases groups searching target with ⟨hwhole, heq⟩ | ⟨hplain, hlarge, heq⟩
  · rw [heq, hnone, if_pos (by simpa using hwhole)]
    rfl
  · rw [heq, if_neg (by simpa [hplain] using hlarge), hafter 0 hinline]

end Sections

/-! ## Arrival -/

section Arrival

open Deferrable Sections

variable {G : Type} [Deferrable G] {parser : FormParser} {page : SectionPage} {catalogId : Text}
  {groups : List G} {g : G}

/-- The group a reader comes to see: as it is in the page, or as its address is answered. -/
def arrive (parser : FormParser) (page : SectionPage) (catalogId : Text) (groups : List G) (g : G) :
    Option G :=
  if deferred g then answerGroup parser page catalogId groups (href g) else some g

theorem answer_deferHref (hnew : ∀ g ∈ groups, undefer g = g)
    (hslugs : (groups.map Deferrable.slug).Nodup) (hg : g ∈ groups) :
    answerGroup parser page catalogId groups (page.deferHref catalogId (Deferrable.slug g)) = some g := by
  rw [answerGroup, readAddress_deferHref]
  simp only [Option.bind_eq_bind, Option.bind_some, if_true]
  exact only_defer hnew hslugs hg

theorem arrive_defer {searching : Bool} (hnew : ∀ g ∈ groups, undefer g = g)
    (hslugs : (groups.map Deferrable.slug).Nodup)
    (hg : g ∈ defer groups searching (page.deferHref catalogId)) :
    arrive parser page catalogId groups g = some (undefer g) := by
  rcases mem_defer hg with hbuilt | ⟨built, hbuilt, rfl⟩
  · have hinline : deferred g = false := by
      rw [← hnew g hbuilt]
      exact deferred_undefer g
    rw [arrive, hinline, hnew g hbuilt]
    rfl
  · rw [arrive, deferred_deferTo, if_pos rfl, href_deferTo, answer_deferHref hnew hslugs hbuilt,
      undefer_deferTo, hnew built hbuilt]

/-- Sections as a page builds them, none empty and no two of one slug, come to be seen as they were built,
in their order. Nothing is deferred from a search or a small page; else the first comes with the page and
what comes with it is within the budget or is the first alone, and each of the others has an address of
its own slug. No address is answered with a placeholder. -/
theorem sections_arrive_whole (parser : FormParser) (page : SectionPage) (catalogId : Text)
    (searching : Bool) (hcards : ∀ g ∈ groups, 0 < cardCount g) (hnew : ∀ g ∈ groups, undefer g = g)
    (hslugs : (groups.map Deferrable.slug).Nodup) :
    let sent := defer groups searching (page.deferHref catalogId)
    (searching = true ∨ total groups ≤ Site.inlineLimit →
        sent = groups ∧ ∀ g ∈ sent, deferred g = false) ∧
      (searching = false → Site.inlineLimit < total groups →
        ∃ first ∈ groups.head?, sent.head? = some first ∧ deferred first = false ∧
          total (inResponse sent) ≤ max Site.inlineLimit (cardCount first)) ∧
      sent.map Deferrable.slug = groups.map Deferrable.slug ∧
      (∀ g ∈ sent, deferred g = true → readAddress parser (href g) =
        some (page.fragmentPath, ⟨none, some (Deferrable.slug g), some catalogId⟩)) ∧
      sent.map (arrive parser page catalogId groups) = groups.map some ∧
      ∀ uri g, answerGroup parser page catalogId groups uri = some g → deferred g = false := by
  intro sent
  have hinline : ∀ g ∈ groups, deferred g = false := by
    intro g hg
    rw [← hnew g hg]
    exact deferred_undefer g
  have hundefer : sent.map undefer = groups := by
    rw [undefer_defer, List.map_congr_left hnew, List.map_id']
  refine ⟨?_, ?_, ?_, ?_, ?_, ?_⟩
  · intro hwhole
    rcases defer_cases groups searching (page.deferHref catalogId) with ⟨-, heq⟩ | ⟨hplain, hlarge, -⟩
    · exact ⟨heq, fun g hg => hinline g (heq ▸ hg)⟩
    · rcases hwhole with h | h
      · exact absurd h (by simp [hplain])
      · exact absurd h (Nat.not_le.mpr hlarge)
  · intro hplain hlarge
    cases groups with
    | nil => exact absurd hlarge (Nat.not_lt.mpr (Nat.zero_le _))
    | cons first groups =>
        have hsent : sent = first :: deferAfter (page.deferHref catalogId) (cardCount first) groups := by
          rcases defer_cases (first :: groups) searching (page.deferHref catalogId)
            with ⟨hwhole, -⟩ | ⟨-, -, heq⟩
          · rcases hwhole with h | h
            · exact absurd h (by simp [hplain])
            · exact absurd h (Nat.not_le.mpr hlarge)
          · rw [show sent = _ from heq, deferAfter, if_pos (.inl rfl), Nat.zero_add]
        have hfirst := hinline first List.mem_cons_self
        have hbudget := total_deferAfter groups (page.deferHref catalogId)
          (hcards first List.mem_cons_self)
        have htotal : total (inResponse sent) = cardCount first +
            total (inResponse (deferAfter (page.deferHref catalogId) (cardCount first) groups)) := by
          rw [hsent, inResponse, List.filter_cons, hfirst]
          rfl
        exact ⟨first, rfl, by rw [hsent]; rfl, hfirst, htotal ▸ hbudget⟩
  · have hslug : sent.map (Deferrable.slug ∘ undefer) = sent.map Deferrable.slug :=
      List.map_congr_left fun g _ => slug_undefer g
    rw [← hslug, ← List.map_map, hundefer]
  · intro g hg hdeferred
    rcases mem_defer hg with hbuilt | ⟨built, hbuilt, rfl⟩
    · exact absurd hdeferred (by simp [hinline g hbuilt])
    · rw [href_deferTo, slug_deferTo, readAddress_deferHref]
  · rw [List.map_congr_left fun g hg => arrive_defer hnew hslugs hg]
    conv_rhs => rw [← hundefer, List.map_map]
    rfl
  · intro uri g hg
    simp only [answerGroup, Option.bind_eq_bind, Option.bind_eq_some_iff] at hg
    obtain ⟨_, -, wanted, -, hg⟩ := hg
    split at hg
    · obtain ⟨found, -, rfl⟩ := Option.map_eq_some_iff.mp hg
      exact deferred_undefer found
    · cases hg

/-- What a gear page builds from sections of different anchors is none empty, of different slugs and as
it is when it is taken out. -/
theorem gearGroups_ready {Card : Type} (parts : List (Text × Text × List Card))
    (h : (parts.map fun part => part.2.1).Nodup) :
    (∀ g ∈ gearGroups parts, 0 < cardCount g ∧ undefer g = g) ∧
      ((gearGroups parts).map Deferrable.slug).Nodup := by
  have hkept (part : Text × Text × List Card) (g : GearGroup Card)
      (hg : (if part.2.2.isEmpty then none else some (⟨part.1, part.2.1, part.2.2, false, []⟩ : GearGroup Card)) =
        some g) : part.2.2 ≠ [] ∧ g = ⟨part.1, part.2.1, part.2.2, false, []⟩ := by
    split at hg
    · cases hg
    · rename_i hcards
      cases hg
      exact ⟨by simpa using hcards, rfl⟩
  constructor
  · intro g hg
    obtain ⟨part, -, hpart⟩ := List.mem_filterMap.mp hg
    obtain ⟨hcards, rfl⟩ := hkept part g hpart
    exact ⟨List.length_pos_iff.mpr hcards, rfl⟩
  · have hsub : ((gearGroups parts).map Deferrable.slug).Sublist (parts.map fun part => part.2.1) := by
      induction parts with
      | nil => exact .slnil
      | cons part parts ih =>
          have hrest := ih (List.nodup_cons.mp h).2
          rw [gearGroups, List.filterMap_cons]
          split
          · exact hrest.cons _
          · rename_i g hg
            obtain ⟨-, rfl⟩ := hkept part g hg
            exact hrest.cons_cons _
    exact hsub.nodup h

/-- A large section stays behind and a small one after it does not. -/
theorem sections_arrive_three :
    let parts : List (Text × Text × List Unit) := [([], "alchemy".toList, List.replicate 30 ()),
      ([], "mining".toList, List.replicate 20 ()), ([], "shared".toList, List.replicate 5 ())]
    let page := SectionPage.recipes .eu (some "ravencrest".toList)
    let sent := defer (gearGroups parts) false (page.deferHref "midnight".toList)
    sent.map deferred = [false, true, false] ∧
      sent.map (arrive strictParser page "midnight".toList (gearGroups parts)) = (gearGroups parts).map some := by
  intro parts page sent
  obtain ⟨hbuilt, hslugs⟩ := gearGroups_ready parts (by decide)
  have harrive := sections_arrive_whole strictParser page "midnight".toList false (fun g hg => (hbuilt g hg).1)
    (fun g hg => (hbuilt g hg).2) hslugs
  exact ⟨by decide, harrive.2.2.2.2.1⟩

end Arrival

end Gavel.Web
