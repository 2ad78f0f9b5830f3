import Gavel.Market.Theorems.TierDates

/-!
# Which declaration the archive keeps

Of a patch the archive keeps what the newest catalogue says. Of a tier it keeps the declaration with the
earliest date, which is that of the newest catalogue only where no older one has an earlier date.
-/

namespace Gavel.Market

open Gavel.Cluster (Millis)
open Gavel.Sorting Archive

variable {catalogs l : List Catalog} {collecting : Catalog → Bool} {c : Catalog} {name tier : Text}
  {p : ArchivedPatch} {t : ArchivedTier} {m : RaidTier}

def Catalog.declaresPatch (c : Catalog) (patch : Text) : Bool := c.patches.any (·.patch = patch)

/-- A patch is as the newest catalogue that declares it has it, and names all that do. -/
structure PatchOfNewest (l : List Catalog) (p : ArchivedPatch) : Prop where
  declared : ∃ c q, l.find? (·.declaresPatch p.patch) = some c ∧ q ∈ c.patches ∧ q.patch = p.patch ∧
    p.name = q.name ∧ p.started = q.startedAt
  catalogs : p.catalogs = firsts id [] ((l.filter (·.declaresPatch p.patch)).map Catalog.id)

/-- A tier is as the newest catalogue that declares it has it, and names all that do. -/
structure TierOfNewest (l : List Catalog) (t : ArchivedTier) : Prop where
  declared : ∃ c q, l.find? (·.declares t.id) = some c ∧ q ∈ c.raidTiers ∧ q.id = t.id ∧
    t.name = q.name ∧ t.opened = q.openedAt
  declaredBy : t.declaredBy = (l.filter (·.declares t.id)).map Catalog.id

/-- All patches and tiers of an expansion are as the newest catalogues have them. -/
structure NewestWins (l : List Catalog) (e : ArchivedExpansion) : Prop where
  patches : ∀ p ∈ e.patches, PatchOfNewest l p
  tiers : ∀ p ∈ e.patches, ∀ t ∈ p.tiers, TierOfNewest l t

/-- The declaration of a tier with the earliest date, in the newest catalogue that has that date. -/
def earliest (l : List Catalog) (tier : Text) : Option RaidTier :=
  minBy RaidTier.openedAt ((l.flatMap Catalog.raidTiers).filter (·.id = tier))

/-- The newest catalogue that declares a tier declares it with the earliest date there is, unless the
earliest declaration names no patch of the expansion. -/
def NewestIsEarliest (l : List Catalog) : Prop :=
  ∀ tier m, earliest l tier = some m → (∃ c ∈ l, c.declaresPatch m.patch = true) →
    ∃ c q, l.find? (·.declares tier) = some c ∧ q ∈ c.raidTiers ∧ q.id = tier ∧ q.openedAt = m.openedAt

/-! ## Patches -/

theorem declaresPatch_iff {patch : Text} : c.declaresPatch patch = true ↔ ∃ q ∈ c.patches, q.patch = patch := by
  simp [Catalog.declaresPatch]

/-- The first declaration of a patch is one of the newest catalogue that declares it. -/
theorem head_declared {patch : Text} {d : Catalog × Patch}
    (h : ((declaredPatches l).filter (·.2.patch = patch)).head? = some d) :
    l.find? (·.declaresPatch patch) = some d.1 ∧ d.2 ∈ d.1.patches ∧ d.2.patch = patch := by
  induction l with
  | nil => cases h
  | cons c l ih =>
      have hfilter : (declaredPatches (c :: l)).filter (·.2.patch = patch) =
          ((c.patches.filter (·.patch = patch)).map fun q => (c, q)) ++
            (declaredPatches l).filter (·.2.patch = patch) := by
        rw [declaredPatches, List.flatMap_cons, List.filter_append, List.filter_map]
        rfl
      rw [hfilter] at h
      cases hown : c.patches.filter (·.patch = patch) with
      | nil =>
          have hnot : c.declaresPatch patch = false := by
            rw [← Bool.not_eq_true, declaresPatch_iff]
            rintro ⟨q, hq, heq⟩
            simpa [heq] using List.filter_eq_nil_iff.mp hown q hq
          rw [hown] at h
          rw [List.find?_cons_of_neg (by simp [hnot])]
          exact ih h
      | cons q rest =>
          have hq : q ∈ c.patches.filter (·.patch = patch) := hown ▸ List.mem_cons_self
          obtain ⟨hmem, heq⟩ := List.mem_filter.mp hq
          rw [hown] at h
          obtain rfl : (c, q) = d := Option.some.inj h
          have hdeclares := declaresPatch_iff.mpr ⟨q, hmem, of_decide_eq_true heq⟩
          exact ⟨List.find?_cons_of_pos hdeclares, hmem, of_decide_eq_true heq⟩

/-- A catalogue is named once, however often it declares a patch. -/
theorem firsts_declared (patch : Text) (seen : List Text) :
    firsts id seen (((declaredPatches l).filter (·.2.patch = patch)).map fun d => d.1.id) =
      firsts id seen ((l.filter (·.declaresPatch patch)).map Catalog.id) := by
  induction l generalizing seen with
  | nil => rfl
  | cons c l ih =>
      have hblock : ((declaredPatches (c :: l)).filter (·.2.patch = patch)).map (fun d => d.1.id) =
          (c.patches.filter (·.patch = patch)).map (fun _ => c.id) ++
            ((declaredPatches l).filter (·.2.patch = patch)).map fun d => d.1.id := by
        rw [declaredPatches, List.flatMap_cons, List.filter_append, List.filter_map, List.map_append,
          List.map_map]
        rfl
      rw [hblock]
      by_cases hdeclares : c.declaresPatch patch = true
      · obtain ⟨q, hq, heq⟩ := declaresPatch_iff.mp hdeclares
        have hne : (c.patches.filter (·.patch = patch)).map (fun _ => c.id) ≠ [] :=
          List.ne_nil_of_mem (List.mem_map_of_mem (List.mem_filter.mpr ⟨hq, decide_eq_true heq⟩))
        have hsame : ∀ y ∈ (c.patches.filter (·.patch = patch)).map (fun _ => c.id), y = c.id := by simp
        rw [firsts_repeat hne hsame, List.filter_cons, if_pos hdeclares, List.map_cons]
        rw [firsts, firsts, ih, ih]
      · have hnil : c.patches.filter (·.patch = patch) = [] := by
          refine List.filter_eq_nil_iff.mpr fun q hq heq => hdeclares ?_
          exact declaresPatch_iff.mpr ⟨q, hq, of_decide_eq_true heq⟩
        rw [hnil, List.filter_cons, if_neg hdeclares]
        exact ih seen

theorem patchOfNewest (h : p ∈ archivedPatches l) : PatchOfNewest l p := by
  rw [archivedPatches, mem_sortBy] at h
  obtain ⟨⟨key, group⟩, hgroup, rfl⟩ := List.mem_map.mp h
  obtain ⟨hkey, rfl⟩ := Groups.mem_grouped.mp hgroup
  obtain ⟨d, hd⟩ : ∃ d, (Groups.group (fun d => d.2.patch) (declaredPatches l) key).head? = some d := by
    obtain ⟨d, hd, hpatch⟩ := Groups.mem_keys.mp hkey
    exact ⟨_, List.head?_eq_some_head (List.ne_nil_of_mem (Groups.mem_group.mpr ⟨hd, hpatch⟩))⟩
  obtain ⟨hfind, hmem, hpatch⟩ := head_declared hd
  refine ⟨⟨d.1, d.2, hfind, hmem, hpatch, ?_, ?_⟩, firsts_declared key []⟩
  · simp only [mergedPatch, hd, Option.map_some, Option.getD_some]
  · simp only [mergedPatch, hd, Option.map_some, Option.getD_some]

/-! ## Tiers -/

/-- A tier is kept exactly as its earliest declaration has it. -/
theorem mem_mergedTiers_iff : m ∈ mergedTiers l ↔ earliest l m.id = some m := by
  rw [mergedTiers, mem_firsts_iff, filter_sortBy, head_sortBy_key]
  exact and_iff_right (List.not_mem_nil)

theorem earliest_id (h : earliest l tier = some m) : m.id = tier := by
  simpa using (List.mem_filter.mp (minBy_mem h)).2

/-- The earliest declaration stands in the newest catalogue if that has its date. -/
theorem mem_newest {q : RaidTier} (h : earliest l tier = some m) (hc : l.find? (·.declares tier) = some c)
    (hq : q ∈ c.raidTiers) (hid : q.id = tier) (hdate : q.openedAt = m.openedAt) : m ∈ c.raidTiers := by
  obtain ⟨-, before, after, rfl, hbefore⟩ := List.find?_eq_some_iff_append.mp hc
  have hnone : (before.flatMap Catalog.raidTiers).filter (·.id = tier) = [] := by
    refine List.filter_eq_nil_iff.mpr fun r hr heq => ?_
    obtain ⟨d, hd, hrd⟩ := List.mem_flatMap.mp hr
    have hdeclares := Catalog.declares_iff.mpr ⟨r, hrd, of_decide_eq_true heq⟩
    simpa [hdeclares] using hbefore d hd
  rw [earliest, List.flatMap_append, List.flatMap_cons, List.filter_append, List.filter_append, hnone,
    List.nil_append] at h
  have hown : q ∈ c.raidTiers.filter (·.id = tier) := List.mem_filter.mpr ⟨hq, decide_eq_true hid⟩
  exact List.mem_of_mem_filter (minBy_append h hown (Nat.le_of_eq hdate))

/-- A tier is as the newest catalogue has it exactly if that has its date. -/
theorem tierOfNewest_iff (h : t ∈ archivedTiers l) :
    TierOfNewest l t ↔ ∃ c q, l.find? (·.declares t.id) = some c ∧ q ∈ c.raidTiers ∧ q.id = t.id ∧
      q.openedAt = t.opened := by
  constructor
  · rintro ⟨⟨c, q, hc, hq, hid, -, hopened⟩, -⟩
    exact ⟨c, q, hc, hq, hid, hopened.symm⟩
  · rintro ⟨c, q, hc, hq, hid, hdate⟩
    obtain ⟨i, hi, rfl⟩ := List.mem_mapIdx.mp h
    have hm := mem_mergedTiers_iff.mp (List.getElem_mem hi)
    exact ⟨⟨c, _, hc, mem_newest hm hc hq hid hdate, rfl, rfl, rfl⟩, rfl⟩

/-! ## The archive -/

theorem exists_archivedTier (h : m ∈ mergedTiers l) :
    ∃ t ∈ archivedTiers l, t.id = m.id ∧ t.patch = m.patch ∧ t.opened = m.openedAt := by
  obtain ⟨i, hi⟩ := List.mem_iff_getElem?.mp h
  have ht := @getElem?_archivedTiers i l
  rw [hi, Option.map_some] at ht
  exact ⟨_, List.mem_of_getElem? ht, rfl, rfl, rfl⟩

/-- Every declared patch of an expansion has an entry, with all of the tiers that name it. -/
theorem exists_archivedPatch (name : Text) (collecting : Catalog → Bool) (hc : c ∈ l) {patch : Text}
    (hdeclares : c.declaresPatch patch = true) (ht : t ∈ archivedTiers l) (hpatch : t.patch = patch) :
    ∃ p ∈ (expansion name l collecting).patches, t ∈ p.tiers := by
  obtain ⟨q, hq, heq⟩ := declaresPatch_iff.mp hdeclares
  have hkey : patch ∈ Groups.keys textLe (fun d : Catalog × Patch => d.2.patch) (declaredPatches l) :=
    Groups.mem_keys.mpr ⟨(c, q), mem_declaredPatches.mpr ⟨hc, hq⟩, heq⟩
  obtain ⟨p, hp, htiers⟩ : ∃ p ∈ archivedPatches l,
      p.tiers = sortBy ArchivedTier.opened ((archivedTiers l).filter (·.patch = patch)) := by
    refine ⟨{ mergedPatch patch (Groups.group (fun d => d.2.patch) (declaredPatches l) patch) with
      tiers := sortBy ArchivedTier.opened ((archivedTiers l).filter (·.patch = patch)) }, ?_, rfl⟩
    rw [archivedPatches, mem_sortBy]
    exact List.mem_map.mpr ⟨_, Groups.mem_grouped.mpr ⟨hkey, rfl⟩, rfl⟩
  obtain ⟨i, hi, hget⟩ := List.mem_iff_getElem.mp hp
  refine ⟨{ p with until' := ((archivedPatches l)[i + 1]?).map ArchivedPatch.started }, ?_, ?_⟩
  · rw [expansion, List.mem_reverse, List.mem_mapIdx]
    exact ⟨i, hi, by rw [hget]⟩
  · rw [htiers, mem_sortBy, List.mem_filter]
    exact ⟨ht, decide_eq_true hpatch⟩

/-- Exactly where the newest catalogues have the earliest dates does an expansion of the archive say of
all of its patches and tiers what the newest catalogues say. -/
theorem newest_wins_iff (catalogs : List Catalog) (collecting : Catalog → Bool) (name : Text) :
    (∀ e ∈ (Archive.of catalogs collecting).expansions, e.name = name →
        NewestWins (mine catalogs name) e) ↔ NewestIsEarliest (mine catalogs name) := by
  constructor
  · intro h tier m hm ⟨c, hc, hdeclares⟩
    obtain ⟨e, he, hsame⟩ := exists_mem_of collecting (mem_mine.mp hc).1
    rw [(mem_mine.mp hc).2] at hsame
    have hid : m.id = tier := earliest_id hm
    obtain ⟨t, ht, htid, htpatch, htopened⟩ := exists_archivedTier (mem_mergedTiers_iff.mpr (hid ▸ hm))
    obtain ⟨p, hp, htp⟩ := exists_archivedPatch name collecting hc hdeclares ht htpatch
    have hname : e.name = name := hsame.name_eq
    have hp' : p ∈ e.patches := hsame.patches_eq ▸ hp
    have hnewest := (tierOfNewest_iff ht).mp ((h e he hname).tiers p hp' t htp)
    rwa [htid, htopened, hid] at hnewest
  · intro h e he hname
    obtain ⟨name', hsame⟩ := mem_of he
    obtain rfl : name' = name := hsame.name_eq.symm.trans hname
    constructor
    · intro p hp
      obtain ⟨q, hq, hpq⟩ := mem_expansion_patches (hsame.patches_eq ▸ hp)
      have hnewest := patchOfNewest hq
      rw [hpq]
      exact ⟨hnewest.declared, hnewest.catalogs⟩
    · intro p hp t ht
      obtain ⟨q, hq, hpq⟩ := mem_expansion_patches (hsame.patches_eq ▸ hp)
      obtain ⟨⟨d, hd, hpatch⟩, -, htiers⟩ := mem_archivedPatches hq
      rw [hpq] at ht
      have ht' : t ∈ (archivedTiers (mine catalogs name')).filter (·.patch = q.patch) := by
        rw [← mem_sortBy, ← htiers]
        exact ht
      obtain ⟨hmem, heq⟩ := List.mem_filter.mp ht'
      obtain ⟨m, hm, hid, hmpatch, hopened, -⟩ := mem_archivedTiers hmem
      obtain ⟨hdc, hdp⟩ := mem_declaredPatches.mp hd
      have hdeclared : d.1.declaresPatch m.patch = true :=
        declaresPatch_iff.mpr ⟨d.2, hdp, by rw [hpatch, ← hmpatch, of_decide_eq_true heq]⟩
      rw [tierOfNewest_iff hmem, hid, hopened]
      exact h m.id m (mem_mergedTiers_iff.mp hm) ⟨d.1, hdc, hdeclared⟩

/-- The Spire, which the catalogue of the next season opens a week later. -/
def delayed : RaidTier := { spire with name := "The Spire, delayed".toList, opened := "2026-03-24".toList }

def postponed : List Catalog :=
  [seasonOf "one".toList [launch] [spire], seasonOf "two".toList [launch, curse] [delayed]]

theorem older_date_survives :
    ¬ ∀ (catalogs : List Catalog) (collecting : Catalog → Bool),
      ∀ e ∈ (Archive.of catalogs collecting).expansions, NewestWins (mine catalogs e.name) e := by
  intro h
  have hdates : ∀ e ∈ (Archive.of postponed fun _ => false).expansions, ∀ p ∈ e.patches, ∀ t ∈ p.tiers,
      ∃ q ∈ ((mine postponed e.name).find? (·.declares t.id)).elim [] Catalog.raidTiers,
        q.id = t.id ∧ t.opened = q.openedAt := by
    intro e he p hp t ht
    obtain ⟨c, q, hc, hq, hid, -, hopened⟩ := ((h postponed (fun _ => false) e he).tiers p hp t ht).declared
    exact ⟨q, by rw [hc]; exact hq, hid, hopened⟩
  revert hdates
  decide

end Gavel.Market
