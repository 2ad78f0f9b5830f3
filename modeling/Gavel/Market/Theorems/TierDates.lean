import Gavel.Lib.Intervals
import Gavel.Market.Lemmas.Hierarchy
import Gavel.Market.Lemmas.Selections

/-!
# Archive and statistics agree on the dates of tiers

The archive closes a tier when the next one of the expansion opened, a stored statistic when the next one
of one catalogue did. An archive without problems is one in which the newest catalogue that declares a
tier declares the next one too.
-/

namespace Gavel.Market

open Gavel.Cluster (Millis)
open Gavel.Sorting Archive

variable {catalogs : List Catalog} {collecting : Catalog → Bool} {c : Catalog} {t : ArchivedTier}
  {tier : RaidTier} {e : ArchivedExpansion} {name : Text} {i : Nat}

/-- A tier that several catalogues of an expansion declare opens at one instant. -/
def Restated (catalogs : List Catalog) : Prop :=
  ∀ c ∈ catalogs, ∀ c' ∈ catalogs, c.expansion = c'.expansion →
    ∀ t ∈ c.raidTiers, ∀ t' ∈ c'.raidTiers, t.id = t'.id → t.openedAt = t'.openedAt

/-- Two tiers of an expansion open at two instants. -/
def OpenApart (catalogs : List Catalog) : Prop :=
  ∀ c ∈ catalogs, ∀ c' ∈ catalogs, c.expansion = c'.expansion →
    ∀ t ∈ c.raidTiers, ∀ t' ∈ c'.raidTiers, t.openedAt = t'.openedAt → t.id = t'.id

instance Restated.decidable (catalogs : List Catalog) : Decidable (Restated catalogs) :=
  inferInstanceAs (Decidable (∀ c ∈ catalogs, ∀ c' ∈ catalogs, c.expansion = c'.expansion →
    ∀ t ∈ c.raidTiers, ∀ t' ∈ c'.raidTiers, t.id = t'.id → t.openedAt = t'.openedAt))

instance OpenApart.decidable (catalogs : List Catalog) : Decidable (OpenApart catalogs) :=
  inferInstanceAs (Decidable (∀ c ∈ catalogs, ∀ c' ∈ catalogs, c.expansion = c'.expansion →
    ∀ t ∈ c.raidTiers, ∀ t' ∈ c'.raidTiers, t.openedAt = t'.openedAt → t.id = t'.id))

/-- The newest catalogue of an expansion that declares a tier. -/
def reader (catalogs : List Catalog) (name tier : Text) : Option Catalog :=
  (mine catalogs name).find? (·.declares tier)

/-- An instant lies in a tier. -/
def ArchivedTier.Holds (t : ArchivedTier) (at' : Millis) : Prop :=
  t.opened ≤ at' ∧ ∀ u, t.until' = some u → at' < u

/-- A tier of an expansion. -/
def ArchivedExpansion.Has (e : ArchivedExpansion) (t : ArchivedTier) : Prop := ∃ p ∈ e.patches, t ∈ p.tiers

/-- Every tier lasts as long as its statistics, and from the first on every instant lies in one tier. -/
structure DatesAgree (catalogs : List Catalog) (e : ArchivedExpansion) : Prop where
  bounds : ∀ t, e.Has t → ∃ c, reader catalogs e.name t.id = some c ∧
    ∀ now, (Window.tier t.id).bounds c now = some (t.opened, t.until')
  tiled : ∀ at', (∃ t, e.Has t ∧ t.opened ≤ at') → ∃! t, e.Has t ∧ t.Holds at'

/-! ## The tiers in order -/

theorem sortBy_of_pairwise {α : Type} {key : α → Nat} {l : List α}
    (h : l.Pairwise fun a b => key a < key b) : sortBy key l = l :=
  List.Pairwise.insertionSort_eq (h.imp fun hab => Nat.le_of_lt hab)

/-- The tiers of one expansion's catalogues, each opening after the one before it. -/
theorem mergedTiers_increasing {l : List Catalog} (hexp : ∀ c ∈ l, c.expansion = name)
    (hdistinct : OpenApart l) : (mergedTiers l).Pairwise fun a b => a.openedAt < b.openedAt := by
  have hle : (mergedTiers l).Pairwise fun a b => a.openedAt ≤ b.openedAt :=
    (pairwise_sortBy_key RaidTier.openedAt _).sublist (firsts_sublist _ _)
  have hne : (mergedTiers l).Pairwise fun a b => a.id ≠ b.id := pairwise_firsts _ _
  refine (hle.and hne).imp_of_mem fun {a b} ha hb hab => ?_
  obtain ⟨c, hc, hac⟩ := mem_mergedTiers ha
  obtain ⟨c', hc', hbc⟩ := mem_mergedTiers hb
  refine Nat.lt_of_le_of_ne hab.1 fun heq => hab.2 ?_
  exact hdistinct c hc c' hc' ((hexp c hc).trans (hexp c' hc').symm) a hac b hbc heq

/-- Every tier that is declared is among them, under its id. -/
theorem exists_mem_mergedTiers {l : List Catalog} (hc : c ∈ l) (ht : tier ∈ c.raidTiers) :
    ∃ m ∈ mergedTiers l, m.id = tier.id := by
  have hnew : tier.id ∉ [] := List.not_mem_nil
  refine exists_mem_firsts ?_ hnew
  rw [sortBy, List.mem_insertionSort]
  exact List.mem_flatMap.mpr ⟨c, hc, ht⟩

theorem getElem?_archivedTiers {l : List Catalog} : (archivedTiers l)[i]? =
    ((mergedTiers l)[i]?).map fun tier =>
      { id := tier.id, name := tier.name, patch := tier.patch, opened := tier.openedAt
        until' := ((mergedTiers l)[i + 1]?).map RaidTier.openedAt, season := tier.season
        catalog := opener l tier, declaredBy := (l.filter (·.declares tier.id)).map Catalog.id } := by
  simp only [archivedTiers, List.getElem?_mapIdx]

theorem map_opened_archivedTiers (l : List Catalog) :
    (archivedTiers l).map ArchivedTier.opened = (mergedTiers l).map RaidTier.openedAt := by
  apply List.ext_getElem?
  intro i
  rw [List.getElem?_map, List.getElem?_map, getElem?_archivedTiers, Option.map_map]
  rfl

/-! ## Tiers of patches -/

/-- A tier of a catalogue without problems names a patch of it. -/
theorem exists_patch (h : c.problems = []) (ht : tier ∈ c.raidTiers) :
    ∃ p ∈ c.patches, p.patch = tier.patch := by
  obtain ⟨-, htiers⟩ := List.append_eq_nil_iff.mp h
  have hnone := List.filterMap_eq_nil_iff.mp htiers tier ht
  rw [Catalog.tierProblem] at hnone
  split at hnone
  · cases hnone
  · cases hfind : c.patches.find? (·.patch = tier.patch) with
    | none =>
        rw [hfind] at hnone
        cases hnone
    | some p => exact ⟨p, List.mem_of_find?_eq_some hfind, by simpa using List.find?_some hfind⟩

/-- In an expansion whose tiers all name a patch of it, the tiers of the patches are all tiers. -/
theorem flatMap_tiers_perm (name : Text) (collecting : Catalog → Bool) {l : List Catalog}
    (hsound : ∀ c ∈ l, c.problems = []) :
    ((expansion name l collecting).patches.flatMap ArchivedPatch.tiers).Perm (archivedTiers l) := by
  have hends : ((archivedPatches l).mapIdx fun i p =>
      { p with until' := ((archivedPatches l)[i + 1]?).map ArchivedPatch.started }).map ArchivedPatch.tiers =
      (archivedPatches l).map ArchivedPatch.tiers := by
    apply List.ext_getElem?
    intro i
    rw [List.getElem?_map, List.getElem?_map, List.getElem?_mapIdx, Option.map_map]
    rfl
  have hkeys : ∀ t ∈ archivedTiers l,
      t.patch ∈ Groups.keys textLe (fun d : Catalog × Patch => d.2.patch) (declaredPatches l) := by
    intro t ht
    obtain ⟨tier, htier, -, hpatch, -⟩ := mem_archivedTiers ht
    obtain ⟨c, hc, hmem⟩ := mem_mergedTiers htier
    obtain ⟨p, hp, hname⟩ := exists_patch (hsound c hc) hmem
    exact Groups.mem_keys.mpr ⟨(c, p), mem_declaredPatches.mpr ⟨hc, hp⟩, hname.trans hpatch.symm⟩
  rw [expansion]
  refine ((List.reverse_perm _).flatMap_right _).trans ?_
  rw [List.flatMap_def, hends, ← List.flatMap_def, archivedPatches]
  refine ((List.perm_insertionSort _ _).flatMap_right _).trans ?_
  rw [Groups.grouped, List.map_map, List.flatMap_map]
  refine (List.Perm.flatMap_left _ fun k _ => ?_).trans
    (Groups.flatMap_group_perm Groups.keys_nodup hkeys)
  exact List.perm_insertionSort _ _

theorem increasing_archivedTiers {l : List Catalog} (hexp : ∀ c ∈ l, c.expansion = name)
    (hdistinct : OpenApart l) : (archivedTiers l).Pairwise fun a b => a.opened < b.opened := by
  rw [← List.pairwise_map (f := ArchivedTier.opened) (R := fun a b : Nat => a < b), map_opened_archivedTiers]
  exact List.pairwise_map.mpr (mergedTiers_increasing hexp hdistinct)

theorem tiersOf_expansion (collecting : Catalog → Bool) {l : List Catalog}
    (hsound : ∀ c ∈ l, c.problems = []) (hexp : ∀ c ∈ l, c.expansion = name) (hdistinct : OpenApart l) :
    tiersOf (expansion name l collecting) = archivedTiers l := by
  have hlt := increasing_archivedTiers hexp hdistinct
  have hperm := flatMap_tiers_perm name collecting hsound
  have hkey : Distinct ArchivedTier.opened (archivedTiers l) :=
    .of_nodup (List.pairwise_map.mpr (hlt.imp fun hab => Nat.ne_of_lt hab))
  rw [tiersOf, sortBy_perm (fun a ha b hb => hkey a (hperm.mem_iff.mp ha) b (hperm.mem_iff.mp hb)) hperm,
    sortBy_of_pairwise hlt]

theorem has_expansion_iff (name : Text) (collecting : Catalog → Bool) {l : List Catalog}
    (hsound : ∀ c ∈ l, c.problems = []) :
    (expansion name l collecting).Has t ↔ t ∈ archivedTiers l := by
  rw [← (flatMap_tiers_perm name collecting hsound).mem_iff, List.mem_flatMap]
  rfl

/-! ## The end of a tier -/

theorem getElem?_merged {l : List Catalog} (h : (archivedTiers l)[i]? = some t) :
    ∃ m, (mergedTiers l)[i]? = some m ∧ t.id = m.id ∧ t.opened = m.openedAt ∧
      t.until' = ((mergedTiers l)[i + 1]?).map RaidTier.openedAt ∧
      t.declaredBy = (l.filter (·.declares m.id)).map Catalog.id := by
  rw [getElem?_archivedTiers] at h
  obtain ⟨m, hm, rfl⟩ := Option.map_eq_some_iff.mp h
  exact ⟨m, hm, rfl, rfl, rfl, rfl⟩

theorem opened_lt {l : List Catalog} {m n : RaidTier} {j : Nat}
    (hlt : (mergedTiers l).Pairwise fun a b => a.openedAt < b.openedAt) (hm : (mergedTiers l)[i]? = some m)
    (hn : (mergedTiers l)[j]? = some n) (hij : i < j) : m.openedAt < n.openedAt := by
  have hget (k : Nat) (x : RaidTier) (hx : (mergedTiers l)[k]? = some x) :
      ((mergedTiers l).map RaidTier.openedAt)[k]? = some x.openedAt := by
    rw [List.getElem?_map, hx]
    rfl
  exact Intervals.get_lt_get (List.pairwise_map.mpr hlt) (hget i m hm) (hget j n hn) hij

theorem opened_eq {l : List Catalog} {m : RaidTier} (hexp : ∀ c ∈ l, c.expansion = name)
    (hdates : Restated l) (hc : c ∈ l) (hm : m ∈ mergedTiers l) (ht : tier ∈ c.raidTiers)
    (hid : tier.id = m.id) : tier.openedAt = m.openedAt := by
  obtain ⟨d, hd, hmd⟩ := mem_mergedTiers hm
  exact hdates c hc d hd ((hexp c hc).trans (hexp d hd).symm) tier ht m hmd hid

/-- A tier that opened after another opened no earlier than the next one. -/
theorem next_le {l : List Catalog} {m : RaidTier} (hexp : ∀ c ∈ l, c.expansion = name)
    (hdates : Restated l) (hdistinct : OpenApart l) (hm : (mergedTiers l)[i]? = some m) (hc : c ∈ l)
    (ht : tier ∈ c.raidTiers) (hlater : m.openedAt < tier.openedAt) :
    ∃ n, (mergedTiers l)[i + 1]? = some n ∧ n.openedAt ≤ tier.openedAt := by
  have hlt := mergedTiers_increasing hexp hdistinct
  obtain ⟨n, hn, hid⟩ := exists_mem_mergedTiers hc ht
  have hsame := opened_eq hexp hdates hc hn ht hid.symm
  obtain ⟨j, hj⟩ := List.mem_iff_getElem?.mp hn
  have hij : i < j := by
    by_contra hle
    have hmn : n.openedAt ≤ m.openedAt := by
      rcases Nat.lt_or_eq_of_le (Nat.not_lt.mp hle) with hji | rfl
      · exact Nat.le_of_lt (opened_lt hlt hj hm hji)
      · rw [Option.some.inj (hj.symm.trans hm)]
    rw [hsame] at hlater
    exact Nat.not_lt.mpr hmn hlater
  have hlen := (List.getElem?_eq_some_iff.mp hj).1
  have hnext : (mergedTiers l)[i + 1]? = some (mergedTiers l)[i + 1] := List.getElem?_eq_getElem (by omega)
  refine ⟨_, hnext, ?_⟩
  rw [hsame]
  rcases Nat.lt_or_eq_of_le hij with hlt' | rfl
  · exact Nat.le_of_lt (opened_lt hlt hnext hj hlt')
  · rw [Option.some.inj (hnext.symm.trans hj)]

/-- Where the reader of a tier declares the next one, it ends the tier where the archive does. -/
theorem bounds_eq {l : List Catalog} {m : RaidTier} (hexp : ∀ c ∈ l, c.expansion = name)
    (hdates : Restated l) (hdistinct : OpenApart l) (hm : (mergedTiers l)[i]? = some m) (hc : c ∈ l)
    (hdeclares : c.declares m.id = true)
    (hnext : ∀ n, (mergedTiers l)[i + 1]? = some n → c.declares n.id = true) (now : Millis) :
    (Window.tier m.id).bounds c now =
      some (m.openedAt, ((mergedTiers l)[i + 1]?).map RaidTier.openedAt) := by
  cases hfind : c.raidTiers.find? (·.id = m.id) with
  | none =>
      obtain ⟨r, hr, hid⟩ := Catalog.declares_iff.mp hdeclares
      exact absurd (decide_eq_true hid) (List.find?_eq_none.mp hfind r hr)
  | some r =>
      have hopened : r.openedAt = m.openedAt := opened_eq hexp hdates hc (List.mem_of_getElem? hm)
        (List.mem_of_find?_eq_some hfind) (by simpa using List.find?_some hfind)
      have hlater (b : Nat) (hb : b ∈ (c.raidTiers.map RaidTier.openedAt).filter (m.openedAt < ·)) :
          ∃ n, (mergedTiers l)[i + 1]? = some n ∧ n.openedAt ≤ b := by
        obtain ⟨hb, hgt⟩ := List.mem_filter.mp hb
        obtain ⟨q, hq, rfl⟩ := List.mem_map.mp hb
        exact next_le hexp hdates hdistinct hm hc hq (of_decide_eq_true hgt)
      have hend : ((c.raidTiers.map RaidTier.openedAt).filter (m.openedAt < ·)).min? =
          ((mergedTiers l)[i + 1]?).map RaidTier.openedAt := by
        cases hn : (mergedTiers l)[i + 1]? with
        | none =>
            refine List.min?_eq_none_iff.mpr (List.eq_nil_iff_forall_not_mem.mpr fun b hb => ?_)
            obtain ⟨n, hn', -⟩ := hlater b hb
            rw [hn] at hn'
            cases hn'
        | some n =>
            refine List.min?_eq_some_iff.mpr ⟨?_, fun b hb => ?_⟩
            · obtain ⟨q, hq, hid⟩ := Catalog.declares_iff.mp (hnext n hn)
              have hsame := opened_eq hexp hdates hc (List.mem_of_getElem? hn) hq hid
              have hlt := opened_lt (mergedTiers_increasing hexp hdistinct) hm hn (Nat.lt_succ_self i)
              exact List.mem_filter.mpr ⟨hsame ▸ List.mem_map_of_mem hq, decide_eq_true hlt⟩
            · obtain ⟨n', hn', hle⟩ := hlater b hb
              rw [hn] at hn'
              cases hn'
              exact hle
      simp only [Window.bounds, hfind, Option.map_some, hopened, hend]

/-- An instant lies in a tier exactly if it lies in its interval of the opening days. -/
theorem holds_iff {l : List Catalog} {at' : Millis} (h : (archivedTiers l)[i]? = some t) :
    t.Holds at' ↔ Intervals.Holds ((archivedTiers l).map ArchivedTier.opened) at' i := by
  obtain ⟨m, hm, -, hopened, huntil, -⟩ := getElem?_merged h
  rw [ArchivedTier.Holds, Intervals.Holds, map_opened_archivedTiers, List.getElem?_map, List.getElem?_map,
    hm, huntil, hopened, Option.map_some]
  simp only [Option.some.injEq, exists_eq_left']

theorem existsUnique_holds {l : List Catalog} (hlt : (archivedTiers l).Pairwise fun a b => a.opened < b.opened)
    {at' : Millis} (hfirst : ∃ t ∈ archivedTiers l, t.opened ≤ at') :
    ∃! t, t ∈ archivedTiers l ∧ t.Holds at' := by
  have hmap := List.pairwise_map.mpr hlt
  obtain ⟨t, ht, hle⟩ := hfirst
  obtain ⟨i, hi⟩ := Intervals.exists_holds hmap ⟨t.opened, List.mem_map_of_mem ht, hle⟩
  obtain ⟨s, hs, -⟩ := hi.1
  obtain ⟨t, ht, -⟩ := Option.map_eq_some_iff.mp (List.getElem?_map.symm.trans hs)
  refine ⟨t, ⟨List.mem_of_getElem? ht, (holds_iff ht).mpr hi⟩, ?_⟩
  rintro u ⟨hu, hholds⟩
  obtain ⟨j, hj⟩ := List.mem_iff_getElem?.mp hu
  obtain rfl := Intervals.holds_unique hmap ((holds_iff hj).mp hholds) hi
  exact Option.some.inj (hj.symm.trans ht)

/-! ## Archives without problems -/

/-- In an archive without problems the reader of a tier declares the next one. -/
theorem declares_next (hids : (catalogs.map Catalog.id).Nodup)
    (hproblems : ∀ pair ∈ (archivedTiers (mine catalogs name)).zip (archivedTiers (mine catalogs name)).tail,
      tierProblem pair = none)
    {m n : RaidTier} (hm : (mergedTiers (mine catalogs name))[i]? = some m)
    (hn : (mergedTiers (mine catalogs name))[i + 1]? = some n)
    (hreader : reader catalogs name m.id = some c) : c.declares n.id = true := by
  obtain ⟨t, ht⟩ : ∃ t, (archivedTiers (mine catalogs name))[i]? = some t :=
    ⟨_, by rw [getElem?_archivedTiers, hm]; rfl⟩
  obtain ⟨u, hu⟩ : ∃ u, (archivedTiers (mine catalogs name))[i + 1]? = some u :=
    ⟨_, by rw [getElem?_archivedTiers, hn]; rfl⟩
  obtain ⟨m', hm', -, -, -, ht'⟩ := getElem?_merged ht
  obtain ⟨n', hn', -, -, -, hu'⟩ := getElem?_merged hu
  rw [hm] at hm'
  rw [hn] at hn'
  cases hm'
  cases hn'
  have hpair := hproblems (t, u) (List.mem_of_getElem? (i := i) (List.getElem?_zip_eq_some.mpr
    ⟨ht, by rw [List.getElem?_tail]; exact hu⟩))
  have hhead : t.declaredBy.head? = some c.id := by
    rw [ht', List.head?_map, List.head?_filter, ← reader, hreader]
    rfl
  simp only [tierProblem, hhead, hu'] at hpair
  have hmem : c.id ∈ ((mine catalogs name).filter (·.declares n.id)).map Catalog.id := by
    by_contra hout
    rw [if_neg hout] at hpair
    cases hpair
  obtain ⟨d, hd, hid⟩ := List.mem_map.mp hmem
  obtain ⟨hdmine, hdeclares⟩ := List.mem_filter.mp hd
  have hcmine : c ∈ mine catalogs name := List.mem_of_find?_eq_some hreader
  obtain rfl : d = c := List.inj_on_of_nodup_map hids (mem_mine.mp hdmine).1 (mem_mine.mp hcmine).1 hid
  exact hdeclares

theorem Restated.mine (h : Restated catalogs) : Restated (mine catalogs name) :=
  fun c hc c' hc' => h c (mem_mine.mp hc).1 c' (mem_mine.mp hc').1

theorem OpenApart.mine (h : OpenApart catalogs) : OpenApart (mine catalogs name) :=
  fun c hc c' hc' => h c (mem_mine.mp hc).1 c' (mem_mine.mp hc').1

/-- Of an archive without problems, made of catalogues without problems that agree about their tiers,
every tier lasts as long as the statistics of the newest catalogue that declares it, and the tiers of an
expansion follow each other without gap or overlap. -/
theorem archive_dates_agree (catalogs : List Catalog) (collecting : Catalog → Bool)
    (hids : (catalogs.map Catalog.id).Nodup) (hsound : ∀ c ∈ catalogs, c.problems = [])
    (hdates : Restated catalogs) (hdistinct : OpenApart catalogs)
    (harchive : (Archive.of catalogs collecting).problems = []) :
    ∀ e ∈ (Archive.of catalogs collecting).expansions, DatesAgree catalogs e := by
  intro e he
  obtain ⟨name, hsame⟩ := mem_of he
  have hexp : ∀ c ∈ mine catalogs name, c.expansion = name := fun c hc => (mem_mine.mp hc).2
  have hsound' : ∀ c ∈ mine catalogs name, c.problems = [] := fun c hc => hsound c (mem_mine.mp hc).1
  have hname : e.name = name := by rw [hsame]; rfl
  have hhas (t : ArchivedTier) : e.Has t ↔ t ∈ archivedTiers (mine catalogs name) := by
    rw [hsame]
    exact has_expansion_iff name collecting hsound'
  have hproblems : ∀ pair ∈ (archivedTiers (mine catalogs name)).zip
      (archivedTiers (mine catalogs name)).tail, tierProblem pair = none := by
    have htiers : tiersOf e = archivedTiers (mine catalogs name) := by
      rw [hsame]
      exact tiersOf_expansion collecting hsound' hexp hdistinct.mine
    have hnone := List.flatMap_eq_nil_iff.mp harchive e he
    rw [htiers] at hnone
    exact List.filterMap_eq_nil_iff.mp hnone
  constructor
  · intro t ht
    obtain ⟨i, hi⟩ := List.mem_iff_getElem?.mp ((hhas t).mp ht)
    obtain ⟨m, hm, hid, hopened, huntil, -⟩ := getElem?_merged hi
    obtain ⟨d, hd, hmd⟩ := mem_mergedTiers (List.mem_of_getElem? hm)
    have hsome : (reader catalogs name m.id).isSome = true := by
      rw [reader, List.find?_isSome]
      exact ⟨d, hd, Catalog.declares_iff.mpr ⟨m, hmd, rfl⟩⟩
    obtain ⟨c, hreader⟩ := Option.isSome_iff_exists.mp hsome
    refine ⟨c, by rw [hname, hid]; exact hreader, fun now => ?_⟩
    rw [hid, hopened, huntil]
    exact bounds_eq hexp hdates.mine hdistinct.mine hm (List.mem_of_find?_eq_some hreader)
      (by simpa using List.find?_some hreader) (fun n hn => declares_next hids hproblems hm hn hreader) now
  · intro at' hfirst
    simp only [hhas] at hfirst ⊢
    exact existsUnique_holds (increasing_archivedTiers hexp hdistinct.mine) hfirst

def launch : Patch := ⟨"12.0".toList, "Launch".toList, "2026-03-02".toList⟩

def curse : Patch := ⟨"12.1".toList, "The Curse".toList, "2026-08-11".toList⟩

def spire : RaidTier := ⟨"spire".toList, "The Spire".toList, "12.0".toList, "2026-03-17".toList, some 1⟩

def abyss : RaidTier := ⟨"abyss".toList, "The Abyss".toList, "12.1".toList, "2026-08-18".toList, some 2⟩

def seasonOf (id : Text) (patches : List Patch) (raidTiers : List RaidTier) : Catalog :=
  { id, expansion := "Midnight".toList, status := .active, catalogVersion := 1, patches, raidTiers
    items := [], itemLevels := [], tracks := [], modifiers := [], notes := [] }

/-- A catalogue, and the one of the next season, which restates its tier. -/
def rollover : List Catalog :=
  [seasonOf "one".toList [launch] [spire], seasonOf "two".toList [launch, curse] [spire, abyss]]

theorem rollover_dates_agree :
    ((Archive.of rollover fun c => c.status.isCollected).expansions.map fun e => e.slug) =
        ["midnight".toList] ∧
      ∀ e ∈ (Archive.of rollover fun c => c.status.isCollected).expansions, DatesAgree rollover e :=
  ⟨by decide, archive_dates_agree rollover _ (by decide) (by decide +kernel) (by decide +kernel)
    (by decide) (by decide +kernel)⟩

/-- Two catalogues of one id, of which the newer one declares only the first tier. -/
def sameId : List Catalog :=
  [seasonOf "one".toList [launch, curse, ⟨"12.2".toList, "Later".toList, "2026-12-01".toList⟩] [spire],
    seasonOf "one".toList [launch, curse] [spire, abyss]]

theorem same_id_hides_the_next_tier :
    ¬ ∀ (catalogs : List Catalog) (collecting : Catalog → Bool), (∀ c ∈ catalogs, c.problems = []) →
      Restated catalogs → OpenApart catalogs → (Archive.of catalogs collecting).problems = [] →
        ∀ e ∈ (Archive.of catalogs collecting).expansions, DatesAgree catalogs e := by
  intro h
  have hagree := h sameId (fun _ => false) (by decide) (by decide +kernel) (by decide +kernel)
    (by decide)
  have hbounds : ∀ e ∈ (Archive.of sameId fun _ => false).expansions, ∀ p ∈ e.patches, ∀ t ∈ p.tiers,
      ((reader sameId e.name t.id).bind fun c => (Window.tier t.id).bounds c 0) =
        some (t.opened, t.until') := by
    intro e he p hp t ht
    obtain ⟨c, hreader, hdates⟩ := (hagree e he).bounds t ⟨p, hp, ht⟩
    rw [hreader]
    exact hdates 0
  revert hbounds
  decide

end Gavel.Market
