import Gavel.Lib.Intervals
import Gavel.Market.Theorems.Dates
import Gavel.Market.Theorems.TierDates
import Gavel.Market.Theorems.WindowRows

/-!
# Patch windows partition the expansion

The patches of a catalogue follow each other without gap or overlap, whatever order they are declared in
and even where two started on one day. What is observed in an expansion is therefore observed in exactly
one of its patches, and the rows of the patches make up that of the expansion.
-/

namespace Gavel.Market

open Gavel.Cluster (Millis)
open Gavel.Intervals

variable {F : Floating} {key : MarketKey} {window : Window} {history : List PriceSample}
  {current : Option Copper} {since : Millis} {until' : Option Millis} {expected : Option Nat}
  {c : Catalog} {now at' : Millis} {row : MarketWindow} {s : PriceSample}

def Window.isPatch : Window → Bool
  | .patch _ => true
  | _ => false

/-- The rows of the patches among those that are materialised. -/
def patchRows (rows : List MarketWindow) : List MarketWindow := rows.filter fun row => row.window.isPatch

/-- The rows of the patches make up the row of the expansion; counts have 32 bits. -/
structure MakeUp (rows : List MarketWindow) (row : MarketWindow) (observed : Nat) : Prop where
  wrapped : (rows.map MarketWindow.samples).sum % 2 ^ 32 = row.samples
  samples : observed < 2 ^ 32 → (rows.map MarketWindow.samples).sum = row.samples
  low : (rows.map MarketWindow.low).min? = some row.low
  high : (rows.map MarketWindow.high).max? = some row.high

theorem MakeUp.of_perm {rows rows' : List MarketWindow} {observed : Nat} (h : MakeUp rows row observed)
    (hperm : rows.Perm rows') : MakeUp rows' row observed where
  wrapped := (hperm.map MarketWindow.samples).sum_eq ▸ h.wrapped
  samples hfew := (hperm.map MarketWindow.samples).sum_eq ▸ h.samples hfew
  low := (Assoc.min?_congr fun _ => (hperm.map MarketWindow.low).mem_iff) ▸ h.low
  high := (Assoc.max?_congr fun _ => (hperm.map MarketWindow.high).mem_iff) ▸ h.high

/-! ## The windows -/

theorem startedAt_le (p : Patch) : p.startedAt ≤ maxU64 := by
  rw [Patch.startedAt]
  cases hdate : parseDate p.started with
  | none => exact Nat.zero_le _
  | some at' =>
      obtain ⟨-, -, -, -, y, mo, d, -, hat⟩ := exists_fields hdate
      have hlt : at' < 2 ^ 64 := by
        rw [hat]
        exact fromUtcDate_lt y mo d
      exact Nat.le_of_lt_succ hlt

/-- The starts of the patches, in order. -/
def starts (c : Catalog) : List Millis := (sortBy Patch.startedAt c.patches).map Patch.startedAt

theorem map_patchWindows (c : Catalog) : c.patchWindows.map Prod.snd = cut (starts c) := by
  rw [starts, ← cut_eq_mapIdx, Catalog.patchWindows]
  apply List.ext_getElem?
  intro i
  rw [List.getElem?_map, List.getElem?_mapIdx, List.getElem?_mapIdx, Option.map_map]
  rfl

theorem map_fst_patchWindows (c : Catalog) :
    c.patchWindows.map Prod.fst = sortBy Patch.startedAt c.patches := by
  apply List.ext_getElem?
  intro i
  rw [Catalog.patchWindows, List.getElem?_map, List.getElem?_mapIdx, Option.map_map]
  exact Option.map_id_apply

theorem starts_sorted (c : Catalog) : (starts c).Pairwise (· ≤ ·) :=
  List.pairwise_map.mpr (pairwise_sortBy_key _ _)

theorem mem_starts {t : Millis} : t ∈ starts c ↔ t ∈ c.patches.map Patch.startedAt := by
  simp only [starts, List.mem_map, mem_sortBy]

/-- An instant is in the expansion when a patch started no later. -/
theorem spanStart_le_iff (hpatches : c.patches ≠ []) : c.spanStart ≤ at' ↔ ∃ t ∈ starts c, t ≤ at' := by
  have hne : c.patches.map Patch.startedAt ≠ [] := by simpa using hpatches
  obtain ⟨first, hfirst⟩ := Option.isSome_iff_exists.mp (List.isSome_min?_of_ne_nil hne)
  obtain ⟨hmem, hle⟩ := List.min?_eq_some_iff.mp hfirst
  rw [Catalog.spanStart, hfirst, Option.getD_some]
  constructor
  · exact fun h => ⟨first, mem_starts.mpr hmem, h⟩
  · rintro ⟨t, ht, hta⟩
    exact Nat.le_trans (hle t (mem_starts.mp ht)) hta

theorem countP_patchWindows (hpatches : c.patches ≠ []) (at' : Millis) :
    (c.patchWindows.countP fun w => Lies w.2 at') = if c.spanStart ≤ at' then 1 else 0 := by
  have hcut := countP_cut (starts_sorted c) at'
  rw [← map_patchWindows, List.countP_map] at hcut
  simp only [spanStart_le_iff hpatches]
  exact hcut

/-! ## What is observed in them -/

/-- The bounds of a patch are its window, where no other patch has its id. -/
theorem bounds_patch (hids : (c.patches.map Patch.patch).Nodup) {w : Patch × Millis × Option Millis}
    (hw : w ∈ c.patchWindows) : (Window.patch w.1.patch).bounds c now = some w.2 := by
  have hnodup : (c.patchWindows.map fun w => w.1.patch).Nodup := by
    have hmap : c.patchWindows.map (fun w => w.1.patch) = (c.patchWindows.map Prod.fst).map Patch.patch := by
      rw [List.map_map]
      rfl
    rw [hmap, map_fst_patchWindows]
    exact ((List.perm_insertionSort _ _).map _).nodup_iff.mpr hids
  have hfind : c.patchWindows.find? (fun v => v.1.patch = w.1.patch) = some w := by
    have hsome : (c.patchWindows.find? fun v => v.1.patch = w.1.patch).isSome = true :=
      List.find?_isSome.mpr ⟨w, hw, by simp⟩
    obtain ⟨v, hv⟩ := Option.isSome_iff_exists.mp hsome
    have hsame : v.1.patch = w.1.patch := by simpa using List.find?_some hv
    rw [hv, List.inj_on_of_nodup_map hnodup (List.mem_of_find?_eq_some hv) hw hsame]
  rw [Window.bounds, hfind, Option.map_some]

/-- An open window ends, for an observation, before the last instant there is; no other ends later. -/
theorem within_iff {w : Millis × Option Millis} (hw : ∀ u ∈ w.2, u ≤ maxU64) :
    Within w.1 w.2 at' ↔ Lies w at' ∧ at' < maxU64 := by
  obtain ⟨since, until'⟩ := w
  cases until' with
  | none => simp [Within, Lies]
  | some u =>
      have hu := hw u rfl
      simp only [Within, Lies, Option.getD_some, Option.all_some, decide_eq_true_eq]
      constructor
      · exact fun ⟨hle, hlt⟩ => ⟨⟨hle, hlt⟩, Nat.lt_of_lt_of_le hlt hu⟩
      · exact fun ⟨hlies, _⟩ => hlies

theorem until_le {w : Patch × Millis × Option Millis} (hw : w ∈ c.patchWindows) : ∀ u ∈ w.2.2, u ≤ maxU64 := by
  obtain ⟨i, hi, rfl⟩ := List.mem_mapIdx.mp hw
  intro u hu
  obtain ⟨p, -, rfl⟩ := Option.map_eq_some_iff.mp hu
  exact startedAt_le p

/-- What counts as observed in the expansion counts in exactly one of its patches. -/
theorem countP_within (hpatches : c.patches ≠ []) (at' : Millis) :
    (c.patchWindows.countP fun w => Within w.2.1 w.2.2 at') =
      if decide (Within c.spanStart none at') then 1 else 0 := by
  by_cases hlast : at' < maxU64
  · have hlies : c.patchWindows.countP (fun w => Within w.2.1 w.2.2 at') =
        c.patchWindows.countP fun w => Lies w.2 at' := by
      refine List.countP_congr fun w hw => ?_
      simp only [decide_eq_true_eq, within_iff (until_le hw), hlast, and_true]
    have hspan : Within c.spanStart none at' ↔ c.spanStart ≤ at' := and_iff_left hlast
    rw [hlies, countP_patchWindows hpatches]
    simp only [hspan, decide_eq_true_eq]
  · have hspan : ¬ Within c.spanStart none at' := fun h => hlast h.2
    rw [if_neg (by simpa using hspan)]
    refine List.countP_eq_zero.mpr fun w hw hwithin => hlast ?_
    exact ((within_iff (until_le hw)).mp (of_decide_eq_true hwithin)).2

theorem length_inside (history : List PriceSample) (since : Millis) (until' : Option Millis) :
    (inside history since until').length = history.countP fun s => Within since until' s.observedAt := by
  rw [(perm_inside history since until').length_eq, List.countP_eq_length_filter]

theorem sum_inside (hpatches : c.patches ≠ []) (history : List PriceSample) :
    (c.patchWindows.map fun w => (inside history w.2.1 w.2.2).length).sum =
      (inside history c.spanStart none).length := by
  simp only [length_inside]
  exact sum_countP fun s _ => countP_within hpatches s.observedAt

theorem mem_inside_expansion (hpatches : c.patches ≠ []) :
    s ∈ inside history c.spanStart none ↔ ∃ w ∈ c.patchWindows, s ∈ inside history w.2.1 w.2.2 := by
  have hcount := countP_within hpatches s.observedAt
  simp only [mem_inside]
  constructor
  · rintro ⟨hs, hwithin⟩
    rw [if_pos (decide_eq_true hwithin)] at hcount
    obtain ⟨w, hw, hin⟩ := List.countP_pos_iff.mp (hcount ▸ Nat.one_pos)
    exact ⟨w, hw, hs, of_decide_eq_true hin⟩
  · rintro ⟨w, hw, hs, hin⟩
    refine ⟨hs, ?_⟩
    by_contra hnot
    rw [if_neg (by simpa using hnot)] at hcount
    exact List.countP_eq_zero.mp hcount w hw (decide_eq_true hin)

/-! ## Their rows -/

theorem row_of_summariseOver
    (h : summariseOver F key window history current since until' expected now = some row) :
    row.window = window ∧ row.samples = (inside history since until').length % 2 ^ 32 ∧
      ((inside history since until').map PriceSample.p05UnitPrice).min? = some row.low ∧
      ((inside history since until').map PriceSample.p05UnitPrice).max? = some row.high := by
  simp only [summariseOver, Option.bind_eq_bind, Option.bind_eq_some_iff, Option.pure_def,
    Option.some.injEq] at h
  obtain ⟨first, -, last, -, cheapest, hcheapest, dearest, hdearest, low, hlow, high, hhigh, d, -, rfl⟩ := h
  obtain rfl : low.p05UnitPrice = cheapest := by simpa using List.find?_some hlow
  obtain rfl : high.p05UnitPrice = dearest := by simpa using List.find?_some hhigh
  exact ⟨rfl, rfl, hcheapest, hdearest⟩

/-- What the row of a window comes to; there is none where nothing is inside. -/
theorem takes (F : Floating) (key : MarketKey) (history : List PriceSample) (current : Option Copper)
    (hbounds : window.bounds c now = some (since, until')) :
    ((summarise F key window history current c now).map MarketWindow.samples).getD 0 =
        (inside history since until').length % 2 ^ 32 ∧
      (summarise F key window history current c now).map MarketWindow.low =
        ((inside history since until').map PriceSample.p05UnitPrice).min? ∧
      (summarise F key window history current c now).map MarketWindow.high =
        ((inside history since until').map PriceSample.p05UnitPrice).max? := by
  have hover : summarise F key window history current c now = summariseOver F key window history current
      since until' (window.expectedBuckets c now) now := by
    rw [summarise, hbounds]
    rfl
  rw [hover]
  by_cases hnil : inside history since until' = []
  · rw [summariseOver]
    simp only [hnil]
    exact ⟨rfl, rfl, rfl⟩
  · obtain ⟨row, hrow⟩ := summariseOver_isSome hnil
    obtain ⟨-, hsamples, hlow, hhigh⟩ := row_of_summariseOver hrow
    rw [hrow, hlow, hhigh]
    exact ⟨hsamples, rfl, rfl⟩

theorem window_of_summarise (h : summarise F key window history current c now = some row) :
    row.window = window := by
  obtain ⟨bounds, -, h⟩ := Option.bind_eq_some_iff.mp h
  exact (row_of_summariseOver h).1

/-- The row of a patch. -/
def patchRow (F : Floating) (key : MarketKey) (history : List PriceSample) (current : Option Copper)
    (c : Catalog) (now : Millis) (p : Patch) : Option MarketWindow :=
  summarise F key (.patch p.patch) history current c now

theorem patchRow_takes (F : Floating) (key : MarketKey) (history : List PriceSample)
    (current : Option Copper) (now : Millis) (hids : (c.patches.map Patch.patch).Nodup)
    {w : Patch × Millis × Option Millis} (hw : w ∈ c.patchWindows) :
    ((patchRow F key history current c now w.1).map MarketWindow.samples).getD 0 =
        (inside history w.2.1 w.2.2).length % 2 ^ 32 ∧
      (patchRow F key history current c now w.1).map MarketWindow.low =
        ((inside history w.2.1 w.2.2).map PriceSample.p05UnitPrice).min? ∧
      (patchRow F key history current c now w.1).map MarketWindow.high =
        ((inside history w.2.1 w.2.2).map PriceSample.p05UnitPrice).max? :=
  takes F key history current (bounds_patch hids hw)

/-- Of the rows that are materialised, those of the patches. -/
theorem patchRows_perm (F : Floating) (key : MarketKey) (history : List PriceSample)
    (current : Option Copper) (c : Catalog) (now : Millis) :
    (patchRows ((Window.allFor c).filterMap fun w => summarise F key w history current c now)).Perm
      (c.patchWindows.filterMap fun w => patchRow F key history current c now w.1) := by
  have hrows : patchRows ((Window.allFor c).filterMap fun w => summarise F key w history current c now) =
      c.patches.filterMap (patchRow F key history current c now) := by
    have hfilter : (Window.allFor c).filter Window.isPatch = c.patches.map fun p => .patch p.patch := by
      simp [Window.allFor, Window.universal, Window.rollingDays, Window.isPatch, List.filter_map,
        Function.comp_def]
    have hpatch : c.patches.filterMap (patchRow F key history current c now) =
        (c.patches.map fun p => Window.patch p.patch).filterMap fun w =>
          summarise F key w history current c now := by
      rw [List.filterMap_map]
      rfl
    rw [hpatch, ← hfilter, patchRows, List.filter_filterMap, List.filterMap_filter]
    refine List.filterMap_congr fun w _ => ?_
    cases hrow : summarise F key w history current c now with
    | none => simp
    | some row =>
        rw [Option.filter_some, window_of_summarise hrow]
  have hwindows : (c.patchWindows.filterMap fun w => patchRow F key history current c now w.1) =
      (c.patchWindows.map Prod.fst).filterMap (patchRow F key history current c now) := by
    rw [List.filterMap_map]
    rfl
  rw [hrows, hwindows, map_fst_patchWindows]
  exact ((List.perm_insertionSort _ _).filterMap _).symm

theorem sum_filterMap {α β : Type} (f : α → Option β) (count : β → Nat) (l : List α) :
    ((l.filterMap f).map count).sum = (l.map fun a => ((f a).map count).getD 0).sum := by
  induction l with
  | nil => rfl
  | cons a l ih =>
      rw [List.filterMap_cons, List.map_cons, List.sum_cons, ← ih]
      cases f a with
      | none => simp
      | some b => simp

theorem sum_mod {α : Type} (f : α → Nat) (m : Nat) (l : List α) :
    (l.map fun a => f a % m).sum % m = (l.map f).sum % m := by
  induction l with
  | nil => rfl
  | cons a l ih =>
      rw [List.map_cons, List.sum_cons, List.map_cons, List.sum_cons, Nat.add_mod, ih, Nat.mod_mod,
        ← Nat.add_mod]

theorem sum_mod_of_lt {α : Type} {f : α → Nat} {m : Nat} {l : List α} (h : (l.map f).sum < m) :
    (l.map fun a => f a % m).sum = (l.map f).sum := by
  refine congrArg List.sum (List.map_congr_left fun a ha => Nat.mod_eq_of_lt ?_)
  exact Nat.lt_of_le_of_lt (List.le_sum_of_mem (List.mem_map_of_mem ha)) h

theorem sum_samples (F : Floating) (key : MarketKey) (history : List PriceSample) (current : Option Copper)
    (now : Millis) (hids : (c.patches.map Patch.patch).Nodup) :
    ((c.patchWindows.filterMap fun w => patchRow F key history current c now w.1).map
      MarketWindow.samples).sum =
        (c.patchWindows.map fun w => (inside history w.2.1 w.2.2).length % 2 ^ 32).sum := by
  rw [sum_filterMap]
  exact congrArg List.sum (List.map_congr_left fun w hw =>
    (patchRow_takes F key history current now hids hw).1)

/-- The extreme price of the expansion is that of the extremes of its patches. -/
theorem extreme_inside {select : List Nat → Option Nat} {before : Nat → Nat → Prop}
    (hsel : Groups.Extreme select before) (hpatches : c.patches ≠ []) (history : List PriceSample) :
    select (c.patchWindows.filterMap fun w =>
        select ((inside history w.2.1 w.2.2).map PriceSample.p05UnitPrice)) =
      select ((inside history c.spanStart none).map PriceSample.p05UnitPrice) := by
  rw [← Groups.extreme_flatMap hsel]
  refine hsel.congr fun i => ?_
  simp only [List.mem_flatMap, List.mem_map, mem_inside_expansion hpatches]
  constructor
  · rintro ⟨w, hw, s, hs, rfl⟩
    exact ⟨s, ⟨w, hw, hs⟩, rfl⟩
  · rintro ⟨s, ⟨w, hw, hs⟩, rfl⟩
    exact ⟨w, hw, s, hs, rfl⟩

theorem makeUp (F : Floating) (key : MarketKey) (history : List PriceSample) (current : Option Copper)
    (now : Millis) (hpatches : c.patches ≠ []) (hids : (c.patches.map Patch.patch).Nodup)
    (hrow : summarise F key .expansion history current c now = some row) :
    MakeUp (c.patchWindows.filterMap fun w => patchRow F key history current c now w.1) row
      (inside history c.spanStart none).length := by
  have htakes : ∀ w ∈ c.patchWindows, _ := fun w hw => patchRow_takes F key history current now hids hw
  obtain ⟨hsamples, hlow, hhigh⟩ := @takes .expansion _ _ c now F key history current rfl
  rw [hrow] at hsamples hlow hhigh
  have hcount := sum_samples F key history current now hids
  constructor
  · rw [hcount, sum_mod, sum_inside hpatches]
    exact hsamples.symm
  · intro hfew
    rw [hcount, sum_mod_of_lt (by rwa [sum_inside hpatches]), sum_inside hpatches]
    exact (Nat.mod_eq_of_lt hfew).symm.trans hsamples.symm
  · rw [List.map_filterMap, List.filterMap_congr fun w hw => (htakes w hw).2.1,
      extreme_inside Groups.extreme_min hpatches, ← hlow]
    rfl
  · rw [List.map_filterMap, List.filterMap_congr fun w hw => (htakes w hw).2.2,
      extreme_inside Groups.extreme_max hpatches, ← hhigh]
    rfl

/-- Where nothing is observed in the expansion, nothing is in a patch. -/
theorem no_patchRow (hpatches : c.patches ≠ []) (hids : (c.patches.map Patch.patch).Nodup)
    (hrow : summarise F key .expansion history current c now = none) :
    (c.patchWindows.filterMap fun w => patchRow F key history current c now w.1) = [] := by
  obtain ⟨-, hlow, -⟩ := @takes .expansion _ _ c now F key history current rfl
  rw [hrow] at hlow
  have hnil := List.map_eq_nil_iff.mp (List.min?_eq_none_iff.mp hlow.symm)
  refine List.filterMap_eq_nil_iff.mpr fun w hw => ?_
  obtain ⟨-, hmin, -⟩ := patchRow_takes F key history current now hids hw
  have hempty : inside history w.2.1 w.2.2 = [] := by
    refine List.eq_nil_iff_forall_not_mem.mpr fun s hs => ?_
    have hmem := (mem_inside_expansion hpatches).mpr ⟨w, hw, hs⟩
    rw [hnil] at hmem
    cases hmem
  rw [hempty] at hmin
  exact Option.map_eq_none_iff.mp hmin

/-- Every instant from the first patch on lies in the window of exactly one patch and none before it does.
The rows that are materialised for the patches make up the one for the expansion. -/
theorem patch_windows_partition (F : Floating) (key : MarketKey) (history : List PriceSample)
    (ladder : Ladder) (c : Catalog) (now : Millis) (hpatches : c.patches ≠ [])
    (hids : (c.patches.map Patch.patch).Nodup) :
    (∀ at', (c.patchWindows.countP fun w => Lies w.2 at') = if c.spanStart ≤ at' then 1 else 0) ∧
      let rows := (commodity F key history ladder c (Window.allFor c) now).windows
      (∀ row ∈ rows, row.window = .expansion →
          MakeUp (patchRows rows) row (inside history c.spanStart none).length) ∧
        ((∀ row ∈ rows, row.window ≠ .expansion) → patchRows rows = []) := by
  refine ⟨countP_patchWindows hpatches, ?_⟩
  simp only [commodity]
  generalize some (stateOf F key history ladder ((c.targetOf key.item).getD ⟨1⟩) now).price = current
  have hperm := patchRows_perm F key history current c now
  constructor
  · intro row hrow hexpansion
    obtain ⟨w, -, hw⟩ := List.mem_filterMap.mp hrow
    obtain rfl : w = .expansion := (window_of_summarise hw).symm.trans hexpansion
    exact (makeUp F key history current now hpatches hids hw).of_perm hperm.symm
  · intro hnone
    have hrow : summarise F key .expansion history current c now = none := by
      cases hsome : summarise F key .expansion history current c now with
      | none => rfl
      | some row =>
          refine absurd (window_of_summarise hsome) (hnone row (List.mem_filterMap.mpr ⟨_, ?_, hsome⟩))
          simp [Window.allFor, Window.universal]
    rw [no_patchRow hpatches hids hrow] at hperm
    exact List.perm_nil.mp hperm

section Witness

/-- Quantiles that are the least price, which no row is compared by here. -/
def plain : Floating := ⟨fun prices _ => prices.headD 0, fun _ _ => none⟩

/-- A catalogue with two patches, the later one declared first. -/
def twoPatches : Catalog := seasonOf "one".toList [curse, launch] []

theorem windows_twoPatches : twoPatches.patchWindows =
    [(launch, launch.startedAt, some curse.startedAt), (curse, curse.startedAt, none)] := by
  decide

/-- One observation in each of two patches. -/
theorem patch_windows_partition_midnight :
    let rows := (commodity plain (.commodity .eu 1 0) [flask launch.startedAt 5, flask curse.startedAt 7]
      ⟨[]⟩ twoPatches (Window.allFor twoPatches) curse.startedAt).windows
    (twoPatches.patchWindows.countP fun w => Lies w.2 curse.startedAt) = 1 ∧
      ∀ row ∈ rows, row.window = .expansion →
        ((patchRows rows).map MarketWindow.samples).sum = row.samples := by
  obtain ⟨htiles, hrows, -⟩ := patch_windows_partition plain (.commodity .eu 1 0)
    [flask launch.startedAt 5, flask curse.startedAt 7] ⟨[]⟩ twoPatches curse.startedAt (by decide) (by decide)
  refine ⟨(htiles curse.startedAt).trans (by decide), fun row hrow hexpansion => ?_⟩
  exact (hrows row hrow hexpansion).samples (by decide)

/-- So many observations on each day that two patches started. -/
def crowded (n : Nat) : List PriceSample :=
  List.replicate n (flask launch.startedAt 5) ++ List.replicate n (flask curse.startedAt 5)

theorem length_inside_crowded (n : Nat) (since : Millis) (until' : Option Millis) :
    (inside (crowded n) since until').length = (if Within since until' launch.startedAt then n else 0) +
      if Within since until' curse.startedAt then n else 0 := by
  rw [length_inside, crowded, List.countP_append, List.countP_replicate, List.countP_replicate]
  simp only [decide_eq_true_eq]
  rfl

/-- The counts of the patches come to twice as many, of which the expansion's count is the remainder. -/
theorem crowded_rows {n : Nat} (hpos : 0 < n) (hfits : n < 2 ^ 32) (current : Option Copper) :
    let rows := (Window.allFor twoPatches).filterMap fun w =>
      summarise plain (.commodity .eu 1 0) w (crowded n) current twoPatches 0
    ((patchRows rows).map MarketWindow.samples).sum = n + n ∧
      ∃ row ∈ rows, row.window = .expansion ∧ row.samples = (n + n) % 2 ^ 32 := by
  have hids : (twoPatches.patches.map Patch.patch).Nodup := by decide
  constructor
  · have hperm := (patchRows_perm plain (.commodity .eu 1 0) (crowded n) current twoPatches 0).map
      MarketWindow.samples
    rw [hperm.sum_eq, sum_samples plain _ _ current 0 hids, windows_twoPatches]
    simp only [List.map_cons, List.map_nil, List.sum_cons, List.sum_nil, length_inside_crowded]
    rw [if_pos (by decide), if_neg (by decide +kernel), if_neg (by decide +kernel),
      if_pos (by decide), Nat.add_zero, Nat.zero_add, Nat.add_zero, Nat.mod_eq_of_lt hfits]
  · obtain ⟨hsamples, hlow, -⟩ := @takes .expansion _ _ twoPatches 0 plain (.commodity .eu 1 0) (crowded n)
      current rfl
    have hlength : (inside (crowded n) twoPatches.spanStart none).length = n + n := by
      rw [length_inside_crowded, if_pos (by decide), if_pos (by decide +kernel)]
    cases hrow : summarise plain (.commodity .eu 1 0) .expansion (crowded n) current twoPatches 0 with
    | none =>
        rw [hrow] at hlow
        rw [List.map_eq_nil_iff.mp (List.min?_eq_none_iff.mp hlow.symm)] at hlength
        exact absurd hlength (by simp; omega)
    | some row =>
        rw [hrow, hlength] at hsamples
        refine ⟨row, List.mem_filterMap.mpr ⟨.expansion, ?_, hrow⟩, window_of_summarise hrow, hsamples⟩
        simp [Window.allFor, Window.universal]

/-- Of 2 ^ 31 observations in each of two patches the counts come to 2 ^ 32, which no count holds. -/
theorem samples_wrap :
    ¬ ∀ (F : Floating) (key : MarketKey) (history : List PriceSample) (ladder : Ladder) (c : Catalog)
      (now : Millis), c.patches ≠ [] → (c.patches.map Patch.patch).Nodup →
        let rows := (commodity F key history ladder c (Window.allFor c) now).windows
        ∀ row ∈ rows, row.window = .expansion →
          ((patchRows rows).map MarketWindow.samples).sum = row.samples := by
  intro h
  have hrows := h plain (.commodity .eu 1 0) (crowded (2 ^ 31)) ⟨[]⟩ twoPatches 0 (by decide) (by decide)
  simp only [commodity] at hrows
  obtain ⟨hsum, row, hrow, hexpansion, hsamples⟩ := crowded_rows (n := 2 ^ 31) (by decide) (by decide)
    (some (stateOf plain (.commodity .eu 1 0) (crowded (2 ^ 31)) ⟨[]⟩
      ((twoPatches.targetOf (MarketKey.commodity .eu 1 0).item).getD ⟨1⟩) 0).price)
  have heq := hrows row hrow hexpansion
  rw [hsum, hsamples] at heq
  exact absurd heq (by decide)

end Witness

end Gavel.Market
