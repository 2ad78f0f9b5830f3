import Gavel.Market.Theorems.Codecs

/-!
# What a slot keeps

A sparkline and a chart divide a span into slots of equal duration. Slot by slot, the reduction is the
latest of the observations that fall in it; the two are the same reduction at another number of slots.
-/

namespace Gavel.Market

open Gavel.Cluster (Millis)

section Slotted

variable {α : Type} {instant : α → Nat} {slots since until' i : Nat} {observations : List α} {o : α}

/-! ## The slot of an instant -/

/-- The observation falls in the slot. -/
def InSlot (instant : α → Nat) (slots since until' i : Nat) (o : α) : Prop :=
  since ≤ instant o ∧ instant o ≤ until' ∧ slotOf slots (until' - since) (instant o - since) = i

instance InSlot.decidable (o : α) : Decidable (InSlot instant slots since until' i o) := by
  unfold InSlot
  infer_instance

/-- Without an overflow a slot is a share of the span, the last instant counted into the last one. -/
theorem slotOf_eq {span offset : Nat} (hspan : span * slots < 2 ^ 64) (h : offset ≤ span) :
    slotOf slots span offset = min (offset * slots / span) (slots - 1) := by
  rw [slotOf, Nat.mod_eq_of_lt (Nat.lt_of_le_of_lt (Nat.mul_le_mul_right slots h) hspan)]

theorem slotOf_lt {span offset : Nat} (hslots : 0 < slots) : slotOf slots span offset < slots := by
  unfold slotOf
  omega

theorem slotOf_mono {span offset offset' : Nat} (hspan : span * slots < 2 ^ 64) (h : offset ≤ offset')
    (h' : offset' ≤ span) : slotOf slots span offset ≤ slotOf slots span offset' := by
  rw [slotOf_eq hspan (h.trans h'), slotOf_eq hspan h']
  have := Nat.div_le_div_right (c := span) (Nat.mul_le_mul_right slots h)
  omega

/-! ## The latest of a slot -/

/-- Keep the later of two observations. -/
def later (instant : α → Nat) (held : Option α) (o : α) : Option α :=
  match held with
  | some h => if instant o < instant h then some h else some o
  | none => some o

/-- The latest of some observations, if there are any. -/
def latest (instant : α → Nat) (l : List α) : Option α := l.foldl (later instant) none

theorem latest_concat (l : List α) (o : α) :
    latest instant (l ++ [o]) = later instant (latest instant l) o := by
  rw [latest, List.foldl_append]
  rfl

theorem latest_eq_none {l : List α} : latest instant l = none ↔ l = [] := by
  induction l using List.reverseRecOn with
  | nil => exact ⟨fun _ => rfl, fun _ => rfl⟩
  | append_singleton l o _ =>
      rw [latest_concat]
      unfold later
      split
      · split <;> simp
      · simp

theorem latest_spec {l : List α} (h : latest instant l = some o) :
    o ∈ l ∧ ∀ a ∈ l, instant a ≤ instant o := by
  induction l using List.reverseRecOn generalizing o with
  | nil => cases h
  | append_singleton l b ih =>
      rw [latest_concat] at h
      cases hheld : latest instant l with
      | none =>
          rw [hheld] at h
          cases h
          simp [latest_eq_none.mp hheld]
      | some held =>
          obtain ⟨hmem, hall⟩ := ih hheld
          rw [hheld] at h
          simp only [later] at h
          split at h
          · rename_i hlt
            cases h
            refine ⟨List.mem_append_left _ hmem, fun a ha => ?_⟩
            rcases List.mem_append.mp ha with ha | ha
            · exact hall a ha
            · exact List.mem_singleton.mp ha ▸ Nat.le_of_lt hlt
          · rename_i hle
            cases h
            refine ⟨by simp, fun a ha => ?_⟩
            rcases List.mem_append.mp ha with ha | ha
            · exact (hall a ha).trans (Nat.not_lt.mp hle)
            · exact Nat.le_of_eq (congrArg instant (List.mem_singleton.mp ha))

/-- Of observations at distinct instants one is the latest. -/
theorem latest_eq_some {l : List α} (hnd : (l.map instant).Nodup) :
    latest instant l = some o ↔ o ∈ l ∧ ∀ a ∈ l, instant a ≤ instant o := by
  refine ⟨latest_spec, fun ⟨hmem, hall⟩ => ?_⟩
  cases hl : latest instant l with
  | none => simp [latest_eq_none.mp hl] at hmem
  | some a =>
      obtain ⟨hamem, haall⟩ := latest_spec hl
      rw [List.inj_on_of_nodup_map hnd hamem hmem (Nat.le_antisymm (hall a hamem) (haall o hmem))]

theorem latest_perm {l m : List α} (hnd : (m.map instant).Nodup) (h : l.Perm m) :
    latest instant l = latest instant m := by
  refine Option.ext fun o => ?_
  rw [latest_eq_some ((h.map instant).nodup_iff.mpr hnd), latest_eq_some hnd]
  simp only [h.mem_iff]

theorem getElem?_place {held : List (Option α)} {kept : Option α} (hi : held[i]? = some kept) :
    (place instant slots since until' held o)[i]? =
      some (if InSlot instant slots since until' i o then later instant kept o else kept) := by
  unfold place
  split
  · rename_i hout
    have hnot : ¬ InSlot instant slots since until' i o := fun ⟨hlow, hhigh, _⟩ =>
      hout.elim (Nat.not_lt.mpr hlow) (Nat.not_lt.mpr hhigh)
    rw [if_neg hnot, hi]
  · rename_i hin
    obtain ⟨hlow, hhigh⟩ := not_or.mp hin
    rw [List.getElem?_modify, hi]
    by_cases hslot : slotOf slots (until' - since) (instant o - since) = i
    · rw [if_pos ⟨Nat.not_lt.mp hlow, Nat.not_lt.mp hhigh, hslot⟩]
      simp only [Option.map_eq_map, Option.map_some, hslot, if_true]
      cases kept <;> rfl
    · rw [if_neg fun h => hslot h.2.2]
      simp only [Option.map_eq_map, Option.map_some, hslot, if_false]

/-- A slot holds the latest of the observations that fall in it. -/
theorem getElem?_slotted (hi : i < slots) :
    (slotted instant slots since until' observations)[i]? =
      some (latest instant (observations.filter (InSlot instant slots since until' i))) := by
  induction observations using List.reverseRecOn with
  | nil => simp [slotted, latest, hi]
  | append_singleton observations o ih =>
      rw [slotted, List.foldl_append, List.foldl_cons, List.foldl_nil, ← slotted, getElem?_place ih,
        List.filter_append, List.filter_singleton]
      by_cases hin : InSlot instant slots since until' i o
      · rw [if_pos hin, ← latest_concat]
        simp [hin]
      · rw [if_neg hin]
        simp [hin]

/-! ## The reduction -/

/-- What a reduction to slots keeps of its observations. -/
structure KeepsLatest (instant : α → Nat) (slots since until' : Nat) (observations : List α)
    (held : List (Option α)) : Prop where
  length : held.length = slots
  /-- An observation inside the span falls in one slot. -/
  one : ∀ o ∈ observations, since ≤ instant o → instant o ≤ until' →
    ∃! i, i < slots ∧ InSlot instant slots since until' i o
  /-- Later observations fall in later slots. -/
  mono : ∀ a ∈ observations, ∀ b ∈ observations, ∀ i j, InSlot instant slots since until' i a →
    InSlot instant slots since until' j b → instant a ≤ instant b → i ≤ j
  gap : ∀ i < slots, held[i]? = some none ↔
    ∀ o ∈ observations, ¬ InSlot instant slots since until' i o
  latest : ∀ i < slots, ∀ o, held[i]? = some (some o) ↔
    o ∈ observations ∧ InSlot instant slots since until' i o ∧
      ∀ a ∈ observations, InSlot instant slots since until' i a → instant a ≤ instant o
  observed : 1 ≤ held.countP Option.isSome ↔ ∃ o ∈ observations, since ≤ instant o ∧ instant o ≤ until'

theorem slotted_keepsLatest (hslots : 0 < slots) (hspan : (until' - since) * slots < 2 ^ 64)
    (hnd : (observations.map instant).Nodup) :
    KeepsLatest instant slots since until' observations
      (slotted instant slots since until' observations) where
  length := length_slotted instant slots since until' observations
  one := by
    intro o _ hlow hhigh
    exact ⟨_, ⟨slotOf_lt hslots, hlow, hhigh, rfl⟩, fun j hj => hj.2.2.2.symm⟩
  mono := by
    rintro a - b - i j ⟨_, _, rfl⟩ ⟨_, hb, rfl⟩ hle
    exact slotOf_mono hspan (Nat.sub_le_sub_right hle since) (Nat.sub_le_sub_right hb since)
  gap := by
    intro i hi
    rw [getElem?_slotted hi, Option.some_inj, latest_eq_none, List.filter_eq_nil_iff]
    simp only [decide_eq_true_eq]
  latest := by
    intro i hi o
    have hnd' := hnd.sublist ((List.filter_sublist (p := fun o =>
      decide (InSlot instant slots since until' i o))).map instant)
    rw [getElem?_slotted hi, Option.some_inj, latest_eq_some hnd']
    simp only [List.mem_filter, decide_eq_true_eq, and_imp, and_assoc]
  observed := by
    rw [Nat.one_le_iff_ne_zero, ← Nat.pos_iff_ne_zero, List.countP_pos_iff]
    constructor
    · rintro ⟨held, hmem, hsome⟩
      obtain ⟨o, rfl⟩ := Option.isSome_iff_exists.mp hsome
      obtain ⟨i, hi⟩ := List.mem_iff_getElem?.mp hmem
      have hlt : i < slots := by simpa using (List.getElem?_eq_some_iff.mp hi).1
      rw [getElem?_slotted hlt, Option.some_inj] at hi
      obtain ⟨ho, hin⟩ := List.mem_filter.mp (latest_spec hi).1
      exact ⟨o, ho, (decide_eq_true_eq.mp hin).1, (decide_eq_true_eq.mp hin).2.1⟩
    · rintro ⟨o, ho, hlow, hhigh⟩
      have hslot : (slotted instant slots since until' observations)[slotOf slots (until' - since)
          (instant o - since)]? = some (latest instant (observations.filter (InSlot instant slots since
            until' (slotOf slots (until' - since) (instant o - since))))) :=
        getElem?_slotted (slotOf_lt hslots)
      refine ⟨_, List.mem_of_getElem? hslot, ?_⟩
      rw [Option.isSome_iff_ne_none, Ne, latest_eq_none]
      exact List.ne_nil_of_mem (List.mem_filter.mpr ⟨ho, decide_eq_true ⟨hlow, hhigh, rfl⟩⟩)

theorem slotted_filter : slotted instant slots since until'
      (observations.filter fun o => since ≤ instant o ∧ instant o ≤ until') =
    slotted instant slots since until' observations := by
  refine List.ext_getElem? fun i => ?_
  rcases Nat.lt_or_ge i slots with hi | hi
  · rw [getElem?_slotted hi, getElem?_slotted hi, List.filter_filter]
    congr 2
    refine List.filter_congr fun o _ => ?_
    rw [← Bool.decide_and]
    exact decide_eq_decide.mpr ⟨fun h => h.1, fun h => ⟨h, h.1, h.2.1⟩⟩
  · rw [List.getElem?_eq_none (by simpa using hi), List.getElem?_eq_none (by simpa using hi)]

theorem slotted_perm {l : List α} (hnd : (observations.map instant).Nodup) (h : l.Perm observations) :
    slotted instant slots since until' l = slotted instant slots since until' observations := by
  refine List.ext_getElem? fun i => ?_
  rcases Nat.lt_or_ge i slots with hi | hi
  · rw [getElem?_slotted hi, getElem?_slotted hi, latest_perm _ (h.filter _)]
    exact hnd.sublist (List.filter_sublist.map instant)
  · rw [List.getElem?_eq_none (by simpa using hi), List.getElem?_eq_none (by simpa using hi)]

end Slotted

/-! ## Sparklines and charts -/

/-- A sparkline holds the price of the latest quote of each slot. -/
structure Spark.Keeps (quotes : List (Millis × Copper)) (since until' : Millis) : Prop where
  slots : ∃ held, KeepsLatest Prod.fst sparkSlots since until' quotes held ∧
    (Spark.over quotes since until').slots = held.map (Option.map Prod.snd)
  ignored : Spark.over (quotes.filter fun o => since ≤ o.1 ∧ o.1 ≤ until') since until' =
    Spark.over quotes since until'
  unordered : ∀ l : List (Millis × Copper), l.Perm quotes →
    Spark.over l since until' = Spark.over quotes since until'
  observed : 1 ≤ (Spark.over quotes since until').slots.countP Option.isSome ↔
    ∃ o ∈ quotes, since ≤ o.1 ∧ o.1 ≤ until'

/-- The point of a slot shows its observation at the instant of the slot. -/
def ChartPoint.Shows (p : ChartPoint) (slot : Option Observation) : Prop :=
  p.observed = slot.isSome ∧
    ∀ o, slot = some o → p.price = o.price ∧ p.quantity = o.quantity ∧ p.listings = o.listings

/-- A chart shows the latest observation of each slot. -/
structure ChartSeries.Keeps (F : Floating) (observations : List Observation) (since until' : Millis) :
    Prop where
  slots : ∃ held, KeepsLatest Observation.at' resolution since until' observations held ∧
    List.Forall₂ ChartPoint.Shows (ChartSeries.over F observations since until').points held
  ignored : ChartSeries.over F (observations.filter fun o => since ≤ o.at' ∧ o.at' ≤ until') since until' =
    ChartSeries.over F observations since until'
  unordered : ∀ l : List Observation, l.Perm observations →
    ChartSeries.over F l since until' = ChartSeries.over F observations since until'
  instants : (ChartSeries.over F observations since until').points.Pairwise fun p q => p.at' ≤ q.at'
  first : (ChartSeries.over F observations since until').points.head?.map ChartPoint.at' = some since
  observed : 1 ≤ (ChartSeries.over F observations since until').observed ↔
    ∃ o ∈ observations, since ≤ o.at' ∧ o.at' ≤ until'

section Charts

variable {F : Floating} {quotes : List (Millis × Copper)} {observations : List Observation}
  {since until' : Nat}

theorem Spark.over_eq (h : since < until') (quotes : List (Millis × Copper)) :
    Spark.over quotes since until' =
      ⟨(slotted Prod.fst sparkSlots since until' quotes).map (Option.map Prod.snd)⟩ :=
  if_neg (Nat.sub_ne_zero_of_lt h)

theorem ChartSeries.over_eq (h : since < until') (observations : List Observation) :
    ChartSeries.over F observations since until' =
      ⟨since, until', (slotted Observation.at' resolution since until' observations).mapIdx
        (ChartSeries.point F since (until' - since)
          (slotted Observation.at' resolution since until' observations))⟩ :=
  if_neg (Nat.sub_ne_zero_of_lt h)

theorem Spark.keeps (h : since < until') (hspan : (until' - since) * sparkSlots < 2 ^ 64)
    (hnd : (quotes.map Prod.fst).Nodup) : Spark.Keeps quotes since until' := by
  have hkeeps := slotted_keepsLatest (by decide) hspan hnd
  refine ⟨⟨_, hkeeps, by rw [Spark.over_eq h]⟩, ?_, fun l hl => ?_, ?_⟩
  · rw [Spark.over_eq h, Spark.over_eq h, slotted_filter]
  · rw [Spark.over_eq h, Spark.over_eq h, slotted_perm hnd hl]
  · rw [Spark.over_eq h, ← hkeeps.observed, List.countP_map]
    simp only [Function.comp_def, Option.isSome_map]

theorem point_at' (F : Floating) (since span : Nat) (slots : List (Option Observation)) (i : Nat)
    (slot : Option Observation) : (ChartSeries.point F since span slots i slot).at' =
      since + span * i % 2 ^ 64 / resolution := by
  cases slot <;> rfl

theorem point_shows (F : Floating) (since span : Nat) (slots : List (Option Observation)) (i : Nat)
    (slot : Option Observation) : (ChartSeries.point F since span slots i slot).Shows slot := by
  cases slot with
  | none => exact ⟨rfl, fun o ho => by cases ho⟩
  | some a => exact ⟨rfl, fun o ho => by cases ho; exact ⟨rfl, rfl, rfl⟩⟩

theorem points_show (F : Floating) (since span : Nat) (slots : List (Option Observation)) :
    List.Forall₂ ChartPoint.Shows (slots.mapIdx (ChartSeries.point F since span slots)) slots := by
  refine List.forall₂_iff_get.mpr ⟨List.length_mapIdx, fun i h₁ h₂ => ?_⟩
  simp only [List.get_eq_getElem, List.getElem_mapIdx]
  exact point_shows F since span slots i _

theorem countP_observed {points : List ChartPoint} {slots : List (Option Observation)}
    (h : List.Forall₂ ChartPoint.Shows points slots) :
    points.countP ChartPoint.observed = slots.countP Option.isSome := by
  induction h with
  | nil => rfl
  | cons hp _ ih => rw [List.countP_cons, List.countP_cons, ih, hp.1]

theorem instants_mono {span i j : Nat} (hspan : span * resolution < 2 ^ 64) (hij : i ≤ j)
    (hj : j < resolution) (since : Nat) :
    since + span * i % 2 ^ 64 / resolution ≤ since + span * j % 2 ^ 64 / resolution := by
  have hle : span * i ≤ span * j := Nat.mul_le_mul_left span hij
  have hlt : span * j < 2 ^ 64 := Nat.lt_of_le_of_lt (Nat.mul_le_mul_left span hj.le) hspan
  rw [Nat.mod_eq_of_lt (hle.trans_lt hlt), Nat.mod_eq_of_lt hlt]
  exact Nat.add_le_add_left (Nat.div_le_div_right hle) since

theorem ChartSeries.keeps (h : since < until') (hspan : (until' - since) * resolution < 2 ^ 64)
    (hnd : (observations.map Observation.at').Nodup) : ChartSeries.Keeps F observations since until' := by
  have hkeeps := slotted_keepsLatest (by decide) hspan hnd
  have hshow := points_show F since (until' - since)
    (slotted Observation.at' resolution since until' observations)
  refine ⟨⟨_, hkeeps, by rwa [ChartSeries.over_eq h]⟩, ?_, fun l hl => ?_, ?_, ?_, ?_⟩
  · rw [ChartSeries.over_eq h, ChartSeries.over_eq h, slotted_filter]
  · rw [ChartSeries.over_eq h, ChartSeries.over_eq h, slotted_perm hnd hl]
  · rw [ChartSeries.over_eq h, List.pairwise_iff_getElem]
    intro i j hi hj hij
    have hlt : j < resolution := by simpa using hj
    simp only [List.getElem_mapIdx, point_at']
    exact instants_mono hspan hij.le hlt since
  · have hpos : 0 < (slotted Observation.at' resolution since until' observations).length := by
      rw [hkeeps.length]
      decide
    rw [ChartSeries.over_eq h, List.head?_eq_getElem?]
    simp only [List.getElem?_mapIdx, List.getElem?_eq_getElem hpos, Option.map_some, point_at',
      Nat.mul_zero, Nat.zero_mod, Nat.zero_div, Nat.add_zero]
  · rw [ChartSeries.observed, ChartSeries.over_eq h, countP_observed hshow]
    exact hkeeps.observed

/-- Both reductions keep the latest observation of each slot and nothing else. -/
theorem reductions_keep_latest (F : Floating) (since until' : Nat) (h : since < until') :
    (∀ quotes : List (Millis × Copper), (until' - since) * sparkSlots < 2 ^ 64 →
      (quotes.map Prod.fst).Nodup → Spark.Keeps quotes since until') ∧
    ∀ observations : List Observation, (until' - since) * resolution < 2 ^ 64 →
      (observations.map Observation.at').Nodup → ChartSeries.Keeps F observations since until' :=
  ⟨fun _ hspan hnd => Spark.keeps h hspan hnd, fun _ hspan hnd => ChartSeries.keeps h hspan hnd⟩

/-- Over a day, with a quote on its last instant. -/
theorem day_keeps_latest : Spark.Keeps [(dayMs, 7), (3, 5)] 0 dayMs :=
  (reductions_keep_latest ⟨fun prices _ => prices.headD 0, fun _ _ => none⟩ 0 dayMs (by decide)).1 _
    (by decide) (by decide)

end Charts

end Gavel.Market
