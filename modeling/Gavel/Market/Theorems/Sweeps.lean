import Gavel.Lib.Choices
import Gavel.Market.Lemmas.Supply

/-!
# What a sweep costs

A ladder has the units on offer at their prices, however the listings are grouped, and a sweep buys the
choice of them that costs the least.
-/

namespace Gavel.Market

open Choices (Choice copies)

variable {listings : List Listing} {l : Ladder} {u u' : List (Nat × Nat)} {c p q w w' : Nat}

/-- The price of every unit on offer. -/
def offered (listings : List Listing) : List Copper :=
  listings.flatMap fun l => List.replicate l.quantity l.unitPrice

/-- What is on offer, and what all of it costs, fit in 64 bits. -/
structure InRange (listings : List Listing) : Prop where
  quantity : (listings.map Listing.quantity).sum ≤ maxU64
  cost : (offered listings).sum ≤ maxU64

/-- Prices ascend, at each of them something is offered, and the cumulative units are running sums. -/
structure Ladder.WellFormed (l : Ladder) : Prop where
  ascending : l.steps.Pairwise fun s t => s.price < t.price
  positive : ∀ s ∈ l.steps, 0 < s.quantity
  running : ∀ i s, l.steps[i]? = some s →
    s.cumulative = ((l.steps.take (i + 1)).map Step.quantity).sum

/-- A sweep buys what it wants as far as there is any, and buys the cheapest choice. -/
structure Sweeps (listings : List Listing) (wanted : Nat) (fill : Fill) : Prop where
  filled : fill.filled = min wanted (listings.map Listing.quantity).sum
  complete : fill.complete = true ↔ fill.filled = wanted
  least : IsLeast {cost | ∃ chosen, Choice (offered listings) fill.filled chosen ∧ chosen.sum = cost}
    fill.totalCost
  dearest : 0 < fill.filled → ∀ chosen, Choice (offered listings) fill.filled chosen →
    chosen.sum = fill.totalCost → IsGreatest {price | price ∈ chosen} fill.clearingPrice
  average : 0 < fill.filled → ∃ cheapest ∈ (Ladder.of listings).cheapest,
    cheapest ≤ fill.averageUnit ∧ fill.averageUnit ≤ fill.clearingPrice

namespace Ladder

/-! ## A ladder is its units -/

theorem copies_addAt : (copies (addAt p q u)).Perm (List.replicate q p ++ copies u) := by
  induction u with
  | nil => simp [addAt, Assoc.alter]
  | cons e u ih =>
      obtain ⟨k, b⟩ := e
      simp only [addAt] at ih
      simp only [addAt, Assoc.alter]
      split
      · simp
      · split
        · rename_i heq
          subst heq
          rw [Choices.copies_cons, Choices.copies_cons, ← List.append_assoc,
            List.replicate_append_replicate, Option.getD_some, Nat.add_comm b q]
        · rw [Choices.copies_cons, Choices.copies_cons]
          exact (ih.append_left _).trans (List.perm_append_comm_assoc _ _ _)

theorem copies_pooled (entries : List (Nat × Nat)) : (copies (pooled entries)).Perm (copies entries) := by
  induction entries using List.reverseRecOn with
  | nil => exact List.Perm.refl _
  | append_singleton entries e ih =>
      rw [pooled_concat, Choices.copies_append]
      refine copies_addAt.trans ?_
      have hone : copies [e] = List.replicate e.2 e.1 := by simp
      rw [hone]
      exact List.perm_append_comm.trans (ih.append_right _)

theorem copies_stocked (listings : List Listing) :
    copies ((stocked listings).map Listing.entry) = offered listings := by
  induction listings with
  | nil => rfl
  | cons l listings ih =>
      by_cases h : l.quantity = 0
      · have hdrop : stocked (l :: listings) = stocked listings := by simp [stocked, h]
        rw [hdrop, ih]
        simp [offered, h]
      · have hkeep : stocked (l :: listings) = l :: stocked listings := by simp [stocked, h]
        rw [hkeep, List.map_cons, Choices.copies_cons, ih]
        rfl

theorem copies_of (listings : List Listing) : (copies (Ladder.of listings).units).Perm (offered listings) := by
  rw [units_of, ← copies_stocked]
  exact copies_pooled _

theorem mem_of_copies_perm (hu : Assoc.Sorted u) (hu' : Assoc.Sorted u') (hpos : ∀ e ∈ u, 0 < e.2)
    (h : (copies u).Perm (copies u')) (hmem : (p, q) ∈ u) : (p, q) ∈ u' := by
  have hcount := Choices.count_copies (hu.imp Nat.ne_of_lt) hmem
  have hp : p ∈ copies u' := by
    apply h.subset
    exact Choices.mem_copies.mpr ⟨(p, q), hmem, hpos _ hmem, rfl⟩
  obtain ⟨⟨_, q'⟩, hmem', -, rfl⟩ := Choices.mem_copies.mp hp
  have hcount' := Choices.count_copies (hu'.imp Nat.ne_of_lt) hmem'
  rw [h.count_eq, hcount'] at hcount
  obtain rfl : q' = q := hcount
  exact hmem'

/-- Positive amounts under ascending prices are told by their units. -/
theorem units_ext (hu : Assoc.Sorted u) (hu' : Assoc.Sorted u') (hpos : ∀ e ∈ u, 0 < e.2)
    (hpos' : ∀ e ∈ u', 0 < e.2) (h : (copies u).Perm (copies u')) : u = u' := by
  refine hu.ext hu' fun k => Option.ext fun b => ?_
  rw [← hu.mem_iff, ← hu'.mem_iff]
  exact ⟨mem_of_copies_perm hu hu' hpos h, mem_of_copies_perm hu' hu hpos' h.symm⟩

theorem ofUnits_of (listings : List Listing) : ofUnits (Ladder.of listings).units = Ladder.of listings := by
  rw [units_of, of_stocked]

theorem offered_flatten (groups : List (List Listing)) :
    offered groups.flatten = groups.flatMap offered := by
  induction groups with
  | nil => rfl
  | cons g groups ih => simp only [List.flatten_cons, List.flatMap_cons, ← ih, offered, List.flatMap_append]

/-- Merging the ladders of the parts of some listings is the ladder of the whole. -/
theorem merged_of {groups : List (List Listing)} (h : groups.flatten.Perm listings) :
    merged (groups.map Ladder.of) = Ladder.of listings := by
  have hunits : pooled ((groups.map Ladder.of).flatMap units) = (Ladder.of listings).units := by
    apply units_ext (pooled_sorted _) (sorted_of listings)
    · apply pooled_pos
      intro e he
      obtain ⟨l, hl, he⟩ := List.mem_flatMap.mp he
      obtain ⟨g, -, rfl⟩ := List.mem_map.mp hl
      exact units_pos he
    · exact fun e he => units_pos he
    · refine (copies_pooled _).trans ?_
      rw [List.flatMap_map, Choices.copies_flatMap]
      refine (List.Perm.flatMap_left groups fun g _ => copies_of g).trans ?_
      refine List.Perm.trans ?_ (copies_of listings).symm
      rw [← offered_flatten]
      exact h.flatMap_right _
  rw [merged_eq, hunits, ofUnits_of]

theorem stepsFrom_running {i : Nat} {s : Step} (h : (stepsFrom c u)[i]? = some s) :
    s.cumulative = c + (((stepsFrom c u).take (i + 1)).map Step.quantity).sum := by
  induction u generalizing c i with
  | nil => simp [stepsFrom] at h
  | cons e u ih =>
      cases i with
      | zero =>
          simp only [stepsFrom, List.getElem?_cons_zero, Option.some.injEq] at h
          subst h
          simp [stepsFrom]
      | succ i =>
          simp only [stepsFrom, List.getElem?_cons_succ] at h
          rw [ih h]
          simp only [stepsFrom, List.take_succ_cons, List.map_cons, List.sum_cons]
          omega

theorem wellFormed_of (listings : List Listing) : (Ladder.of listings).WellFormed := by
  refine ⟨?_, ?_, ?_⟩
  · have hsorted := sorted_of listings
    rwa [Assoc.Sorted, units, List.pairwise_map] at hsorted
  · intro s hs
    exact units_pos (List.mem_map.mpr ⟨s, hs, rfl⟩)
  · intro i s h
    rw [of_stocked, ofUnits] at h ⊢
    rw [stepsFrom_running h, Nat.zero_add]

/-! ## The walk -/

/-- A sweep takes the first units, pays for them, and ends at the price of the last one. -/
theorem foldl_take {steps : List Step} (hpos : ∀ s ∈ steps, 0 < s.quantity) (cost clearing : Nat)
    {filled : Nat} (h : filled ≤ w) :
    steps.foldl (take w) (filled, cost, clearing) =
      (min w (filled + (steps.map Step.quantity).sum),
        cost + ((copies (steps.map fun s => (s.price, s.quantity))).take (w - filled)).sum,
        ((copies (steps.map fun s => (s.price, s.quantity))).take (w - filled)).getLast?.getD
          clearing) := by
  induction steps generalizing filled cost clearing with
  | nil => simp [h]
  | cons s steps ih =>
      obtain ⟨hq, hpos⟩ := List.forall_mem_cons.mp hpos
      rw [List.foldl_cons, List.map_cons, List.sum_cons, List.map_cons, Choices.copies_cons]
      by_cases hfull : w ≤ filled
      · -- Nothing more is wanted.
        obtain rfl := Nat.le_antisymm h hfull
        rw [take, if_pos (Nat.le_refl _), ih hpos _ _ (Nat.le_refl _)]
        simp
      · rw [take, if_neg hfull]
        simp only
        rw [ih hpos _ _ (by omega)]
        have hleft : w - (filled + min s.quantity (w - filled)) = w - filled - s.quantity := by omega
        have hlen : (List.replicate s.quantity s.price).length = s.quantity := List.length_replicate
        rw [hleft, List.take_append, hlen, List.take_replicate, List.sum_append, List.sum_replicate_nat,
          List.getLast?_append, List.getLast?_replicate, Nat.min_comm (w - filled) s.quantity,
          if_neg (by omega)]
        refine Prod.ext ?_ (Prod.ext ?_ ?_)
        · simp only
          omega
        · exact Nat.add_assoc _ _ _
        · generalize copies (steps.map fun s => (s.price, s.quantity)) = rest
          cases (rest.take (w - filled - s.quantity)).getLast? <;> rfl

/-- The price of every unit of a ladder, cheapest first. -/
def unitPrices (l : Ladder) : List Copper := copies l.units

theorem length_unitPrices (l : Ladder) : l.unitPrices.length = (l.units.map Prod.snd).sum :=
  Choices.length_copies l.units

namespace WellFormed

variable (hl : l.WellFormed)
include hl

theorem sorted_units : Assoc.Sorted l.units := List.pairwise_map.mpr hl.ascending

theorem sorted_unitPrices : l.unitPrices.Pairwise (· ≤ ·) := Choices.pairwise_copies hl.sorted_units

theorem cheapest_le (hp : p ∈ l.unitPrices) : ∃ c ∈ l.cheapest, c ≤ p := by
  obtain ⟨e, he, -, rfl⟩ := Choices.mem_copies.mp hp
  have hmin := hl.sorted_units.head_min
  rw [← cheapest_eq] at hmin
  have hmem : e.1 ∈ l.units.map Prod.fst := List.mem_map_of_mem he
  cases hc : l.cheapest with
  | none =>
      rw [hc, eq_comm, List.min?_eq_none_iff] at hmin
      rw [hmin] at hmem
      cases hmem
  | some c =>
      rw [hc, eq_comm, List.min?_eq_some_iff] at hmin
      exact ⟨c, rfl, hmin.2 e.1 hmem⟩

theorem cheapest_getD_le (hp : p ∈ l.unitPrices) : l.cheapest.getD 0 ≤ p := by
  obtain ⟨c, hc, hle⟩ := hl.cheapest_le hp
  rw [hc]
  exact hle

theorem walk (w clearing : Nat) :
    l.steps.foldl (take w) (0, 0, clearing) =
      (min w l.unitPrices.length, (l.unitPrices.take w).sum,
        (l.unitPrices.take w).getLast?.getD clearing) := by
  rw [foldl_take hl.positive _ _ (Nat.zero_le w), length_unitPrices, units, List.map_map, Nat.sub_zero,
    Nat.zero_add, Nat.zero_add]
  rfl

theorem filled_fill (w : Nat) : (l.fill w).filled = min w l.unitPrices.length := by
  rw [fill, hl.walk]

theorem totalCost_fill (w : Nat) : (l.fill w).totalCost = min (l.unitPrices.take w).sum maxU64 := by
  rw [fill, hl.walk]

theorem clearingPrice_fill (w : Nat) : (l.fill w).clearingPrice =
    (l.unitPrices.take w).getLast?.getD (l.cheapest.getD 0) := by
  rw [fill, hl.walk]

theorem length_take_fill (w : Nat) : (l.unitPrices.take w).length = (l.fill w).filled := by
  rw [List.length_take, hl.filled_fill]

theorem averageUnit_fill (w : Nat) : (l.fill w).averageUnit =
    (l.unitPrices.take w).sum / (l.unitPrices.take w).length := by
  rw [hl.length_take_fill, hl.filled_fill, fill, hl.walk]
  simp only
  split
  · rename_i hzero
    rw [hzero, Nat.div_zero]
  · rfl

/-- The units bought are as many of the cheapest as are bought. -/
theorem take_fill (w : Nat) : l.unitPrices.take w = l.unitPrices.take (l.fill w).filled := by
  rw [List.take_eq_take_min, ← hl.filled_fill]

/-- A sweep that buys something ends at the dearest unit bought. -/
theorem isGreatest_clearingPrice (hpos : 0 < (l.fill w).filled) :
    IsGreatest {p | p ∈ l.unitPrices.take w} (l.fill w).clearingPrice := by
  apply OrderStatistics.isGreatest_getLast (hl.sorted_unitPrices.sublist (List.take_sublist w _))
  rw [hl.clearingPrice_fill]
  rw [← hl.length_take_fill] at hpos
  cases hlast : (l.unitPrices.take w).getLast? with
  | none => simp [List.getLast?_eq_none_iff.mp hlast] at hpos
  | some p => rfl

/-- The average lies between the first rung and the last one reached. -/
theorem averageUnit_between (hpos : 0 < (l.fill w).filled) :
    l.cheapest.getD 0 ≤ (l.fill w).averageUnit ∧ (l.fill w).averageUnit ≤ (l.fill w).clearingPrice := by
  have hlen := hpos
  rw [← hl.length_take_fill] at hlen
  rw [hl.averageUnit_fill]
  constructor
  · exact Choices.le_mean (fun p hp => hl.cheapest_getD_le (List.mem_of_mem_take hp)) hlen
  · exact Choices.mean_le fun p hp => (hl.isGreatest_clearingPrice hpos).2 hp

/-- Wanting more never buys less, nor for less, nor ends lower. -/
theorem fill_mono (h : w ≤ w') :
    (l.fill w).filled ≤ (l.fill w').filled ∧ (l.fill w).totalCost ≤ (l.fill w').totalCost ∧
      (l.fill w).clearingPrice ≤ (l.fill w').clearingPrice := by
  refine ⟨?_, ?_, ?_⟩
  · rw [hl.filled_fill, hl.filled_fill]
    exact min_le_min_right _ h
  · rw [hl.totalCost_fill, hl.totalCost_fill]
    apply min_le_min_right
    exact (List.take_sublist_take_left h).sum_le_sum fun _ _ => Nat.zero_le _
  · rw [hl.clearingPrice_fill, hl.clearingPrice_fill]
    exact Choices.getLast_take_mono hl.sorted_unitPrices (fun p hp => hl.cheapest_getD_le hp) h

end WellFormed

/-! ## The sweep of a ladder of listings -/

theorem totalCost_of_inRange (h : InRange listings) (w : Nat) :
    ((Ladder.of listings).fill w).totalCost = ((Ladder.of listings).unitPrices.take w).sum := by
  have hle : ((Ladder.of listings).unitPrices.take w).sum ≤ (Ladder.of listings).unitPrices.sum :=
    (List.take_sublist w _).sum_le_sum fun _ _ => Nat.zero_le _
  have hsum : (Ladder.of listings).unitPrices.sum = (offered listings).sum := (copies_of listings).sum_eq
  rw [(wellFormed_of listings).totalCost_fill, min_eq_left]
  exact hle.trans (hsum.trans_le h.cost)

theorem sweeps_of (h : InRange listings) (w : Nat) : Sweeps listings w ((Ladder.of listings).fill w) := by
  have hl := wellFormed_of listings
  have htotal : (Ladder.of listings).unitPrices.length = (listings.map Listing.quantity).sum := by
    rw [length_unitPrices, ← total_of, total_of_listings]
  refine ⟨?_, ?_, ?_, ?_, ?_⟩
  · rw [hl.filled_fill, htotal]
  · simp [fill]
  · rw [totalCost_of_inRange h, hl.take_fill]
    apply Choices.isLeast_sum_take hl.sorted_unitPrices (copies_of listings)
    rw [hl.filled_fill]
    exact Nat.min_le_right _ _
  · intro hpos chosen hchoice hsum
    have hperm : chosen.Perm ((Ladder.of listings).unitPrices.take w) := by
      rw [totalCost_of_inRange h, hl.take_fill] at hsum
      rw [hl.take_fill]
      exact hchoice.perm_take hl.sorted_unitPrices (copies_of listings) hsum.le
    simpa only [hperm.mem_iff] using hl.isGreatest_clearingPrice hpos
  · intro hpos
    have hbetween := hl.averageUnit_between hpos
    obtain ⟨c, hc, -⟩ := hl.cheapest_le (List.mem_of_mem_take (hl.isGreatest_clearingPrice hpos).1)
    rw [hc] at hbetween
    exact ⟨c, hc, hbetween⟩

end Ladder

/-- Sweeping a ladder is optimal: however the listings are pooled their ladder is the same, with ascending
prices, positive units and running sums, and a sweep of it buys the cheapest choice of units. -/
theorem sweep_optimal (h : InRange listings) :
    (Ladder.of listings).WellFormed ∧
      (∀ groups : List (List Listing), groups.flatten.Perm listings →
        Ladder.merged (groups.map Ladder.of) = Ladder.of listings) ∧
      (∀ wanted, Sweeps listings wanted ((Ladder.of listings).fill wanted)) ∧
      ∀ wanted wanted', wanted ≤ wanted' →
        ((Ladder.of listings).fill wanted).filled ≤ ((Ladder.of listings).fill wanted').filled ∧
        ((Ladder.of listings).fill wanted).totalCost ≤ ((Ladder.of listings).fill wanted').totalCost ∧
        ((Ladder.of listings).fill wanted).clearingPrice ≤
          ((Ladder.of listings).fill wanted').clearingPrice :=
  ⟨Ladder.wellFormed_of listings, fun _ => Ladder.merged_of, Ladder.sweeps_of h,
    fun _ _ => (Ladder.wellFormed_of listings).fill_mono⟩

/-- Three listings, two of them at one price. -/
theorem sweep_optimal_three :
    let listings : List Listing := [⟨1, 30, 2⟩, ⟨1, 10, 1⟩, ⟨1, 30, 4⟩]
    InRange listings ∧ Sweeps listings 3 ((Ladder.of listings).fill 3) :=
  have h : InRange [⟨1, 30, 2⟩, ⟨1, 10, 1⟩, ⟨1, 30, 4⟩] := ⟨by decide, by decide⟩
  ⟨h, (sweep_optimal h).2.2.1 3⟩

end Gavel.Market
