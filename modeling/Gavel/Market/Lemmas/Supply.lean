import Gavel.Lib.Quantile
import Gavel.Market.Collector
import Gavel.Market.Lemmas.Ladders

/-!
# Supply at or below a price

The ladder of a list of listings has at or below every price the units that the listings have there,
and its percentiles are the least prices with enough of them.
-/

namespace Gavel.Market

open Quantile (upto walk Reaches)

variable {listings : List Listing} {u entries : List (Nat × Nat)} {p q price target : Nat} {l : Ladder}

/-- The price of a listing and its units. -/
def Listing.entry (l : Listing) : Nat × Nat := (l.unitPrice, l.quantity)

/-- The listings that offer something. -/
def stocked (listings : List Listing) : List Listing := listings.filter fun l => l.quantity ≠ 0

theorem mem_stocked {l : Listing} : l ∈ stocked listings ↔ l ∈ listings ∧ l.quantity ≠ 0 := by
  simp [stocked]

theorem upto_stocked (listings : List Listing) (p : Nat) :
    upto ((stocked listings).map Listing.entry) p = upto (listings.map Listing.entry) p := by
  induction listings with
  | nil => rfl
  | cons l listings ih =>
      by_cases h : l.quantity = 0
      · have hdrop : stocked (l :: listings) = stocked listings := by simp [stocked, h]
        rw [hdrop, ih, List.map_cons, Quantile.upto_cons]
        simp [Listing.entry, h]
      · have hkeep : stocked (l :: listings) = l :: stocked listings := by simp [stocked, h]
        rw [hkeep, List.map_cons, List.map_cons, Quantile.upto_cons, Quantile.upto_cons, ih]

theorem sum_stocked (listings : List Listing) :
    ((stocked listings).map Listing.quantity).sum = (listings.map Listing.quantity).sum := by
  induction listings with
  | nil => rfl
  | cons l listings ih =>
      by_cases h : l.quantity = 0
      · have hdrop : stocked (l :: listings) = stocked listings := by simp [stocked, h]
        simp [hdrop, ih, h]
      · have hkeep : stocked (l :: listings) = l :: stocked listings := by simp [stocked, h]
        simp [hkeep, ih]

namespace Ladder

/-! ## Pooled units -/

theorem upto_addAt : upto (addAt p q u) price = upto u price + if p ≤ price then q else 0 := by
  induction u with
  | nil => simp [addAt, Assoc.alter, Quantile.upto_cons]
  | cons e u ih =>
      obtain ⟨k, b⟩ := e
      simp only [addAt] at ih
      simp only [addAt, Assoc.alter]
      split
      · simp only [Quantile.upto_cons, Option.getD_none, Nat.zero_add]
        omega
      · split
        · rename_i heq
          simp only [Quantile.upto_cons, heq, Option.getD_some]
          split <;> omega
        · simp only [Quantile.upto_cons, ih]
          omega

theorem upto_pooled (entries : List (Nat × Nat)) (price : Nat) :
    upto (pooled entries) price = upto entries price := by
  induction entries using List.reverseRecOn with
  | nil => rfl
  | append_singleton entries e ih =>
      have hsplit : upto (entries ++ [e]) price = upto entries price + upto [e] price := by
        simp [upto]
      rw [pooled_concat, upto_addAt, ih, hsplit, Quantile.upto_cons, Quantile.upto_nil, Nat.add_zero]

theorem of_stocked (listings : List Listing) :
    Ladder.of listings = ofUnits (pooled ((stocked listings).map Listing.entry)) := by
  have hskip : Ladder.of listings = Ladder.of (stocked listings) := by
    simp only [Ladder.of, stocked]
    rw [List.foldl_filter]
    congr 1
    apply List.foldl_ext
    intro u l _
    by_cases h : l.quantity = 0 <;> simp [h]
  rw [hskip, of_eq fun l hl => (mem_stocked.mp hl).2]
  rfl

theorem units_of (listings : List Listing) :
    (Ladder.of listings).units = pooled ((stocked listings).map Listing.entry) := by
  rw [of_stocked, units_ofUnits]

theorem sorted_of (listings : List Listing) : Assoc.Sorted (Ladder.of listings).units := by
  rw [units_of]
  exact pooled_sorted _

theorem total_of_listings (listings : List Listing) :
    (Ladder.of listings).total = (listings.map Listing.quantity).sum := by
  rw [of_stocked, total_ofUnits, sum_pooled, List.map_map, ← sum_stocked]
  rfl

/-- A ladder has at or below a price what its listings have. -/
theorem upto_of (listings : List Listing) (price : Nat) :
    upto (Ladder.of listings).units price = upto (listings.map Listing.entry) price := by
  rw [units_of, upto_pooled, upto_stocked]

theorem cheapest_of (listings : List Listing) :
    (Ladder.of listings).cheapest = ((stocked listings).map Listing.unitPrice).min? := by
  rw [cheapest_eq, units_of, head_pooled, List.map_map]
  rfl

/-- The prices of a ladder are those of the listings that offer something. -/
theorem mem_keys_of : p ∈ (Ladder.of listings).units.map Prod.fst ↔
    p ∈ (stocked listings).map Listing.unitPrice := by
  rw [units_of, mem_keys_pooled, List.map_map]
  rfl

theorem units_pos (h : (p, q) ∈ (Ladder.of listings).units) : 0 < q := by
  rw [units_of] at h
  refine pooled_pos ?_ (p, q) h
  intro e he
  obtain ⟨l, hl, rfl⟩ := List.mem_map.mp he
  exact Nat.pos_of_ne_zero (mem_stocked.mp hl).2

theorem units_of_eq_nil : (Ladder.of listings).units = [] ↔ stocked listings = [] := by
  rw [← List.map_eq_nil_iff (f := Prod.fst), ← List.map_eq_nil_iff (f := Listing.unitPrice)]
  simp only [List.eq_nil_iff_forall_not_mem, mem_keys_of]

theorem total_pos (h : (Ladder.of listings).units ≠ []) : 0 < (Ladder.of listings).total := by
  obtain ⟨e, rest, hu⟩ := List.exists_cons_of_ne_nil h
  have hpos : 0 < e.2 := units_pos (by rw [hu]; exact List.mem_cons_self)
  rw [total_of, hu, List.map_cons, List.sum_cons]
  omega

/-! ## Searching the running sums -/

theorem find_stepsFrom (target c : Nat) (u : List (Nat × Nat)) :
    ((stepsFrom c u).find? (target ≤ ·.cumulative)).map Step.price = walk target c u := by
  induction u generalizing c with
  | nil => rfl
  | cons e u ih =>
      rw [stepsFrom, walk, List.find?_cons]
      by_cases h : target ≤ c + e.2
      · simp [h]
      · simp [h, ih]

theorem takeWhile_stepsFrom (c : Nat) (hu : Assoc.Sorted u) (price : Nat) :
    (((stepsFrom c u).takeWhile (·.price ≤ price)).getLast?.map Step.cumulative).getD c =
      c + upto u price := by
  induction u generalizing c with
  | nil => rfl
  | cons e u ih =>
      obtain ⟨hlt, hu⟩ := List.pairwise_cons.mp hu
      by_cases h : e.1 ≤ price
      · have hrest := ih (c + e.2) hu
        rw [Quantile.upto_cons_le h, ← Nat.add_assoc, ← hrest]
        simp only [stepsFrom, List.takeWhile_cons, h, decide_true, if_true, List.getLast?_cons,
          Option.map_some, Option.getD_some]
        cases ((stepsFrom (c + e.2) u).takeWhile (·.price ≤ price)).getLast? <;> rfl
      · have hzero : upto (e :: u) price = 0 := by
          apply Quantile.upto_eq_zero
          intro a ha
          rcases List.mem_cons.mp ha with rfl | ha
          · exact Nat.lt_of_not_le h
          · exact Nat.lt_trans (Nat.lt_of_not_le h) (hlt a ha)
        simp [stepsFrom, h, hzero]

theorem quantityUpto_of (listings : List Listing) (price : Nat) :
    (Ladder.of listings).quantityUpto price = upto (Ladder.of listings).units price := by
  have hread := takeWhile_stepsFrom 0 (sorted_of listings) price
  rw [Nat.zero_add] at hread
  rw [← hread, quantityUpto, units_of, of_stocked]
  rfl

theorem units_ne_nil (h : l.isSparse = false) : l.units ≠ [] := by
  intro hnil
  have hsteps : l.steps = [] := by simpa [units] using hnil
  simp [isSparse, hsteps, sparseSteps] at h

/-- How many units a share of the supply is, at least one of them. -/
def sought (total percent : Nat) : Nat := max ((total * percent + 99) / 100) 1

theorem sought_le {total percent : Nat} (h : percent ≤ 100) (hpos : 0 < total) :
    sought total percent ≤ total := by
  have hmul : total * percent ≤ total * 100 := Nat.mul_le_mul_left _ h
  simp only [sought]
  omega

theorem sought_eq {total percent : Nat} (h : percent ≤ 100) (hfit : total * 100 ≤ maxU64) :
    max ((total * percent % 2 ^ 64 + 99) / 100) 1 = sought total percent := by
  have hmul : total * percent ≤ total * 100 := Nat.mul_le_mul_left _ h
  have hlt : total * percent < 2 ^ 64 := by
    simp only [maxU64] at hfit
    omega
  rw [Nat.mod_eq_of_lt hlt, sought]

/-- A percentile of the supply is the least price with enough of it at or below. -/
theorem supplyPercentile_of {percent : Nat} (hsparse : (Ladder.of listings).isSparse = false)
    (hpercent : percent ≤ 100) (hfit : (Ladder.of listings).total * 100 ≤ maxU64) :
    ∃ price, (Ladder.of listings).supplyPercentile percent = some price ∧
      Reaches (Ladder.of listings).units (sought (Ladder.of listings).total percent) price := by
  have hpos := total_pos (units_ne_nil hsparse)
  have htotal : (Ladder.of listings).total = Quantile.total (Ladder.of listings).units := total_of listings
  have hle := sought_le hpercent hpos
  have hone : 0 < sought (Ladder.of listings).total percent := by simp [sought]
  obtain ⟨price, hwalk⟩ : ∃ price,
      walk (sought (Ladder.of listings).total percent) 0 (Ladder.of listings).units = some price := by
    apply Quantile.walk_isSome _ hone
    omega
  have hfind : ((Ladder.of listings).steps.find?
      (sought (Ladder.of listings).total percent ≤ ·.cumulative)).map Step.price = some price := by
    rw [← hwalk, ← find_stepsFrom, units_of, of_stocked]
    rfl
  obtain ⟨step, hstep, rfl⟩ := Option.map_eq_some_iff.mp hfind
  refine ⟨step.price, ?_, Quantile.walk_reaches ((sorted_of listings).imp Nat.le_of_lt) hone hwalk⟩
  simp only [supplyPercentile, hsparse, Nat.ne_of_gt hpos, decide_false, Bool.or_false,
    Bool.false_eq_true, if_false, sought_eq hpercent hfit, hstep]

end Ladder

end Gavel.Market
