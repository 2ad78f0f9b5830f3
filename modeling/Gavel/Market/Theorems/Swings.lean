import Gavel.Lib.Extremes
import Gavel.Market.Correlate

/-!
# The swings of a path

One pass with a running peak and a running trough finds the worst fall and the best rise of all ordered
pairs of prices: a fall is no smaller from a higher start, and a rise no smaller from a lower one.
-/

namespace Gavel.Market

open Gavel.Extremes (steps isGreatest_steps sublist_of_mem_steps)

/-! ## Falls and rises -/

/-- A fall as a percentage of where it starts. -/
def fallOf (p q : Nat) : Nat := (p - q) * 100 / p

/-- A rise as a percentage of where it starts. -/
def riseOf (p q : Nat) : Nat := (q - p) * 100 / p

/-- The falls between a positive price and a later, lower, positive one. -/
def falls (prices : List Nat) : Set Nat :=
  {n | ∃ p q, [p, q].Sublist prices ∧ 0 < q ∧ q < p ∧ n = fallOf p q}

/-- The rises between a positive price and a later, higher one. -/
def rises (prices : List Nat) : Set Nat :=
  {n | ∃ p q, [p, q].Sublist prices ∧ 0 < p ∧ p < q ∧ n = riseOf p q}

section Percentages

variable {p q x t : Nat}

theorem fallOf_le (p q : Nat) : fallOf p q ≤ 100 := by
  rw [fallOf]
  rcases Nat.eq_zero_or_pos p with rfl | hp
  · simp
  · refine (Nat.div_le_iff_le_mul_add_pred hp).mpr ?_
    have := Nat.mul_le_mul_right 100 (Nat.sub_le p q)
    omega

theorem fallOf_mono (hq : q < x) (hx : x ≤ t) : fallOf x q ≤ fallOf t q := by
  have hle := fallOf_le x q
  unfold fallOf at *
  rw [Nat.le_div_iff_mul_le (by omega)]
  have hfloor := Nat.div_mul_le_self ((x - q) * 100) x
  have hrest := Nat.mul_le_mul hle (Nat.le_refl (t - x))
  calc (x - q) * 100 / x * t
    _ = (x - q) * 100 / x * x + (x - q) * 100 / x * (t - x) := by rw [← Nat.mul_add]; congr 1; omega
    _ ≤ (x - q) * 100 + 100 * (t - x) := Nat.add_le_add hfloor hrest
    _ = (t - q) * 100 := by omega

theorem riseOf_anti (ht : 0 < t) (hx : t ≤ x) : riseOf x q ≤ riseOf t q :=
  Nat.div_le_div (Nat.mul_le_mul_right 100 (Nat.sub_le_sub_left hx q)) hx ht.ne'

end Percentages

/-! ## The pass -/

/-- Every price below the highest before it, after that highest one. -/
def fromPeak (peak : Option Nat) (prices : List Nat) : List (Nat × Nat) := @steps Natᵒᵈ _ peak prices

/-- Every price above the lowest before it, after that lowest one. -/
def fromTrough (trough : Option Nat) (prices : List Nat) : List (Nat × Nat) := steps trough prices

theorem fromPeak_cons (peak p : Nat) (l : List Nat) :
    fromPeak (some peak) (p :: l) =
      (if p < peak then [(peak, p)] else []) ++ fromPeak (some (max peak p)) l := rfl

namespace Swings

theorem foldl_follow (peak trough : Nat) (s : Swings) (l : List Nat) :
    (l.foldl follow (peak, trough, s)).2.2 =
      { drawdownPercent := ((fromPeak (some peak) l).map fun step =>
          fallOf step.1 step.2 % 2 ^ 32).foldl max s.drawdownPercent
        risePercent := ((fromTrough (some trough) l).map fun step =>
          riseOf step.1 step.2 % 2 ^ 32).foldl max s.risePercent } := by
  induction l generalizing peak trough s with
  | nil => rfl
  | cons p l ih =>
      rw [List.foldl_cons, follow, ih, fromPeak_cons]
      simp only [fromTrough, steps]
      split <;> split <;> rfl

/-- The positive prices of a path. -/
def positive (prices : List Nat) : List Nat := prices.filter (0 < ·)

theorem fromPeak_zero (l : List Nat) : fromPeak (some 0) l = fromPeak none l := by
  cases l with
  | nil => rfl
  | cons p l =>
      rw [fromPeak_cons, if_neg (Nat.not_lt_zero p), List.nil_append, Nat.zero_max]
      rfl

theorem fromTrough_top {l : List Nat} (h : ∀ p ∈ l, p ≤ maxU64) :
    fromTrough (some maxU64) l = fromTrough none l := by
  cases l with
  | nil => rfl
  | cons p l =>
      have hp := h p (by simp)
      simp only [fromTrough, steps, Nat.not_lt.mpr hp, if_false, List.nil_append, Nat.min_eq_right hp]

/-- What the pass finds, the narrowing of a fall left out. -/
theorem of_eq {prices : List Nat} (h : ∀ p ∈ prices, p ≤ maxU64) :
    Swings.of prices =
      { drawdownPercent :=
          ((fromPeak none (positive prices)).map fun step => fallOf step.1 step.2).foldl max 0
        risePercent :=
          ((fromTrough none (positive prices)).map fun step => riseOf step.1 step.2 % 2 ^ 32).foldl max 0 } := by
  have hnarrow : ∀ l : List (Nat × Nat), (l.map fun step => fallOf step.1 step.2 % 2 ^ 32) =
      l.map fun step => fallOf step.1 step.2 := by
    intro l
    refine List.map_congr_left fun step _ => Nat.mod_eq_of_lt ?_
    exact Nat.lt_of_le_of_lt (fallOf_le step.1 step.2) (by decide)
  have htop : ∀ p ∈ positive prices, p ≤ maxU64 := fun p hp => h p (List.mem_of_mem_filter hp)
  rw [Swings.of, ← positive, foldl_follow, fromPeak_zero, fromTrough_top htop, hnarrow]

/-- The steps of a path are ordered pairs of its positive prices. -/
theorem mem_fromTrough {prices : List Nat} {t q : Nat} (h : (t, q) ∈ fromTrough none (positive prices)) :
    [t, q].Sublist prices ∧ 0 < t ∧ t < q := by
  obtain ⟨hsub, hlt⟩ := sublist_of_mem_steps h
  have hmem : t ∈ positive prices := hsub.subset (by simp)
  exact ⟨hsub.trans List.filter_sublist, by simpa using List.of_mem_filter hmem, hlt⟩

/-- An ordered pair of positive prices is one of the positive prices. -/
theorem sublist_positive {prices : List Nat} {p q : Nat} (h : [p, q].Sublist prices) (hp : 0 < p)
    (hq : 0 < q) : [p, q].Sublist (positive prices) := by
  have hfilter := h.filter fun price => decide (0 < price)
  unfold positive
  simpa [hp, hq] using hfilter

theorem falls_eq (prices : List Nat) :
    falls prices = {n | ∃ p q : Natᵒᵈ, [p, q].Sublist (positive prices) ∧ p < q ∧ n = fallOf p q} := by
  ext n
  constructor
  · rintro ⟨p, q, hsub, hq, hlt, hn⟩
    exact ⟨p, q, sublist_positive hsub (hq.trans hlt) hq, hlt, hn⟩
  · rintro ⟨p, q, hsub, hlt, hn⟩
    have hq : q ∈ positive prices := hsub.subset (by simp)
    exact ⟨p, q, hsub.trans List.filter_sublist, by simpa using List.of_mem_filter hq, hlt, hn⟩

theorem isGreatest_drawdown {prices : List Nat} (h : ∀ p ∈ prices, p ≤ maxU64) :
    IsGreatest (insert 0 (falls prices)) (Swings.of prices).drawdownPercent := by
  rw [of_eq h, falls_eq]
  exact isGreatest_steps (α := Natᵒᵈ) (f := fallOf) fun t _ x q ht hlt => fallOf_mono hlt ht

/-- The best rise, before it is narrowed to its field. -/
def bestRise (prices : List Nat) : Nat :=
  ((fromTrough none (positive prices)).map fun step => riseOf step.1 step.2).foldl max 0

theorem isGreatest_bestRise (prices : List Nat) : IsGreatest (insert 0 (rises prices)) (bestRise prices) := by
  have hrises : rises prices =
      {n | ∃ p q, [p, q].Sublist (positive prices) ∧ p < q ∧ n = riseOf p q} := by
    ext n
    constructor
    · rintro ⟨p, q, hsub, hp, hlt, hn⟩
      exact ⟨p, q, sublist_positive hsub hp (hp.trans hlt), hlt, hn⟩
    · rintro ⟨p, q, hsub, hlt, hn⟩
      have hp : p ∈ positive prices := hsub.subset (by simp)
      exact ⟨p, q, hsub.trans List.filter_sublist, by simpa using List.of_mem_filter hp, hlt, hn⟩
  rw [hrises]
  refine isGreatest_steps fun t ht x q hx hlt => riseOf_anti ?_ hx
  simpa using List.of_mem_filter ht

theorem risePercent_eq {prices : List Nat} (h : ∀ p ∈ prices, p ≤ maxU64)
    (hfits : ∀ n ∈ rises prices, n < 2 ^ 32) : (Swings.of prices).risePercent = bestRise prices := by
  rw [of_eq h, bestRise]
  dsimp only
  congr 1
  refine List.map_congr_left fun step hstep => Nat.mod_eq_of_lt (hfits _ ?_)
  obtain ⟨hsub, hpos, hlt⟩ := mem_fromTrough hstep
  exact ⟨step.1, step.2, hsub, hpos, hlt, rfl⟩

/-- A path's swings are its worst fall and its best rise, prices of nothing left out. -/
structure OfPath (prices : List Nat) : Prop where
  drawdown : IsGreatest (insert 0 (falls prices)) (Swings.of prices).drawdownPercent
  rise : IsGreatest (insert 0 (rises prices)) (Swings.of prices).risePercent
  zeros : ∀ other : List Nat, positive other = positive prices → Swings.of other = Swings.of prices

/-- Over any path whose positive prices differ by a factor below 2 ^ 25. -/
theorem of_path (prices : List Nat) (h : ∀ p ∈ prices, p ≤ maxU64)
    (hfactor : ∀ p ∈ prices, ∀ q ∈ prices, 0 < p → q < 2 ^ 25 * p) : OfPath prices where
  drawdown := isGreatest_drawdown h
  rise := by
    rw [risePercent_eq h]
    · exact isGreatest_bestRise prices
    · rintro n ⟨p, q, hsub, hp, -, rfl⟩
      have hq := hfactor p (hsub.subset (by simp)) q (hsub.subset (by simp)) hp
      rw [riseOf, Nat.div_lt_iff_lt_mul hp]
      have := Nat.sub_le q p
      calc (q - p) * 100
        _ ≤ q * 100 := Nat.mul_le_mul_right 100 this
        _ < 2 ^ 25 * p * 100 := Nat.mul_lt_mul_of_pos_right hq (by decide)
        _ ≤ 2 ^ 32 * p := by omega
  zeros := by
    intro other hother
    rw [Swings.of, Swings.of, ← positive, ← positive, hother]

/-- The path an earlier version measured wrongly. -/
theorem falling_path : OfPath [100, 140, 0, 200, 180, 150] := of_path _ (by decide) (by decide)

end Swings

end Gavel.Market
