import Gavel.Market.Analysis
import Gavel.Market.Lemmas.Hours
import Gavel.Market.Lemmas.Selections
import Gavel.Market.Theorems.Sweeps
import Gavel.Market.Theorems.Swings

/-!
# Percentages in their fields

Six percentages are computed in 128 bits and stored in 32. What is stored is the true percentage, or the
greatest value of the field, exactly as long as the price behind it is not too many times the price it is
compared with.
-/

namespace Gavel.Market

open Gavel.Cluster (Millis)

/-! ## Fields of 32 bits -/

/-- The fields that percentages are stored in. -/
inductive Width where
  | u32 | i32
  deriving DecidableEq

namespace Width

/-- One more than the greatest value. -/
def limit : Width → Nat
  | .u32 => 2 ^ 32
  | .i32 => 2 ^ 31

def most (w : Width) : Int := w.limit - 1

def least : Width → Int
  | .u32 => 0
  | .i32 => -2 ^ 31

def narrow : Width → Int → Int
  | .u32, n => n % 2 ^ 32
  | .i32, n => asI32 n

variable {w : Width} {n : Int} {l : List Int}

theorem narrow_of_mem (hleast : w.least ≤ n) (hmost : n ≤ w.most) : w.narrow n = n := by
  cases w with
  | u32 => exact Int.emod_eq_of_lt hleast (by simp only [most, limit] at hmost; omega)
  | i32 =>
      simp only [most, limit, least] at hmost hleast
      exact Int.bmod_eq_of_le (by omega) (by omega)

theorem narrow_le_most (w : Width) (n : Int) : w.narrow n ≤ w.most := by
  cases w with
  | u32 =>
      simp only [narrow, most, limit]
      omega
  | i32 =>
      simp only [narrow, asI32, most, limit, Int.bmod_def]
      split <;> omega

theorem narrow_eq_most_iff : w.narrow n = w.most ↔ n % 2 ^ 32 = w.most := by
  cases w with
  | u32 => rfl
  | i32 =>
      simp only [narrow, asI32, most, limit, Int.bmod_def]
      split <;> omega

theorem most_nonneg (w : Width) : 0 ≤ w.most := by cases w <;> decide

/-- The greatest of narrowed numbers is the greatest number, as far as the field goes, exactly when all of
them fit or one of them is narrowed to the greatest value. -/
theorem max_narrow_iff (hl : ∀ n ∈ l, w.least ≤ n) :
    (l.map w.narrow).max?.getD 0 = min (l.max?.getD 0) w.most ↔
      (∀ n ∈ l, n ≤ w.most) ∨ ∃ n ∈ l, w.narrow n = w.most := by
  by_cases hall : ∀ n ∈ l, n ≤ w.most
  · have hkept : l.map w.narrow = l := by
      rw [List.map_congr_left fun n hn => narrow_of_mem (hl n hn) (hall n hn), List.map_id']
    refine iff_of_true ?_ (.inl hall)
    rw [hkept]
    symm
    apply min_eq_left
    cases hmax : l.max? with
    | none => exact w.most_nonneg
    | some m => exact hall m (List.max?_eq_some_iff.mp hmax).1
  · obtain ⟨n, hn, hbig⟩ : ∃ n ∈ l, w.most < n := by simpa using hall
    obtain ⟨m, hm⟩ : ∃ m, l.max? = some m := by
      cases hmax : l.max? with
      | none => simp [List.max?_eq_none_iff.mp hmax] at hn
      | some m => exact ⟨m, rfl⟩
    obtain ⟨m', hm'⟩ : ∃ m', (l.map w.narrow).max? = some m' := by
      cases hmax : (l.map w.narrow).max? with
      | none => simp [List.map_eq_nil_iff.mp (List.max?_eq_none_iff.mp hmax)] at hn
      | some m' => exact ⟨m', rfl⟩
    have hover : w.most ≤ m := hbig.le.trans ((List.max?_eq_some_iff.mp hm).2 n hn)
    obtain ⟨hmem, hle⟩ := List.max?_eq_some_iff.mp hm'
    rw [hm, hm', Option.getD_some, Option.getD_some, min_eq_right hover, or_iff_right hall]
    constructor
    · rintro rfl
      obtain ⟨i, hi, heq⟩ := List.mem_map.mp hmem
      exact ⟨i, hi, heq⟩
    · rintro ⟨i, hi, heq⟩
      obtain ⟨j, -, rfl⟩ := List.mem_map.mp hmem
      exact le_antisymm (w.narrow_le_most j) (heq ▸ hle _ (List.mem_map_of_mem hi))

end Width

/-! ## Changes in percent -/

/-- A difference of prices beside the price it is compared with. -/
structure Change where
  diff : Int
  base : Nat

namespace Change

/-- The exact percentage, nothing against a base of nothing. -/
def percent (c : Change) : Int := Int.tdiv (c.diff * 100) c.base

/-- A difference that the field has the sign for. -/
def Signed (w : Width) (c : Change) : Prop :=
  match w with
  | .u32 => 0 ≤ c.diff
  | .i32 => -(c.base : Int) ≤ c.diff

/-- The difference is less than so many percent of the base. -/
def Below (limit : Nat) (c : Change) : Prop := c.base = 0 ∨ c.diff * 100 < limit * c.base

/-- The difference is in the last percent below the limit, or above it by a multiple of 2 ^ 32 percent. -/
def Lands (limit : Nat) (c : Change) : Prop :=
  ∃ k : Nat, (k * 2 ^ 32 + limit - 1) * c.base ≤ c.diff * 100 ∧
    c.diff * 100 < (k * 2 ^ 32 + limit) * c.base

variable {w : Width} {c : Change}

theorem percent_of_base_zero (h : c.base = 0) : c.percent = 0 := by
  simp [percent, h]

theorem percent_of_nonneg (h : 0 ≤ c.diff) : c.percent = c.diff * 100 / c.base :=
  Int.tdiv_eq_ediv_of_nonneg (by omega)

theorem percent_of_neg (h : c.diff < 0) (hbase : -(c.base : Int) ≤ c.diff) :
    -100 ≤ c.percent ∧ c.percent ≤ 0 := by
  have hneg : c.percent = -(-c.diff * 100 / c.base) := by
    rw [← Int.tdiv_eq_ediv_of_nonneg (by omega), percent, Int.neg_mul, Int.neg_tdiv, Int.neg_neg]
  have hpos : (0 : Int) < c.base := by omega
  have hle : -c.diff * 100 / c.base ≤ 100 := by
    apply Int.lt_add_one_iff.mp
    rw [Int.ediv_lt_iff_lt_mul hpos]
    omega
  have hnonneg : 0 ≤ -c.diff * 100 / c.base := Int.ediv_nonneg (by omega) hpos.le
  omega

theorem least_le_percent (h : c.Signed w) : w.least ≤ c.percent := by
  by_cases hneg : c.diff < 0
  · cases w with
    | u32 => exact absurd h (by simpa [Signed] using hneg)
    | i32 =>
        have hbound := (percent_of_neg hneg h).1
        simp only [Width.least]
        omega
  · rw [percent_of_nonneg (by omega)]
    have hnonneg : 0 ≤ c.diff * 100 / c.base := Int.ediv_nonneg (by omega) (by omega)
    cases w with
    | u32 => exact hnonneg
    | i32 =>
        simp only [Width.least]
        omega

theorem percent_le_most_iff (h : c.Signed w) : c.percent ≤ w.most ↔ c.Below w.limit := by
  rcases Nat.eq_zero_or_pos c.base with hbase | hbase
  · rw [percent_of_base_zero hbase]
    exact iff_of_true w.most_nonneg (.inl hbase)
  · have hpos : (0 : Int) < c.base := by omega
    rw [Below, or_iff_right hbase.ne']
    by_cases hneg : c.diff < 0
    · have hle : c.percent ≤ w.most := by
        cases w with
        | u32 => exact absurd h (by simpa [Signed] using hneg)
        | i32 => exact (percent_of_neg hneg h).2.trans (Width.most_nonneg _)
      refine iff_of_true hle ?_
      have hright : (0 : Int) ≤ w.limit * c.base := Int.mul_nonneg (by omega) (by omega)
      omega
    · rw [percent_of_nonneg (by omega), Width.most, ← Int.ediv_lt_iff_lt_mul hpos]
      omega

theorem narrow_percent_iff (h : c.Signed w) : w.narrow c.percent = w.most ↔ c.Lands w.limit := by
  have hlimit : 2 ^ 31 ≤ w.limit := by cases w <;> decide
  rw [Width.narrow_eq_most_iff]
  by_cases hneg : c.diff < 0
  · -- A fall is no more than a hundred percent.
    refine iff_of_false ?_ ?_
    · cases w with
      | u32 => exact absurd h (by simpa [Signed] using hneg)
      | i32 =>
          have hbound := percent_of_neg hneg h
          simp only [Width.most, Width.limit]
          omega
    · rintro ⟨k, hlow, -⟩
      have hleft : (0 : Int) ≤ (k * 2 ^ 32 + w.limit - 1) * c.base := Int.mul_nonneg (by omega) (by omega)
      omega
  · rw [percent_of_nonneg (by omega)]
    rcases Nat.eq_zero_or_pos c.base with hbase | hbase
    · refine iff_of_false ?_ ?_
      · rw [hbase, Int.natCast_zero, Int.ediv_zero, Width.most]
        omega
      · rintro ⟨k, -, hhigh⟩
        simp only [hbase, Int.natCast_zero, Int.mul_zero] at hhigh
        omega
    · have hpos : (0 : Int) < c.base := by omega
      have hnonneg : 0 ≤ c.diff * 100 / c.base := Int.ediv_nonneg (by omega) hpos.le
      simp only [Lands, ← Int.le_ediv_iff_mul_le hpos, ← Int.ediv_lt_iff_lt_mul hpos]
      generalize c.diff * 100 / (c.base : Int) = n at hnonneg
      rw [Width.most]
      constructor
      · intro hmod
        refine ⟨(n / 2 ^ 32).toNat, ?_⟩
        omega
      · rintro ⟨k, hlow, hhigh⟩
        obtain rfl : n = k * 2 ^ 32 + (w.limit - 1) := by omega
        have hsmall : (w.limit : Int) - 1 < 2 ^ 32 := by cases w <;> decide
        omega

theorem percent_natCast (n base : Nat) : (Change.mk n base).percent = (n * 100 / base : Nat) := rfl

end Change

/-! ## The percentages that are stored -/

def mean (prices : List Nat) : Nat := prices.sum / prices.length

/-- The range of some prices beside their mean. -/
def rangeOf (prices : List Nat) : Change := ⟨(prices.max?.getD 0 - prices.min?.getD 0 : Nat), mean prices⟩

/-- A stored percentage, as what it is computed from. -/
inductive Percentage where
  | impact (l : Ladder) (hl : l.WellFormed) (wanted : Nat)
  | swing (observations : List (Millis × Copper))
  | volatility (samples : List PriceSample) (now : Millis)
  | trend (since to' : Copper)
  | fromMedian (F : Floating) (price : Copper) (b : Buckets) (coverage : Option Nat) (gates : Gates)
      (hplaced : (Position.of F price b coverage gates).fromMedianPercent.isSome)
  | rise (prices : List Nat) (hprices : ∀ p ∈ prices, p ≤ maxU64)

namespace Percentage

def width : Percentage → Width
  | trend .. | fromMedian .. => .i32
  | _ => .u32

/-- What the program stores. -/
def stored : Percentage → Int
  | impact l _ wanted => (l.fill wanted).impactPercent
  | swing observations => swingOf (Buckets.fromObservations observations)
  | volatility samples now => (analyse samples now).volatilityPercent
  | trend since to' => (Trend.between since to').percent
  | fromMedian F price b coverage gates h => (Position.of F price b coverage gates).fromMedianPercent.get h
  | rise prices _ => (Swings.of prices).risePercent

/-- The changes that the percentage is the greatest of: the average unit of a sweep over the cheapest, the
range of the prices, the move of a price, or every price over the lowest before it. -/
def changes : Percentage → List Change
  | impact l _ wanted =>
      [⟨(mean (l.unitPrices.take wanted) - l.cheapest.getD 0 : Nat), l.cheapest.getD 0⟩]
  | swing observations => [rangeOf (Buckets.fromObservations observations).prices]
  | volatility samples _ => [rangeOf (samples.map PriceSample.p05UnitPrice)]
  | trend since to' => [⟨to' - since, since⟩]
  | fromMedian F price b _ _ _ => [⟨price - (b.quantile F 50).getD 0, (b.quantile F 50).getD 0⟩]
  | rise prices _ => (fromTrough none (Swings.positive prices)).map fun step =>
      ⟨(step.2 - step.1 : Nat), step.1⟩

/-- The true percentage. -/
def exact (p : Percentage) : Int := (p.changes.map Change.percent).max?.getD 0

/-- Every change is below the limit of the field, or one happens to land on its greatest value. -/
def Fits (p : Percentage) : Prop :=
  (∀ c ∈ p.changes, c.Below p.width.limit) ∨ ∃ c ∈ p.changes, c.Lands p.width.limit

variable {p p' : Percentage}

theorem signed : ∀ c ∈ p.changes, c.Signed p.width := by
  cases p with
  | impact l hl wanted => simp [changes, width, Change.Signed]
  | swing observations => simp [changes, width, Change.Signed, rangeOf]
  | volatility samples now => simp [changes, width, Change.Signed, rangeOf]
  | trend since to' => simp [changes, width, Change.Signed]
  | fromMedian F price b coverage gates h => simp [changes, width, Change.Signed]
  | rise prices h =>
      intro c hc
      obtain ⟨step, -, rfl⟩ := List.mem_map.mp hc
      exact Int.natCast_nonneg _

theorem impact_eq {l : Ladder} (hl : l.WellFormed) (w : Nat) :
    ((l.fill w).impactPercent : Int) = Width.u32.narrow
      (Change.mk (mean (l.unitPrices.take w) - l.cheapest.getD 0 : Nat) (l.cheapest.getD 0)).percent := by
  have haverage : (l.fill w).averageUnit = mean (l.unitPrices.take w) := hl.averageUnit_fill w
  have himpact : (l.fill w).impactPercent =
      if l.cheapest.getD 0 = 0 ∨ (l.fill w).filled = 0 then 0
      else (Int.tdiv (((l.fill w).averageUnit - l.cheapest.getD 0 : Int) * 100) (l.cheapest.getD 0) %
        2 ^ 32).toNat := rfl
  rw [himpact, Change.percent_natCast, ← haverage]
  split
  · rename_i h
    rcases h with h | h
    · simp [h, Width.narrow]
    · have hzero : (l.fill w).averageUnit = 0 := by
        rw [hl.averageUnit_fill, hl.length_take_fill, h, Nat.div_zero]
      simp [hzero, Width.narrow]
  · rename_i h
    obtain ⟨-, hfilled⟩ := not_or.mp h
    have hle := (hl.averageUnit_between (Nat.pos_of_ne_zero hfilled)).1
    rw [← Int.ofNat_sub hle]
    exact Int.toNat_of_nonneg (Int.emod_nonneg _ (by decide))

theorem swing_eq (l : List Nat) :
    (swingOf ⟨sortBy id l⟩ : Int) = Width.u32.narrow (rangeOf (sortBy id l)).percent := by
  have hmin : (sortBy id l).head? = (sortBy id l).min? := by
    rw [head_sortBy]
    exact Assoc.min?_congr fun _ => mem_sortBy.symm
  have hmax : (sortBy id l).getLast? = (sortBy id l).max? := by
    rw [last_sortBy]
    exact Assoc.max?_congr fun _ => mem_sortBy.symm
  rw [swingOf, hmin, hmax, rangeOf, Change.percent_natCast]
  cases hlow : (sortBy id l).min? with
  | none => simp [List.min?_eq_none_iff.mp hlow, mean, Width.narrow]
  | some low =>
      cases hhigh : (sortBy id l).max? with
      | none => simp [List.max?_eq_none_iff.mp hhigh, mean, Width.narrow]
      | some high =>
          simp only [Option.getD_some, mean]
          split
          · rename_i hzero
            simp [hzero, Width.narrow]
          · rfl

theorem volatility_eq (samples : List PriceSample) (now : Millis) :
    ((analyse samples now).volatilityPercent : Int) =
      Width.u32.narrow (rangeOf (samples.map PriceSample.p05UnitPrice)).percent := by
  generalize hpoints : sortBy Point.at'
    (samples.map fun s => (⟨s.observedAt, s.p05UnitPrice, s.quantity⟩ : Point)) = points
  have hperm : (points.map Point.price).Perm (samples.map PriceSample.p05UnitPrice) := by
    have hsorted := (List.perm_insertionSort (fun a b : Point => a.at' ≤ b.at')
      (samples.map fun s => (⟨s.observedAt, s.p05UnitPrice, s.quantity⟩ : Point))).map Point.price
    rw [List.map_map] at hsorted
    exact hpoints ▸ hsorted
  have hmin : (minBy Point.price points).map Point.price = (samples.map PriceSample.p05UnitPrice).min? :=
    (map_minBy points).trans (Assoc.min?_congr fun _ => hperm.mem_iff)
  have hmax : (maxBy Point.price points).map Point.price = (samples.map PriceSample.p05UnitPrice).max? :=
    (map_maxBy points).trans (Assoc.max?_congr fun _ => hperm.mem_iff)
  have hmean : (points.map Point.price).sum / points.length =
      mean (samples.map PriceSample.p05UnitPrice) := by
    rw [mean, ← hperm.sum_eq, ← hperm.length_eq, List.length_map]
  rw [rangeOf, ← hmin, ← hmax, ← hmean, Change.percent_natCast, analyse]
  simp only [hpoints]
  split
  · rename_i hempty
    simp [List.isEmpty_iff.mp hempty, minBy, maxBy, Width.narrow]
  · rename_i hne
    obtain ⟨p, rest, rfl⟩ := List.exists_cons_of_ne_nil (by simpa using hne)
    obtain ⟨low, hlow⟩ : ∃ low, minBy Point.price (p :: rest) = some low := ⟨_, rfl⟩
    obtain ⟨high, hhigh⟩ : ∃ high, maxBy Point.price (p :: rest) = some high := ⟨_, rfl⟩
    simp only [hlow, hhigh, Option.map_some, Option.getD_some]
    split
    · rfl
    · rename_i hzero
      rw [Nat.eq_zero_of_not_pos hzero, Nat.div_zero]
      rfl

theorem cast_foldl_max (l : List Nat) (a : Nat) :
    ((l.foldl max a : Nat) : Int) = (l.map Nat.cast).foldl max (a : Int) := by
  induction l generalizing a with
  | nil => rfl
  | cons b l ih =>
      have hmax : ((max a b : Nat) : Int) = max (a : Int) b := by omega
      rw [List.foldl_cons, ih, List.map_cons, List.foldl_cons, hmax]

theorem rise_eq {prices : List Nat} (h : ∀ p ∈ prices, p ≤ maxU64) :
    ((Swings.of prices).risePercent : Int) =
      (((fromTrough none (Swings.positive prices)).map fun step =>
        ((riseOf step.1 step.2 % 2 ^ 32 : Nat) : Int)).max?).getD 0 := by
  rw [Swings.of_eq h]
  cases fromTrough none (Swings.positive prices) with
  | nil => rfl
  | cons step rest =>
      simp only [List.map_cons, List.foldl_cons, Nat.zero_max, List.max?_cons', Option.getD_some]
      rw [cast_foldl_max, List.map_map]
      rfl

theorem fromMedian_eq {F : Floating} {price : Copper} {b : Buckets} {coverage : Option Nat} {gates : Gates}
    {v : Int} (h : (Position.of F price b coverage gates).fromMedianPercent = some v) :
    v = Width.i32.narrow
      (Change.mk (price - (b.quantile F 50).getD 0) ((b.quantile F 50).getD 0)).percent := by
  rw [Position.of] at h
  cases hd : Distribution.of F b with
  | none => simp [hd] at h
  | some d =>
      rw [(Distribution.of_some hd).1, Option.getD_some]
      simp only [hd, Option.ite_none_right_eq_some, Option.some.injEq] at h
      obtain ⟨-, rfl⟩ := h
      split
      · rename_i hzero
        rw [Change.percent_of_base_zero hzero]
        rfl
      · rfl

theorem stored_eq (p : Percentage) :
    p.stored = ((p.changes.map Change.percent).map p.width.narrow).max?.getD 0 := by
  cases p with
  | impact l hl wanted => exact impact_eq hl wanted
  | swing observations => exact swing_eq _
  | volatility samples now => exact volatility_eq samples now
  | trend since to' =>
      simp only [stored, Trend.between, changes, width, List.map_cons, List.map_nil]
      split
      · rename_i hzero
        rw [Change.percent_of_base_zero hzero]
        rfl
      · rfl
  | fromMedian F price b coverage gates h => exact fromMedian_eq (Option.some_get h).symm
  | rise prices h =>
      simp only [stored, changes, width, List.map_map]
      exact rise_eq h

/-- What is stored is the true percentage, or the greatest value, exactly when the changes fit the field. -/
theorem stored_eq_min_iff (p : Percentage) : p.stored = min p.exact p.width.most ↔ p.Fits := by
  have hleast : ∀ n ∈ p.changes.map Change.percent, p.width.least ≤ n := by
    intro n hn
    obtain ⟨c, hc, rfl⟩ := List.mem_map.mp hn
    exact Change.least_le_percent (signed c hc)
  rw [stored_eq, exact, Width.max_narrow_iff hleast, Fits]
  simp only [List.mem_map, exists_exists_and_eq_and, forall_exists_index, and_imp,
    forall_apply_eq_imp_iff₂]
  apply or_congr
  · exact forall₂_congr fun c hc => Change.percent_le_most_iff (signed c hc)
  · exact exists_congr fun c => and_congr_right fun hc => Change.narrow_percent_iff (signed c hc)

theorem exact_rise {prices : List Nat} (h : ∀ p ∈ prices, p ≤ maxU64) :
    (rise prices h).exact = Swings.bestRise prices := by
  simp only [exact, changes, List.map_map, Swings.bestRise]
  cases fromTrough none (Swings.positive prices) with
  | nil => rfl
  | cons step rest =>
      simp only [List.map_cons, List.foldl_cons, Nat.zero_max, List.max?_cons', Option.getD_some]
      rw [cast_foldl_max, List.map_map]
      rfl

/-- Percentages that fit their fields are stored in their order. -/
theorem stored_mono (hp : p.Fits) (hp' : p'.Fits) (hwidth : p.width = p'.width) (h : p.exact ≤ p'.exact) :
    p.stored ≤ p'.stored := by
  rw [(stored_eq_min_iff p).mpr hp, (stored_eq_min_iff p').mpr hp', hwidth]
  exact min_le_min_right _ h

end Percentage

/-- A stored percentage is the true one, or the greatest value of its field, exactly when the changes behind
it fit the field. Of two that do, the larger is stored as no smaller. The true percentage of a path is the
greatest rise between any of its prices and a later one. -/
theorem percentages_saturate_iff (p p' : Percentage) :
    (p.stored = min p.exact p.width.most ↔ p.Fits) ∧
      (p.Fits → p'.Fits → p.width = p'.width → p.exact ≤ p'.exact → p.stored ≤ p'.stored) ∧
      ∀ prices h, ∃ n : Nat, IsGreatest (insert 0 (rises prices)) n ∧
        (Percentage.rise prices h).exact = n :=
  ⟨Percentage.stored_eq_min_iff p, Percentage.stored_mono, fun prices h =>
    ⟨Swings.bestRise prices, Swings.isGreatest_bestRise prices, Percentage.exact_rise h⟩⟩

/-- Two small moves are stored in their order. -/
theorem percentages_saturate_iff_moves :
    (Percentage.trend 10 12).stored ≤ (Percentage.trend 10 15).stored := by
  refine (percentages_saturate_iff (.trend 10 12) (.trend 10 15)).2.1 ?_ ?_ rfl ?_
  · exact .inl (by simp [Percentage.changes, Percentage.width, Width.limit, Change.Below])
  · exact .inl (by simp [Percentage.changes, Percentage.width, Width.limit, Change.Below])
  · decide

/-- Beside a listing at one copper a dear one makes the impact of a sweep wrap, and a market that rose so
far is said to have fallen. -/
theorem percentages_wrap :
    ((Ladder.of [⟨1, 1, 1⟩, ⟨1, 85899347, 1⟩]).fill 2).impactPercent = 4 ∧
      riseOf 1 (mean [1, 85899347]) = 4294967300 ∧
      (Trend.between 1 21474838).percent = -2147483596 ∧
      (Trend.between 1 21474837).percent = 2147483600 ∧
      ¬ ∀ p : Percentage, p.stored = min p.exact p.width.most := by
  refine ⟨by decide, by decide, by decide, by decide, ?_⟩
  intro h
  exact absurd (h (.trend 1 21474838)) (by decide)

end Gavel.Market
