import Gavel.Market.Lemmas.Supply
import Mathlib.Order.Monotone.Basic
import Mathlib.Data.Nat.Find

/-!
# The archive curve

A ladder is kept in the archive as the units at or below twelve prices. Between two of them the curve
draws a straight line. It is exact at the bands, it never leaves the band that the ladder's own answer
lies in, and it refuses what the ladder refuses.
-/

namespace Gavel.Market

open Quantile (upto Reaches)
open Interpolate (floorAt ceilAt)

variable {listings : List Listing} {base p q i j percent wanted : Nat} {c : Curve}

/-! ## Bands -/

namespace Curve

/-- The last band. -/
def lastBand : Nat := 11

theorem band_lt (hij : i < j) (hj : j ≤ lastBand) : band i < band j := by
  have hall : ∀ j ≤ lastBand, ∀ i < j, band i < band j := by decide
  exact hall j hj i hij

theorem band_le (hij : i ≤ j) (hj : j ≤ lastBand) : band i ≤ band j := by
  rcases Nat.eq_or_lt_of_le hij with rfl | h
  · exact Nat.le_refl _
  · exact Nat.le_of_lt (band_lt h hj)

theorem lt_length (h : i ≤ lastBand) : i < curveBands.length := Nat.lt_succ_of_le h

theorem getElem_band (h : i < curveBands.length) : curveBands[i] = band i := by
  simp [band, h]

theorem mem_curveBands : p ∈ curveBands ↔ ∃ i ≤ lastBand, band i = p := by
  rw [List.mem_iff_getElem]
  constructor
  · rintro ⟨i, hi, rfl⟩
    exact ⟨i, Nat.le_of_lt_succ hi, (getElem_band hi).symm⟩
  · rintro ⟨i, hi, rfl⟩
    exact ⟨i, lt_length hi, getElem_band _⟩

/-- A percentage below the last band lies between two that follow each other. -/
theorem exists_band (hp : p < band lastBand) : ∃ i < lastBand, band i ≤ p ∧ p < band (i + 1) := by
  have hspec : band (Nat.findGreatest (fun i => band i ≤ p) lastBand) ≤ p :=
    @Nat.findGreatest_spec 0 (fun i => band i ≤ p) _ lastBand (Nat.zero_le _) (Nat.zero_le p)
  have hle := @Nat.findGreatest_le (fun i => band i ≤ p) _ lastBand
  generalize hi : Nat.findGreatest (fun i => band i ≤ p) lastBand = i at hspec hle
  have hlt : i < lastBand := by
    apply Nat.lt_of_le_of_ne hle
    rintro rfl
    omega
  refine ⟨i, hlt, hspec, ?_⟩
  by_contra hge
  have hgreatest : i + 1 ≤ Nat.findGreatest (fun i => band i ≤ p) lastBand :=
    Nat.le_findGreatest hlt (Nat.not_lt.mp hge)
  omega

theorem findIdx_band (h : i ≤ lastBand) : curveBands.findIdx? (· = band i) = some i := by
  rw [List.findIdx?_eq_some_iff_getElem]
  refine ⟨lt_length h, by rw [getElem_band]; simp, ?_⟩
  intro j hj
  have hlt := band_lt hj h
  simp only [getElem_band, decide_eq_true_eq]
  omega

theorem findIdx_between (hi : i < lastBand) (hlo : band i < p) (hhi : p < band (i + 1)) :
    curveBands.findIdx? (· = p) = none ∧ curveBands.findIdx? (p < ·) = some (i + 1) := by
  constructor
  · rw [List.findIdx?_eq_none_iff]
    intro b hb
    obtain ⟨j, hj, rfl⟩ := mem_curveBands.mp hb
    simp only [decide_eq_false_iff_not]
    rcases Nat.lt_or_ge i j with hij | hij
    · have hle : band (i + 1) ≤ band j := band_le hij hj
      omega
    · have hle := band_le hij (Nat.le_of_lt hi)
      omega
  · rw [List.findIdx?_eq_some_iff_getElem]
    refine ⟨lt_length hi, by rw [getElem_band]; simpa using hhi, ?_⟩
    intro j hj
    have hle := band_le (Nat.le_of_lt_succ hj) (Nat.le_of_lt hi)
    simp only [getElem_band, decide_eq_true_eq]
    omega

theorem findIdx_beyond (h : band lastBand < p) :
    curveBands.findIdx? (· = p) = none ∧ curveBands.findIdx? (p < ·) = none := by
  constructor <;>
  · rw [List.findIdx?_eq_none_iff]
    intro b hb
    obtain ⟨j, hj, rfl⟩ := mem_curveBands.mp hb
    have hle := band_le hj (Nat.le_refl lastBand)
    simp only [decide_eq_false_iff_not]
    omega

/-! ## Any curve -/

/-- The units recorded at the bands ascend, up to the total. -/
structure Ascending (c : Curve) : Prop where
  bands : ∀ {i j}, i ≤ j → j ≤ lastBand → c.units i ≤ c.units j
  total : ∀ {i}, i ≤ lastBand → c.units i ≤ c.total

/-- On a closed segment between two bands the curve is the straight line. -/
theorem quantityWithin_segment (hc : c.cheapest ≠ 0) (ha : c.Ascending) (hi : i < lastBand)
    (hlo : band i ≤ p) (hhi : p ≤ band (i + 1)) :
    c.quantityWithin p =
      some (floorAt (band i) (band (i + 1)) (c.units i) (c.units (i + 1)) p) := by
  have hlt : band i < band (i + 1) := band_lt (Nat.lt_succ_self i) hi
  rw [quantityWithin, if_neg hc]
  rcases Nat.eq_or_lt_of_le hlo with rfl | hlo
  · rw [findIdx_band (Nat.le_of_lt hi), Interpolate.floorAt_lo]
  · rcases Nat.eq_or_lt_of_le hhi with rfl | hhi
    · rw [findIdx_band hi, Interpolate.floorAt_hi hlt (ha.bands (Nat.le_succ i) hi)]
    · obtain ⟨hnone, hsome⟩ := findIdx_between hi hlo hhi
      rw [hnone, hsome]

theorem quantityWithin_band (hc : c.cheapest ≠ 0) (hi : i ≤ lastBand) :
    c.quantityWithin (band i) = some (c.units i) := by
  rw [quantityWithin, if_neg hc, findIdx_band hi]

theorem quantityWithin_beyond (hc : c.cheapest ≠ 0) (hp : band lastBand < p) :
    c.quantityWithin p = some c.total := by
  obtain ⟨hequal, hgreater⟩ := findIdx_beyond hp
  rw [quantityWithin, if_neg hc, hequal, hgreater]

/-- The curve's answer, between the units at the bands around a percentage. -/
theorem quantityWithin_between (hc : c.cheapest ≠ 0) (ha : c.Ascending) (hi : i < lastBand)
    (hlo : band i ≤ p) (hhi : p ≤ band (i + 1)) :
    ∃ v, c.quantityWithin p = some v ∧ c.units i ≤ v ∧ v ≤ c.units (i + 1) :=
  ⟨_, quantityWithin_segment hc ha hi hlo hhi, Interpolate.le_floorAt,
    Interpolate.floorAt_le (ha.bands (Nat.le_succ i) hi) hhi⟩

theorem quantityWithin_isSome (hc : c.cheapest ≠ 0) (ha : c.Ascending) (p : Nat) :
    ∃ v, c.quantityWithin p = some v ∧ v ≤ c.total := by
  rcases Nat.lt_trichotomy p (band lastBand) with hp | rfl | hp
  · obtain ⟨i, hi, hlo, hhi⟩ := exists_band hp
    obtain ⟨v, hv, -, hle⟩ := quantityWithin_between hc ha hi hlo (Nat.le_of_lt hhi)
    exact ⟨v, hv, hle.trans (ha.total hi)⟩
  · exact ⟨_, quantityWithin_band hc (Nat.le_refl _), ha.total (Nat.le_refl _)⟩
  · exact ⟨_, quantityWithin_beyond hc hp, Nat.le_refl _⟩

/-- A whole percentage and the next one lie on one closed segment, so the curve ascends. -/
theorem quantityWithin_mono (hc : c.cheapest ≠ 0) (ha : c.Ascending) :
    Monotone fun p => (c.quantityWithin p).getD 0 := by
  apply monotone_nat_of_le_succ
  intro p
  rcases Nat.lt_trichotomy p (band lastBand) with hp | rfl | hp
  · obtain ⟨i, hi, hlo, hhi⟩ := exists_band hp
    rw [quantityWithin_segment hc ha hi hlo (Nat.le_of_lt hhi),
      quantityWithin_segment hc ha hi (Nat.le_succ_of_le hlo) hhi]
    exact Interpolate.floorAt_mono (Nat.le_succ p)
  · rw [quantityWithin_band hc (Nat.le_refl _), quantityWithin_beyond hc (Nat.lt_succ_self _)]
    exact ha.total (Nat.le_refl _)
  · rw [quantityWithin_beyond hc hp, quantityWithin_beyond hc (Nat.lt_succ_of_lt hp)]

/-- The ratio at which the units that are wanted are reached, the last band's where they are not. -/
def ratioOf (c : Curve) (wanted : Nat) : Nat :=
  match c.cumulative.findIdx? (wanted ≤ ·) with
  | some i => c.ratio wanted i
  | none => band lastBand

theorem findIdx_units (h : c.cumulative.findIdx? (wanted ≤ ·) = some i) :
    i ≤ lastBand ∧ wanted ≤ c.units i ∧ ∀ j < i, c.units j < wanted := by
  rw [List.findIdx?_eq_some_iff_getElem] at h
  obtain ⟨hi, henough, hfirst⟩ := h
  have hunits : ∀ (j : Nat) (hj : j < c.cumulative.length), c.cumulative[j] = c.units j := by
    intro j hj
    simp [units, hj]
  have hlen := c.sized
  refine ⟨?_, by simpa [hunits] using henough, ?_⟩
  · rw [hlen] at hi
    exact Nat.le_of_lt_succ hi
  · intro j hj
    have hshort := hfirst j hj
    simpa [hunits] using hshort

theorem findIdx_units_none (h : c.cumulative.findIdx? (wanted ≤ ·) = none) (hi : i ≤ lastBand) :
    c.units i < wanted := by
  rw [List.findIdx?_eq_none_iff] at h
  have hlt : i < c.cumulative.length := by
    rw [c.sized]
    exact lt_length hi
  have hshort := h _ (List.getElem_mem hlt)
  simpa [units, hlt] using hshort

theorem ratio_le (hi : i ≤ lastBand) (h : wanted ≤ c.units i) : c.ratio wanted i ≤ band i := by
  cases i with
  | zero => exact Interpolate.ceilAt_le (Nat.zero_le _) h
  | succ i => exact Interpolate.ceilAt_le (Nat.le_of_lt (band_lt (Nat.lt_succ_self i) hi)) h

theorem band_le_ratio (c : Curve) (wanted i : Nat) : band i ≤ c.ratio wanted (i + 1) :=
  Interpolate.le_ceilAt

/-- The more is wanted, the further out it is reached. -/
theorem ratioOf_mono (c : Curve) : Monotone c.ratioOf := by
  intro v w hvw
  rw [ratioOf, ratioOf]
  split
  · rename_i i hi
    obtain ⟨hlast, henough, hshort⟩ := findIdx_units hi
    split
    · rename_i j hj
      obtain ⟨hlast', henough', -⟩ := findIdx_units hj
      rcases Nat.lt_trichotomy i j with hij | rfl | hij
      · obtain ⟨k, rfl⟩ := Nat.exists_eq_succ_of_ne_zero (Nat.ne_zero_of_lt hij)
        calc c.ratio v i ≤ band i := ratio_le hlast henough
          _ ≤ band k := band_le (Nat.le_of_lt_succ hij) (Nat.le_of_succ_le hlast')
          _ ≤ c.ratio w (k + 1) := band_le_ratio c w k
      · cases i <;> exact Interpolate.ceilAt_mono hvw
      · -- The units at `j` are enough for the larger amount and not for the smaller one.
        exact absurd (hvw.trans henough') (Nat.not_le_of_lt (hshort j hij))
    · exact (ratio_le hlast henough).trans (band_le hlast (Nat.le_refl _))
  · rename_i hnone
    split
    · rename_i j hj
      obtain ⟨hlast, henough, -⟩ := findIdx_units hj
      exact absurd (hvw.trans henough) (Nat.not_le_of_lt (findIdx_units_none hnone hlast))
    · exact Nat.le_refl _

theorem supplyPercentile_eq_some (hsparse : c.isSparse = false) (htotal : c.total ≠ 0)
    (hfit : c.total * 100 ≤ maxU64) (hpercent : percent ≤ 100) :
    c.supplyPercentile percent =
      some (priceAbove c.cheapest (c.ratioOf ((c.total * percent + 99) / 100))) := by
  have hmul : c.total * percent ≤ c.total * 100 := Nat.mul_le_mul_left _ hpercent
  have hlt : (c.total * percent + 99) / 100 < 2 ^ 64 := by
    simp only [maxU64] at hfit
    omega
  simp only [supplyPercentile, hsparse, htotal, decide_false, Bool.or_false, Bool.false_eq_true, if_false,
    Nat.mod_eq_of_lt hlt, ratioOf]
  cases c.cumulative.findIdx? ((c.total * percent + 99) / 100 ≤ ·) with
  | none => rfl
  | some i => rfl

end Curve

theorem priceAbove_mono (h : p ≤ q) (base : Nat) : priceAbove base p ≤ priceAbove base q := by
  have hmul : base * (100 + p) ≤ base * (100 + q) := Nat.mul_le_mul_left _ (by omega)
  exact min_le_min_right _ (Nat.div_le_div_right hmul)

theorem priceAbove_zero (h : base ≤ maxU64) : priceAbove base 0 = base := by
  rw [priceAbove, Nat.add_zero, Nat.mul_div_cancel _ (by decide), min_eq_left h]

/-- One more percent of a price of a hundred or more is a higher price, unless 64 bits end there. -/
theorem priceAbove_lt (hbase : 100 ≤ base) (h : p < q) (hmax : priceAbove base p < maxU64) :
    priceAbove base p < priceAbove base q := by
  have hmul : base * (100 + p) + base ≤ base * (100 + q) := by
    calc base * (100 + p) + base = base * (100 + p + 1) := by rw [Nat.mul_add_one]
      _ ≤ base * (100 + q) := Nat.mul_le_mul_left _ (by omega)
  have hdiv : base * (100 + p) / 100 < base * (100 + q) / 100 := by omega
  exact lt_min ((min_le_left _ _).trans_lt hdiv) hmax

/-! ## The curve of a ladder -/

namespace Ladder

open Curve (band lastBand)

theorem length_pooled_le (entries : List (Nat × Nat)) : (pooled entries).length ≤ entries.length :=
  Assoc.length_collect_le entries

theorem steps_length_le (listings : List Listing) :
    (Ladder.of listings).steps.length ≤ listings.length := by
  have hunits : (Ladder.of listings).steps.length = (Ladder.of listings).units.length := by simp [units]
  rw [hunits, units_of]
  refine (length_pooled_le _).trans ?_
  rw [List.length_map]
  exact List.length_filter_le _ _

section Compact

variable (hbase : (Ladder.of listings).cheapest = some base)

include hbase

theorem compact_cheapest : (Ladder.of listings).compact.cheapest = base := by
  simp only [compact, hbase]

theorem compact_total : (Ladder.of listings).compact.total = (Ladder.of listings).total := by
  simp only [compact, hbase]

theorem compact_levels :
    (Ladder.of listings).compact.levels = (Ladder.of listings).steps.length % 2 ^ 32 := by
  simp only [compact, hbase]

theorem compact_units (hi : i ≤ lastBand) :
    (Ladder.of listings).compact.units i = upto (Ladder.of listings).units (priceAbove base (band i)) := by
  have hlt := Curve.lt_length hi
  rw [← quantityUpto_of]
  simp [compact, hbase, Curve.units, band, hlt]

theorem quantityWithin_eq (percent : Nat) : (Ladder.of listings).quantityWithin percent =
    some (upto (Ladder.of listings).units (priceAbove base percent)) := by
  rw [quantityWithin, hbase, Option.map_some, quantityUpto_of]
  rfl

theorem compact_ascending : (Ladder.of listings).compact.Ascending := by
  constructor
  · intro i j hij hj
    rw [compact_units hbase (hij.trans hj), compact_units hbase hj]
    exact Quantile.upto_mono (priceAbove_mono (Curve.band_le hij hj) base) _
  · intro i hi
    rw [compact_units hbase hi, compact_total hbase, total_of]
    exact Quantile.upto_le_total _ _

theorem compact_isSparse (hfew : listings.length < 2 ^ 32) :
    (Ladder.of listings).compact.isSparse = (Ladder.of listings).isSparse := by
  have hlen := steps_length_le listings
  rw [Curve.isSparse, compact_levels hbase, Nat.mod_eq_of_lt (by omega), isSparse]

theorem cheapest_min : base ∈ (Ladder.of listings).units.map Prod.fst ∧
    ∀ e ∈ (Ladder.of listings).units, base ≤ e.1 := by
  rw [cheapest_eq, (sorted_of listings).head_min] at hbase
  obtain ⟨hmem, hle⟩ := List.min?_eq_some_iff.mp hbase
  exact ⟨hmem, fun e he => hle e.1 (List.mem_map_of_mem he)⟩

/-- The least price with some units is at least the cheapest. -/
theorem cheapest_le {target : Nat} (hpos : 0 < target)
    (h : Reaches (Ladder.of listings).units target p) : base ≤ p := by
  by_contra hlt
  have hzero : upto (Ladder.of listings).units p = 0 := by
    apply Quantile.upto_eq_zero
    intro e he
    exact (Nat.lt_of_not_le hlt).trans_le ((cheapest_min hbase).2 e he)
  have henough := h.enough
  omega

theorem units_ne_nil_of_cheapest : (Ladder.of listings).units ≠ [] := by
  intro hnil
  rw [cheapest_eq, hnil] at hbase
  cases hbase

theorem supplyPercentile_eq_none_iff (percent : Nat) :
    (Ladder.of listings).supplyPercentile percent = none ↔ (Ladder.of listings).isSparse = true := by
  have hne := units_ne_nil_of_cheapest hbase
  have hpos := total_pos hne
  have hdearest : (Ladder.of listings).dearest ≠ none := by
    rw [dearest_eq]
    simpa using hne
  rw [supplyPercentile]
  cases hsparse : (Ladder.of listings).isSparse with
  | true => simp
  | false =>
      simp only [Nat.ne_of_gt hpos, decide_false, Bool.or_false, Bool.false_eq_true, if_false, iff_false]
      split
      · simp
      · exact hdearest

end Compact

/-- What the curve of a ladder says agrees with the ladder. -/
structure Archived (l : Ladder) (base : Copper) : Prop where
  exact_at_bands : ∀ b ∈ curveBands, l.compact.quantityWithin b = l.quantityWithin b
  at_most_total : ∀ percent, ∃ v, l.compact.quantityWithin percent = some v ∧ v ≤ l.total
  between : ∀ i < lastBand, ∀ percent, band i ≤ percent → percent ≤ band (i + 1) →
    ∃ a v b, l.quantityWithin (band i) = some a ∧ l.compact.quantityWithin percent = some v ∧
      l.quantityWithin (band (i + 1)) = some b ∧ a ≤ v ∧ v ≤ b
  beyond : ∀ percent, band lastBand ≤ percent →
    ∃ a v, l.quantityWithin (band lastBand) = some a ∧ l.compact.quantityWithin percent = some v ∧ a ≤ v
  within_mono : ∀ p q v w, p ≤ q → l.compact.quantityWithin p = some v →
    l.compact.quantityWithin q = some w → v ≤ w
  refuses : ∀ percent, (l.compact.supplyPercentile percent = none ↔ l.isSparse = true) ∧
    (l.supplyPercentile percent = none ↔ l.isSparse = true)
  /-- Both percentiles are the cheapest price, or lie between the prices of two bands that follow each
  other, or are beyond the last one. Only a price below a hundred can round down to the lower edge. -/
  same_band : ∀ percent ≤ 100, ∀ p q, l.compact.supplyPercentile percent = some p →
    l.supplyPercentile percent = some q →
    (p = base ∧ q = base) ∨
    (∃ i < lastBand, priceAbove base (band i) ≤ p ∧ p ≤ priceAbove base (band (i + 1)) ∧
      priceAbove base (band i) < q ∧ q ≤ priceAbove base (band (i + 1)) ∧
      (100 ≤ base → priceAbove base (band i) < p)) ∨
    (p = priceAbove base (band lastBand) ∧ p ≤ q)
  percentile_mono : ∀ p q v w, p ≤ q → q ≤ 100 → l.compact.supplyPercentile p = some v →
    l.compact.supplyPercentile q = some w → v ≤ w

section Agreement

variable (hbase : (Ladder.of listings).cheapest = some base)

include hbase

/-- The two answers to one share of the supply, by the first band with enough units. -/
theorem percentiles_same_band (hmax : base ≤ maxU64) {w p q : Nat}
    (hp : p = priceAbove base ((Ladder.of listings).compact.ratioOf w))
    (hq : Reaches (Ladder.of listings).units (max w 1) q) (hqmax : q ≤ maxU64) :
    (p = base ∧ q = base) ∨
    (∃ i < lastBand, priceAbove base (band i) ≤ p ∧ p ≤ priceAbove base (band (i + 1)) ∧
      priceAbove base (band i) < q ∧ q ≤ priceAbove base (band (i + 1)) ∧
      (100 ≤ base → priceAbove base (band i) < p)) ∨
    (p = priceAbove base (band lastBand) ∧ p ≤ q) := by
  have hzero : priceAbove base (band 0) = base := priceAbove_zero hmax
  cases hidx : (Ladder.of listings).compact.cumulative.findIdx? (w ≤ ·) with
  | none =>
      -- Not even the last band has enough: the ladder's price is beyond it.
      have hshort := Curve.findIdx_units_none hidx (Nat.le_refl lastBand)
      rw [compact_units hbase (Nat.le_refl _)] at hshort
      have hlast : p = priceAbove base (band lastBand) := by rw [hp, Curve.ratioOf, hidx]
      refine .inr (.inr ⟨hlast, ?_⟩)
      rw [hlast]
      exact Nat.le_of_lt (hq.lt_of_short (by omega))
  | some i =>
      obtain ⟨hi, henough, hfirst⟩ := Curve.findIdx_units hidx
      have hratio : p = priceAbove base ((Ladder.of listings).compact.ratio w i) := by
        rw [hp, Curve.ratioOf, hidx]
      have hle := Curve.ratio_le hi henough
      have hunits := compact_units hbase hi
      cases i with
      | zero =>
          -- The cheapest rung alone has enough.
          obtain ⟨e, he, hbaseE⟩ := List.mem_map.mp (cheapest_min hbase).1
          have hone : e.2 ≤ upto (Ladder.of listings).units base := Quantile.le_upto he (Nat.le_of_eq hbaseE)
          have hpos := units_pos he
          rw [hzero] at hunits
          refine .inl ⟨?_, Nat.le_antisymm (hq.le_of_enough (by omega)) ?_⟩
          · rw [hratio, Nat.le_zero.mp hle]
            exact hzero
          · exact cheapest_le hbase (by omega) hq
      | succ i =>
          have hshort := hfirst i (Nat.lt_succ_self i)
          have hunits' := compact_units hbase (Nat.le_of_succ_le hi)
          have hlo : priceAbove base (band i) < q := hq.lt_of_short (by omega)
          have hge := Curve.band_le_ratio (Ladder.of listings).compact w i
          refine .inr (.inl ⟨i, hi, ?_, ?_, hlo, hq.le_of_enough (by omega), ?_⟩)
          · rw [hratio]
            exact priceAbove_mono hge base
          · rw [hratio]
            exact priceAbove_mono hle base
          · intro hlarge
            rw [hratio]
            apply priceAbove_lt hlarge _ (hlo.trans_le hqmax)
            exact Interpolate.lt_ceilAt (Curve.band_lt (Nat.lt_succ_self i) hi) hshort henough

variable (hfew : listings.length < 2 ^ 32)

include hfew

/-- A curve refuses a percentile exactly when its ladder is sparse. -/
theorem compact_eq_none_iff (percent : Nat) :
    (Ladder.of listings).compact.supplyPercentile percent = none ↔
      (Ladder.of listings).isSparse = true := by
  have hpos := total_pos (units_ne_nil_of_cheapest hbase)
  rw [Curve.supplyPercentile, compact_isSparse hbase hfew, compact_total hbase]
  cases (Ladder.of listings).isSparse with
  | true => simp
  | false =>
      simp only [Nat.ne_of_gt hpos, decide_false, Bool.or_false, Bool.false_eq_true, if_false, iff_false]
      split <;> simp

theorem compact_supplyPercentile (hfit : (Ladder.of listings).total * 100 ≤ maxU64)
    (hpercent : percent ≤ 100)
    (h : (Ladder.of listings).compact.supplyPercentile percent = some p) :
    (Ladder.of listings).isSparse = false ∧ p = priceAbove base
      ((Ladder.of listings).compact.ratioOf (((Ladder.of listings).total * percent + 99) / 100)) := by
  have hpos := total_pos (units_ne_nil_of_cheapest hbase)
  have htotal := compact_total hbase
  have hdense : (Ladder.of listings).isSparse = false := by
    by_contra hsparse
    rw [Bool.not_eq_false, ← compact_eq_none_iff hbase hfew percent, h] at hsparse
    cases hsparse
  have hsome := Curve.supplyPercentile_eq_some ((compact_isSparse hbase hfew).trans hdense)
    (by omega) (by omega) hpercent
  rw [h, htotal, compact_cheapest hbase] at hsome
  exact ⟨hdense, Option.some.inj hsome⟩

end Agreement

/-- The curve of a ladder of listings with a price agrees with it. An answer with more auctions than
`mostCommodities` is refused, so there are fewer listings than 32 bits count. -/
theorem compact_archived (hbase : (Ladder.of listings).cheapest = some base) (hpos : 0 < base)
    (hprice : ∀ l ∈ listings, l.unitPrice ≤ maxU64) (hfew : listings.length < 2 ^ 32)
    (hfit : (Ladder.of listings).total * 100 ≤ maxU64) : Archived (Ladder.of listings) base := by
  have hcheapest : (Ladder.of listings).compact.cheapest ≠ 0 := by
    rw [compact_cheapest hbase]
    exact Nat.ne_of_gt hpos
  have hasc := compact_ascending hbase
  have hmax : ∀ e ∈ (Ladder.of listings).units, e.1 ≤ maxU64 := by
    intro e he
    obtain ⟨l, hl, heq⟩ := List.mem_map.mp (mem_keys_of.mp (List.mem_map_of_mem he))
    exact heq ▸ hprice l (mem_stocked.mp hl).1
  refine ⟨?_, ?_, ?_, ?_, ?_, ?_, ?_, ?_⟩
  · intro b hb
    obtain ⟨i, hi, rfl⟩ := Curve.mem_curveBands.mp hb
    rw [Curve.quantityWithin_band hcheapest hi, quantityWithin_eq hbase, compact_units hbase hi]
  · intro percent
    rw [← compact_total hbase]
    exact Curve.quantityWithin_isSome hcheapest hasc percent
  · intro i hi percent hlo hhi
    obtain ⟨v, hv, hle, hge⟩ := Curve.quantityWithin_between hcheapest hasc hi hlo hhi
    rw [compact_units hbase (Nat.le_of_lt hi)] at hle
    rw [compact_units hbase hi] at hge
    exact ⟨_, v, _, quantityWithin_eq hbase _, hv, quantityWithin_eq hbase _, hle, hge⟩
  · intro percent hge
    have hlast := Curve.quantityWithin_band hcheapest (Nat.le_refl lastBand)
    have hunits := compact_units hbase (Nat.le_refl lastBand)
    obtain ⟨v, hv, -⟩ := Curve.quantityWithin_isSome hcheapest hasc percent
    have hmono := Curve.quantityWithin_mono hcheapest hasc hge
    simp only [hlast, hv, Option.getD_some] at hmono
    exact ⟨_, v, quantityWithin_eq hbase _, hv, hunits ▸ hmono⟩
  · intro p q v w hpq hv hw
    have hmono := Curve.quantityWithin_mono hcheapest hasc hpq
    simpa only [hv, hw, Option.getD_some] using hmono
  · intro percent
    exact ⟨compact_eq_none_iff hbase hfew percent, supplyPercentile_eq_none_iff hbase percent⟩
  · intro percent hpercent p q hp hq
    obtain ⟨hdense, hp⟩ := compact_supplyPercentile hbase hfew hfit hpercent hp
    obtain ⟨q', hq', hreach⟩ := supplyPercentile_of hdense hpercent hfit
    cases hq.symm.trans hq'
    have hqmax : q ≤ maxU64 := by
      apply hreach.le_of_enough
      rw [Quantile.upto_eq_total hmax, Quantile.total, ← total_of]
      exact sought_le hpercent (total_pos (units_ne_nil_of_cheapest hbase))
    obtain ⟨e, he, hbaseE⟩ := List.mem_map.mp (cheapest_min hbase).1
    exact percentiles_same_band hbase (hbaseE ▸ hmax e he) hp hreach hqmax
  · intro p q v w hpq hq hv hw
    obtain ⟨-, rfl⟩ := compact_supplyPercentile hbase hfew hfit (hpq.trans hq) hv
    obtain ⟨-, rfl⟩ := compact_supplyPercentile hbase hfew hfit hq hw
    have hwanted : ((Ladder.of listings).total * p + 99) / 100 ≤
        ((Ladder.of listings).total * q + 99) / 100 :=
      Nat.div_le_div_right (Nat.add_le_add_right (Nat.mul_le_mul_left _ hpq) 99)
    exact priceAbove_mono (Curve.ratioOf_mono _ hwanted) base

theorem compact_archived_shelf :
    Archived (Ladder.of [⟨7, 1000, 10⟩, ⟨7, 1050, 30⟩, ⟨7, 1120, 40⟩, ⟨7, 1300, 50⟩, ⟨7, 1800, 70⟩]) 1000 :=
  compact_archived (by decide) (by decide) (by decide) (by decide) (by decide)

end Ladder

end Gavel.Market
