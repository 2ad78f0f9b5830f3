import Gavel.Lib.OrderStatistics
import Gavel.Market.Lemmas.Hours

/-!
# Rank, band and refusal

Where a price stands is a rank, a band and perhaps a refusal, decided by two gates and the share of a
window that was observed. A position has either a band or the reason why it has none, and a reason is
never given against what it reports.
-/

namespace Gavel.Market

open Gavel.Cluster (Millis)

variable {F : Floating} {b : Buckets} {coverage : Option Nat} {gates : Gates} {p q r s : Nat}

/-- The place of a band, cheapest first. -/
def Valuation.place : Valuation → Nat
  | .veryCheap => 0
  | .cheap => 1
  | .typical => 2
  | .expensive => 3
  | .veryExpensive => 4

/-- A rank counts the hours that were cheaper, and those at the price by half. -/
structure Buckets.Ranks (b : Buckets) : Prop where
  none : b.prices = [] → ∀ price, b.rankOf price = none
  some : b.prices ≠ [] → ∀ price, b.rankOf price =
    some (100 * (b.prices.countP (· < price) + b.prices.countP (· ≤ price)) / (2 * b.prices.length))
  mono : ∀ p q r s, p ≤ q → b.rankOf p = Option.some r → b.rankOf q = Option.some s → r ≤ s
  most : ∀ price r, b.rankOf price = Option.some r → r ≤ 100
  steady : b.prices ≠ [] → ∀ price, (∀ p ∈ b.prices, p = price) → b.rankOf price = Option.some 50

/-- A position has a band or the reason for having none, and the reason holds. -/
structure Position.Coherent (p : Position) : Prop where
  one : p.valuation.isSome = !p.insufficient.isSome
  few : ∀ held need, p.insufficient = some (.notEnoughHistory held need) → held < need
  gaps : ∀ coverage need, p.insufficient = some (.tooManyGaps coverage need) → coverage < need

/-! ## Ranks -/

namespace Buckets

variable (hb : b.prices.Pairwise (· ≤ ·))
include hb

theorem rankOf_eq (hne : b.prices ≠ []) (price : Copper) : b.rankOf price =
    some (100 * (b.prices.countP (· < price) + b.prices.countP (· ≤ price)) / (2 * b.prices.length)) := by
  have hbelow : (b.prices.takeWhile (· < price)).length = b.prices.countP (· < price) := by
    refine OrderStatistics.length_takeWhile hb fun p q hpq hq => ?_
    exact decide_eq_true (Nat.lt_of_le_of_lt hpq (of_decide_eq_true hq))
  have hupto : (b.prices.takeWhile (· ≤ price)).length = b.prices.countP (· ≤ price) := by
    refine OrderStatistics.length_takeWhile hb fun p q hpq hq => ?_
    exact decide_eq_true (Nat.le_trans hpq (of_decide_eq_true hq))
  have hmost : (b.prices.countP (· < price) + b.prices.countP (· ≤ price)) * 100 /
      (2 * b.prices.length) ≤ 100 := by
    refine Nat.div_le_of_le_mul ?_
    have h1 := b.prices.countP_le_length (p := (· < price))
    have h2 := b.prices.countP_le_length (p := (· ≤ price))
    omega
  rw [rankOf, if_neg (by simpa using hne)]
  dsimp only
  rw [hbelow, hupto, Nat.min_eq_left hmost, Nat.mul_comm]

theorem rankOf_mono (hpq : p ≤ q) (hp : b.rankOf p = some r) (hq : b.rankOf q = some s) : r ≤ s := by
  have hne : b.prices ≠ [] := by
    intro hnil
    simp [rankOf, hnil] at hp
  rw [rankOf_eq hb hne, Option.some_inj] at hp hq
  subst hp hq
  refine Nat.div_le_div_right (Nat.mul_le_mul_left 100 (Nat.add_le_add ?_ ?_))
  · refine List.countP_mono_left fun i _ hi => ?_
    exact decide_eq_true (Nat.lt_of_lt_of_le (of_decide_eq_true hi) hpq)
  · refine List.countP_mono_left fun i _ hi => ?_
    exact decide_eq_true (Nat.le_trans (of_decide_eq_true hi) hpq)

theorem rankOf_steady (hne : b.prices ≠ []) (h : ∀ i ∈ b.prices, i = p) : b.rankOf p = some 50 := by
  have hbelow : b.prices.countP (· < p) = 0 := by
    refine List.countP_eq_zero.mpr fun i hi => ?_
    simp [h i hi]
  have hupto : b.prices.countP (· ≤ p) = b.prices.length := by
    refine List.countP_eq_length.mpr fun i hi => ?_
    simp [h i hi]
  have hpos := List.length_pos_of_ne_nil hne
  rw [rankOf_eq hb hne, hbelow, hupto, Option.some_inj]
  refine Nat.div_eq_of_lt_le ?_ ?_ <;> omega

theorem ranks : b.Ranks where
  none hnil price := by simp [rankOf, hnil]
  some hne price := rankOf_eq hb hne price
  mono _ _ _ _ hpq hp hq := rankOf_mono hb hpq hp hq
  most price r h := by
    rw [rankOf] at h
    split at h
    · cases h
    · cases h
      exact Nat.min_le_right _ _
  steady hne _ h := rankOf_steady hb hne h

end Buckets

/-! ## Bands and refusals -/

theorem Valuation.ofRank_mono (h : r ≤ s) : (ofRank r).place ≤ (ofRank s).place := by
  have hplace : ∀ r, (ofRank r).place =
      if r ≤ 5 then 0 else if r ≤ 25 then 1 else if r ≤ 75 then 2 else if r ≤ 95 then 3 else 4 := by
    intro r
    unfold ofRank
    split_ifs <;> rfl
  rw [hplace, hplace]
  split_ifs <;> omega

theorem Gates.admitBand_error {buckets : Nat} {reason : Insufficient}
    (h : gates.admitBand buckets coverage = .error reason) :
    (reason = .notEnoughHistory buckets gates.tails ∧ buckets < gates.tails) ∨
      ∃ c, coverage = some c ∧ reason = .tooManyGaps c gates.coverage ∧ c < gates.coverage := by
  unfold admitBand at h
  split at h
  · rename_i hfew
    cases h
    exact .inl ⟨rfl, hfew⟩
  · split at h
    · rename_i c
      split at h
      · rename_i hgaps
        cases h
        exact .inr ⟨c, rfl, rfl, hgaps⟩
      · cases h
    · cases h

namespace Position

theorem of_nothing (hnil : b.prices = []) (price : Copper) :
    Position.of F price b coverage gates =
      { rank := none, valuation := none, insufficient := some (.notEnoughHistory 0 gates.tails)
        fromMedianPercent := none, anomaly := .ordinary } := by
  have hd : Distribution.of F b = none := by
    simp [Distribution.of, Buckets.quantile, hnil]
  unfold Position.of
  rw [hd]

section Evidence

variable {d : Distribution} (hd : Distribution.of F b = some d)
include hd

/-- With evidence enough for both gates there is a band. -/
theorem of_admitted (hgate : gates.admitBand (b.len % 2 ^ 32) coverage = .ok ())
    (hmedian : gates.admitsMedian (b.len % 2 ^ 32) = true) (hr : b.rankOf p = some r) :
    (Position.of F p b coverage gates).valuation = some (Valuation.ofRank r) ∧
      (Position.of F p b coverage gates).insufficient = none := by
  unfold Position.of
  simp only [hd, hgate, hmedian, if_true, hr, and_self]

/-- With evidence for the band and not for a median there is not. -/
theorem of_few (hgate : gates.admitBand (b.len % 2 ^ 32) coverage = .ok ())
    (hmedian : gates.admitsMedian (b.len % 2 ^ 32) = false) (price : Copper) :
    (Position.of F price b coverage gates).valuation = none ∧
      (Position.of F price b coverage gates).insufficient =
        some (.notEnoughHistory (b.len % 2 ^ 32) gates.median) := by
  unfold Position.of
  simp only [hd, hgate, hmedian, Bool.false_eq_true, if_false, and_self]

theorem of_refused {reason : Insufficient}
    (hgate : gates.admitBand (b.len % 2 ^ 32) coverage = .error reason) (price : Copper) :
    (Position.of F price b coverage gates).valuation = none ∧
      (Position.of F price b coverage gates).insufficient = some reason := by
  unfold Position.of
  simp only [hd, hgate, and_self]

end Evidence

theorem coherent_of_refusal {position : Position} {reason : Insufficient}
    (hnone : position.valuation = none) (hsome : position.insufficient = some reason)
    (hreason : (∃ held need, reason = .notEnoughHistory held need ∧ held < need) ∨
      ∃ c need, reason = .tooManyGaps c need ∧ c < need) : position.Coherent := by
  refine ⟨by rw [hnone, hsome]; rfl, ?_, ?_⟩
  · intro held need h
    obtain rfl := Option.some.inj (hsome.symm.trans h)
    rcases hreason with ⟨_, _, ⟨⟩, hlt⟩ | ⟨_, _, ⟨⟩, -⟩
    exact hlt
  · intro c need h
    obtain rfl := Option.some.inj (hsome.symm.trans h)
    rcases hreason with ⟨_, _, ⟨⟩, -⟩ | ⟨_, _, ⟨⟩, hlt⟩
    exact hlt

variable {observations : List (Millis × Copper)}

variable (F observations coverage) in
/-- Either the evidence is refused, and for the same reason at every price, or every price has its band. -/
theorem of_cases (htails : 1 ≤ gates.tails) :
    (∃ reason, ((∃ held need, reason = Insufficient.notEnoughHistory held need ∧ held < need) ∨
        ∃ c need, reason = .tooManyGaps c need ∧ c < need) ∧
      ∀ price, (Position.of F price (.fromObservations observations) coverage gates).valuation = none ∧
        (Position.of F price (.fromObservations observations) coverage gates).insufficient = some reason) ∨
    ∀ price, ∃ r, (Buckets.fromObservations observations).rankOf price = some r ∧
      (Position.of F price (.fromObservations observations) coverage gates).valuation =
        some (Valuation.ofRank r) ∧
      (Position.of F price (.fromObservations observations) coverage gates).insufficient = none := by
  have hempty : (Buckets.fromObservations []).prices = [] := rfl
  rcases eq_or_ne observations [] with rfl | hne
  · refine .inl ⟨_, .inl ⟨0, gates.tails, rfl, htails⟩, fun price => ?_⟩
    rw [of_nothing hempty]
    exact ⟨rfl, rfl⟩
  · obtain ⟨d, hd⟩ := Distribution.isSome_of F hne
    have hprices := Buckets.prices_ne_nil hne
    have hsorted := Buckets.pairwise_prices observations
    generalize Buckets.fromObservations observations = b at hd hprices hsorted ⊢
    cases hgate : gates.admitBand (b.len % 2 ^ 32) coverage with
    | error reason =>
        refine .inl ⟨reason, ?_, of_refused hd hgate⟩
        rcases Gates.admitBand_error hgate with ⟨rfl, hlt⟩ | ⟨c, -, rfl, hlt⟩
        · exact .inl ⟨_, _, rfl, hlt⟩
        · exact .inr ⟨_, _, rfl, hlt⟩
    | ok done =>
        cases hmedian : gates.admitsMedian (b.len % 2 ^ 32) with
        | false =>
            refine .inl ⟨_, .inl ⟨_, _, rfl, ?_⟩, of_few hd hgate hmedian⟩
            simpa [Gates.admitsMedian] using hmedian
        | true =>
            refine .inr fun price => ?_
            have hr := Buckets.rankOf_eq hsorted hprices price
            exact ⟨_, hr, of_admitted hd hgate hmedian hr⟩

theorem coherent (htails : 1 ≤ gates.tails) (price : Copper) :
    (Position.of F price (.fromObservations observations) coverage gates).Coherent := by
  rcases of_cases F coverage observations htails with ⟨reason, hreason, hrefused⟩ | hbands
  · exact coherent_of_refusal (hrefused price).1 (hrefused price).2 hreason
  · obtain ⟨r, -, hsome, hnone⟩ := hbands price
    refine ⟨by rw [hsome, hnone]; rfl, ?_, ?_⟩
    · intro held need h
      cases hnone.symm.trans h
    · intro c need h
      cases hnone.symm.trans h

/-- On the same evidence either both of two prices have a band or neither, and the dearer has no cheaper
one. -/
theorem valuation_mono (htails : 1 ≤ gates.tails) (hpq : p ≤ q) :
    let at' := fun price => Position.of F price (.fromObservations observations) coverage gates
    (at' p).valuation.isSome = (at' q).valuation.isSome ∧
      ∀ v w, (at' p).valuation = some v → (at' q).valuation = some w → v.place ≤ w.place := by
  dsimp only
  rcases of_cases F coverage observations htails with ⟨reason, -, hrefused⟩ | hbands
  · rw [(hrefused p).1, (hrefused q).1]
    exact ⟨rfl, by rintro v w ⟨⟩⟩
  · obtain ⟨r, hr, hp, -⟩ := hbands p
    obtain ⟨r', hr', hq, -⟩ := hbands q
    rw [hp, hq]
    refine ⟨rfl, ?_⟩
    rintro v w ⟨⟩ ⟨⟩
    exact Valuation.ofRank_mono (Buckets.rankOf_mono (Buckets.pairwise_prices observations) hpq hr hr')

end Position

/-- Rank, band and refusal are one account of where a price stands, over any observations. -/
theorem positions_agree (F : Floating) (observations : List (Millis × Copper)) (coverage : Option Nat)
    (gates : Gates) (htails : 1 ≤ gates.tails) :
    (Buckets.fromObservations observations).Ranks ∧
      (∀ price, (Position.of F price (.fromObservations observations) coverage gates).Coherent) ∧
      ∀ p q, p ≤ q →
        let at' := fun price => Position.of F price (.fromObservations observations) coverage gates
        (at' p).valuation.isSome = (at' q).valuation.isSome ∧
          ∀ v w, (at' p).valuation = some v → (at' q).valuation = some w → v.place ≤ w.place :=
  ⟨Buckets.ranks (Buckets.pairwise_prices observations), Position.coherent htails,
    fun _ _ => Position.valuation_mono htails⟩

/-- A day of hours, each dearer than the one before, under the gates of a card. -/
theorem positions_agree_day :
    let at' := fun price => Position.of ⟨fun prices _ => prices.headD 0, fun _ _ => none⟩ price
      (.fromObservations ((List.range 24).map fun i => (i * hourMs, 100 + i))) (some 90) .default
    (at' 100).valuation = some .veryCheap ∧ (at' 112).valuation = some .typical ∧
      (at' 112).Coherent ∧
      ∀ v w, (at' 100).valuation = some v → (at' 112).valuation = some w → v.place ≤ w.place := by
  intro at'
  obtain ⟨-, hcoherent, hmono⟩ := positions_agree ⟨fun prices _ => prices.headD 0, fun _ _ => none⟩
    ((List.range 24).map fun i => (i * hourMs, 100 + i)) (some 90) .default (by decide)
  exact ⟨by decide, by decide, hcoherent 112, (hmono 100 112 (by decide)).2⟩

end Gavel.Market
