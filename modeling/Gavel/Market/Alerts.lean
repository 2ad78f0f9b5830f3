import Gavel.Market.Engine

/-!
# Alerts

When a price is low: against the hours before it, or against a floor of its own where there is one. Thin
markets are not looked at.
-/

namespace Gavel.Market

open Gavel.Cluster (Millis)

inductive AlertSeverity where
  | low | veryLow
  deriving DecidableEq

structure AlertRule where
  lookbackMs : Nat
  percentile : Nat
  /-- The hours it takes to compare with them. -/
  minSamples : Nat
  minQuantity : Nat
  cooldownMs : Nat
  deriving DecidableEq

def AlertRule.default : AlertRule :=
  { lookbackMs := 14 * dayMs
    percentile := 10
    minSamples := 48
    minQuantity := 20
    cooldownMs := 6 * hourMs }

structure Alert where
  item : ItemId
  region : Region
  severity : AlertSeverity
  observedAt : Millis
  current : Copper
  /-- What it usually costs. -/
  baseline : Copper
  threshold : Copper
  discountPercent : Nat
  quantity : Nat
  deriving DecidableEq

namespace Alert

def build (current : PriceSample) (threshold baseline : Copper) (severity : AlertSeverity) : Alert :=
  { item := current.item
    region := current.region
    severity
    observedAt := current.observedAt
    current := current.p05UnitPrice
    baseline
    threshold
    discountPercent :=
      if baseline = 0 then 0
      else min ((baseline - current.p05UnitPrice) * 100 % 2 ^ 64 / baseline) 100
    quantity := current.quantity }

/-- The hours of a history that are looked back at. -/
def window (rule : AlertRule) (current : PriceSample) (history : List PriceSample) : Buckets :=
  Buckets.fromObservations
    ((history.filter fun s => current.observedAt - s.observedAt ≤ rule.lookbackMs).map fun s =>
      (s.observedAt, s.p05UnitPrice))

/-- Compare a price with the hours before it. -/
def evaluateWindow (F : Floating) (rule : AlertRule) (current : PriceSample) (window : Buckets) :
    Option Alert := do
  if window.len < rule.minSamples then none
  else
    let threshold ← window.quantile F rule.percentile
    if threshold < current.p05UnitPrice then none
    else
      let baseline ← window.quantile F 50
      let severe ← window.quantile F (max (rule.percentile / 2) 1)
      return build current threshold baseline
        (if current.p05UnitPrice ≤ severe then .veryLow else .low)

/-- Evaluate one item against its own history and its floor. -/
def evaluate (F : Floating) (rule : AlertRule) (current : PriceSample) (history : List PriceSample)
    (floor : Option Copper) : Option Alert :=
  if current.quantity < rule.minQuantity then none
  else
    match floor.filter (current.p05UnitPrice ≤ ·) with
    | some floor => some (build current floor floor .veryLow)
    | none => evaluateWindow F rule current (window rule current history)

/-- What a sample has to do with an alert that is raised on it. -/
structure On (a : Alert) (s : PriceSample) : Prop where
  item : a.item = s.item
  region : a.region = s.region
  observedAt : a.observedAt = s.observedAt
  current : a.current = s.p05UnitPrice
  quantity : a.quantity = s.quantity

/-- An alert is of a market that is not thin, at a price that is not over its threshold. -/
structure Justified (rule : AlertRule) (a : Alert) : Prop where
  quantity : rule.minQuantity ≤ a.quantity
  price : a.current ≤ a.threshold

variable {F : Floating} {rule : AlertRule} {current : PriceSample} {history : List PriceSample}
  {floor : Option Copper} {window : Buckets} {a : Alert}

theorem on_build (current : PriceSample) (threshold baseline : Copper) (severity : AlertSeverity) :
    (build current threshold baseline severity).On current := ⟨rfl, rfl, rfl, rfl, rfl⟩

theorem evaluateWindow_spec (h : evaluateWindow F rule current window = some a) :
    a.On current ∧ a.current ≤ a.threshold := by
  unfold evaluateWindow at h
  split at h
  · cases h
  · obtain ⟨threshold, -, h⟩ := Option.bind_eq_some_iff.mp h
    split at h
    · cases h
    · rename_i hprice
      obtain ⟨baseline, -, h⟩ := Option.bind_eq_some_iff.mp h
      obtain ⟨severe, -, h⟩ := Option.bind_eq_some_iff.mp h
      obtain rfl := Option.some.inj h
      exact ⟨on_build _ _ _ _, Nat.not_lt.mp hprice⟩

theorem evaluate_spec (h : evaluate F rule current history floor = some a) :
    a.On current ∧ a.Justified rule := by
  unfold evaluate at h
  split at h
  · cases h
  · rename_i hquantity
    have hthick : rule.minQuantity ≤ current.quantity := Nat.not_lt.mp hquantity
    split at h
    · rename_i floor' hfloor
      obtain rfl := Option.some.inj h
      have hprice : current.p05UnitPrice ≤ floor' := of_decide_eq_true (Option.filter_eq_some_iff.mp hfloor).2
      exact ⟨on_build _ _ _ _, hthick, hprice⟩
    · obtain ⟨hon, hprice⟩ := evaluateWindow_spec h
      exact ⟨hon, hon.quantity ▸ hthick, hprice⟩

end Alert

end Gavel.Market
