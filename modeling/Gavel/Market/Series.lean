import Gavel.Market.Engine

/-!
# Chart series and histograms

A market's chart over one window at a fixed number of slots, with a rolling band around the
observations, and how its prices are distributed.
-/

namespace Gavel.Market

open Gavel.Cluster (Millis)

/-- Slots in a stored chart series. -/
def resolution : Nat := 96

/-- Slots the rolling band looks back over. -/
def rollingSlots : Nat := 12

/-- One slot of a chart series. -/
structure ChartPoint where
  at' : Millis
  price : Copper
  median : Copper
  p25 : Copper
  p75 : Copper
  quantity : Nat
  listings : Nat
  observed : Bool
  deriving DecidableEq

/-- One market's chart over one window. -/
structure ChartSeries where
  since : Millis
  until' : Millis
  points : List ChartPoint
  deriving DecidableEq

/-- What the reduction of a chart needs of an observation. -/
structure Observation where
  at' : Millis
  price : Copper
  quantity : Nat
  listings : Nat
  deriving DecidableEq

namespace ChartSeries

/-- The point of one slot, with the band over the trailing slots that hold something. -/
def point (F : Floating) (since span : Nat) (slots : List (Option Observation)) (index : Nat)
    (slot : Option Observation) : ChartPoint :=
  let instant := since + span * index % 2 ^ 64 / resolution
  let start := index - (rollingSlots - 1)
  let trailing := Buckets.fromObservations
    ((((slots.take (index + 1)).drop start).filterMap id).map fun o => (o.at', o.price))
  match slot with
  | some o =>
      { at' := instant
        price := o.price
        median := (trailing.quantile F 50).getD o.price
        p25 := (trailing.quantile F 25).getD o.price
        p75 := (trailing.quantile F 75).getD o.price
        quantity := o.quantity
        listings := o.listings
        observed := true }
  | none => ⟨instant, 0, 0, 0, 0, 0, 0, false⟩

/-- Reduce observations to the slots of `[since, until']`. -/
def «over» (F : Floating) (observations : List Observation) (since until' : Millis) : ChartSeries :=
  let span := until' - since
  if span = 0 then ⟨0, 0, []⟩
  else
    let slots := slotted Observation.at' resolution since until' observations
    { since
      until'
      points := slots.mapIdx (point F since span slots) }

/-- Slots that hold an observation. -/
def observed (c : ChartSeries) : Nat := c.points.countP ChartPoint.observed

/-- The record of one slot, empty for a gap. -/
def encodePoint (p : ChartPoint) : Text :=
  if p.observed then
    [','].intercalate ([p.price, p.median, p.p25, p.p75, p.quantity, p.listings].map Text.decimal)
  else []

/-- The stored form: the span, then one record for each slot. -/
def encode (c : ChartSeries) : Text :=
  if c.points.isEmpty then []
  else
    [';'].intercalate ((Text.decimal c.since ++ ',' :: Text.decimal c.until') :: c.points.map encodePoint)

/-- Read one record of `total`. What is no record is a gap. -/
def decodePoint (since span total index : Nat) (raw : Text) : ChartPoint :=
  let instant := since + span * index % 2 ^ 64 / total
  match (raw.splitOn ',').map (Text.parseNat maxU64) with
  | some price :: some median :: some p25 :: some p75 :: some quantity :: some listings :: _ =>
      ⟨instant, price, median, p25, p75, quantity, listings % 2 ^ 32, true⟩
  | _ => ⟨instant, 0, 0, 0, 0, 0, 0, false⟩

/-- Read back the stored form, restoring the instant of each slot from the span. -/
def decode (raw : Text) : ChartSeries :=
  match raw.splitOn ';' with
  | [] => ⟨0, 0, []⟩
  | header :: slots =>
      match (header.splitOn ',').map (Text.parseNat maxU64) with
      | some since :: some until' :: _ =>
          if slots.isEmpty then ⟨0, 0, []⟩
          else ⟨since, until', slots.mapIdx (decodePoint since (until' - since) slots.length)⟩
      | _ => ⟨0, 0, []⟩

end ChartSeries

/-- Bins of a histogram. -/
def bins : Nat := 21

/-- How the prices of a window were distributed. -/
structure Histogram where
  lo : Copper
  hi : Copper
  bins : List Nat
  deriving DecidableEq

namespace Histogram

/-- The bin of a price between the least and the greatest. -/
def binAt (lo hi price : Nat) : Nat :=
  min (if hi = lo then Market.bins / 2 else (price - lo) * (Market.bins - 1) / (hi - lo))
    (Market.bins - 1)

def «of» (b : Buckets) : Option Histogram := do
  let lo ← b.prices.head?
  let hi ← b.prices.getLast?
  return {
    lo
    hi
    bins := b.prices.foldl (fun held price => held.modify (binAt lo hi price) (· + 1))
      (List.replicate Market.bins 0) }

/-- Which bin a price falls in, if it lies in the range. -/
def binOf (h : Histogram) (price : Copper) : Option Nat :=
  if price < h.lo ∨ h.hi < price then none
  else if h.hi = h.lo then some (Market.bins / 2)
  else some (min ((price - h.lo) * (Market.bins - 1) / (h.hi - h.lo)) (Market.bins - 1))

def isEmpty (h : Histogram) : Bool := h.bins.all (· = 0)

/-- The stored form: the range, then one count for each bin. -/
def encode (h : Histogram) : Text :=
  if h.isEmpty then [] else [','].intercalate ((h.lo :: h.hi :: h.bins).map Text.decimal)

def decode (raw : Text) : Option Histogram :=
  match raw.splitOn ',' with
  | lo :: hi :: counts => do
      let lo ← Text.parseNat maxU64 lo
      let hi ← Text.parseNat maxU64 hi
      let bins := counts.map fun count => (Text.parseNat maxU32 count).getD 0
      if bins.length = Market.bins then some ⟨lo, hi, bins⟩ else none
  | _ => none

end Histogram

end Gavel.Market
