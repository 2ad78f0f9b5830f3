import Gavel.Lib.Assoc
import Gavel.Market.Engine

/-!
# The summary of a series of observations

Everything an item page shows, as one function of the observations and of the present instant.
-/

namespace Gavel.Market

open Gavel.Cluster (Millis)

/-- Change over a period. -/
structure Trend where
  since : Copper
  to' : Copper
  percent : Int
  known : Bool
  deriving DecidableEq

namespace Trend

def unknown : Trend := ⟨0, 0, 0, false⟩

def between (since to' : Copper) : Trend :=
  { since
    to'
    percent :=
      if since = 0 then 0 else asI32 (Int.tdiv (((to' : Int) - since) * 100) since)
    known := true }

end Trend

/-- Average price in one bucket of a repeating cycle. -/
structure Cycle where
  bucket : Nat
  mean : Copper
  samples : Nat
  deriving DecidableEq

structure ItemAnalysis where
  current : Option Point
  low : Option Point
  high : Option Point
  mean : Copper
  median : Copper
  samples : Nat
  firstSeen : Option Millis
  day : Trend
  week : Trend
  month : Trend
  volatilityPercent : Nat
  byHour : List Cycle
  byWeekday : List Cycle
  bestHour : Option Nat
  bestWeekday : Option Nat
  series : List Point
  deriving DecidableEq

/-- Compare the newest price against the oldest one still inside the window. -/
def trendOver (points : List Point) (now : Millis) (windowMs : Nat) : Trend :=
  match points.getLast? with
  | none => .unknown
  | some newest =>
      match points.find? (now - windowMs ≤ ·.at') with
      | some oldest =>
          if oldest.at' ≠ newest.at' then .between oldest.price newest.price else .unknown
      | none => .unknown

def hourOfDay (at' : Millis) : Nat := at' / hourMs % 24

/-- Monday is 0; the epoch was a Thursday. -/
def weekday (at' : Millis) : Nat := (at' / dayMs + 3) % 7

def cycle (points : List Point) (buckets : Nat) (key : Millis → Nat) : List Cycle :=
  let totals := points.foldl (fun m p => Assoc.alter (key p.at') (fun held =>
    ((held.getD (0, 0)).1 + p.price, (held.getD (0, 0)).2 + 1)) m) []
  (List.range buckets).map fun bucket =>
    match Assoc.find bucket totals with
    | some (sum, count) => if 0 < count then ⟨bucket, sum / count, count⟩ else ⟨bucket, 0, 0⟩
    | none => ⟨bucket, 0, 0⟩

/-- The cheapest bucket, once every bucket has been observed a few times. -/
def cheapestBucket (cycles : List Cycle) : Option Nat :=
  if cycles.any (·.samples < 3) then none
  else (minBy Cycle.mean (cycles.filter (0 < ·.mean))).map Cycle.bucket

/-- Reduce observations to everything the item page needs. -/
def analyse (samples : List PriceSample) (now : Millis) : ItemAnalysis :=
  let points := sortBy Point.at'
    (samples.map fun s => ⟨s.observedAt, s.p05UnitPrice, s.quantity⟩)
  if points.isEmpty then
    ⟨none, none, none, 0, 0, 0, none, .unknown, .unknown, .unknown, 0, [], [], none, none, []⟩
  else
    let low := minBy Point.price points
    let high := maxBy Point.price points
    let mean := (points.map Point.price).sum / points.length
    let sorted := sortBy id (points.map Point.price)
    { current := points.getLast?
      low
      high
      mean
      median := (sorted[sorted.length / 2]?).getD 0
      samples := points.length
      firstSeen := points.head?.map Point.at'
      day := trendOver points now dayMs
      week := trendOver points now (7 * dayMs)
      month := trendOver points now (30 * dayMs)
      volatilityPercent :=
        match low, high with
        | some l, some h => if 0 < mean then (h.price - l.price) * 100 / mean % 2 ^ 32 else 0
        | _, _ => 0
      byHour := cycle points 24 hourOfDay
      byWeekday := cycle points 7 weekday
      bestHour := cheapestBucket (cycle points 24 hourOfDay)
      bestWeekday := cheapestBucket (cycle points 7 weekday)
      series := points }

/-- Reduce a series to at most `target` points, keeping the cheapest of each stretch. -/
def downsample (points : List Point) (target : Nat) : List Point :=
  if points.length ≤ target ∨ target = 0 then points
  else
    (List.range target).filterMap fun bucket =>
      let start := bucket * points.length / target
      let stop := max ((bucket + 1) * points.length / target) (start + 1)
      minBy Point.price ((points.take stop).drop start)

end Gavel.Market
