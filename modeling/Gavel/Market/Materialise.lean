import Gavel.Market.Analysis
import Gavel.Market.Catalog
import Gavel.Market.Correlate
import Gavel.Market.Series

/-!
# Turning a history into the rows a page reads

The reduction of one commodity market: its state now and its summary over every window that holds an
observation.
-/

namespace Gavel.Market

open Gavel.Cluster (Millis)

/-- Points kept in a stored chart series. -/
def chartPoints : Nat := 120

/-- One market's current state and its whole summary. -/
structure MarketState where
  key : MarketKey
  observedAt : Option Millis
  price : Copper
  minPrice : Copper
  medianPrice : Copper
  quantity : Nat
  listings : Nat
  firstSeen : Option Millis
  samples : Nat
  mean : Copper
  median : Copper
  low : Copper
  lowAt : Millis
  high : Copper
  highAt : Millis
  volatilityPercent : Nat
  day : Trend
  week : Trend
  month : Trend
  byHour : List Cycle
  byWeekday : List Cycle
  bestHour : Option Nat
  bestWeekday : Option Nat
  series : List Point
  ladder : Ladder
  depth : Option Depth
  heatmap : Heatmap
  stockAssociation : Option Association
  swings : Swings
  stability : Option Stability
  deriving DecidableEq

/-- One market over one interval. -/
structure MarketWindow where
  key : MarketKey
  window : Window
  low : Copper
  lowAt : Millis
  high : Copper
  highAt : Millis
  mean : Copper
  distribution : Distribution
  position : Position
  swing : Nat
  spark : Spark
  series : ChartSeries
  histogram : Option Histogram
  samples : Nat
  firstAt : Millis
  lastAt : Millis
  expectedBuckets : Option Nat
  observedBuckets : Nat
  largestGapMs : Nat
  deriving DecidableEq

/-- Everything one market's history produces. -/
structure Materialised where
  state : MarketState
  windows : List MarketWindow
  deriving DecidableEq

/-- The part of a history inside an interval, in time order. -/
def inside (history : List PriceSample) (since : Millis) (until' : Option Millis) :
    List PriceSample :=
  sortBy PriceSample.observedAt
    (history.filter fun s => since ≤ s.observedAt ∧ s.observedAt < until'.getD maxU64)

/-- The longest run with no observation, between the first and the last one. -/
def largestGap (inside : List PriceSample) : Nat :=
  ((inside.zip inside.tail).map fun pair => pair.2.observedAt - pair.1.observedAt).foldl max 0

/-- The hours that hold an observation. -/
def hoursOf (inside : List PriceSample) : Nat :=
  (inside.map fun s => s.observedAt / hourMs).dedup.length

/-- The share of the hours a market has existed inside the window that were observed. -/
def coverageOf (first : PriceSample) (inside : List PriceSample) (since : Millis)
    (until' : Option Millis) (now : Millis) : Option Nat :=
  let livedHours := (until'.getD now - max since first.observedAt + (hourMs - 1)) / hourMs
  if 0 < livedHours then some (min (hoursOf inside * 100 / livedHours) 100 % 2 ^ 32) else none

/-- One market over an interval that is already dated, if the interval holds an observation. -/
def summariseOver (F : Floating) (key : MarketKey) (window : Window) (history : List PriceSample)
    (current : Option Copper) (since : Millis) (until' : Option Millis) (expected : Option Nat)
    (now : Millis) : Option MarketWindow := do
  let inside := inside history since until'
  let first ← inside.head?
  let last ← inside.getLast?
  let prices := inside.map PriceSample.p05UnitPrice
  let cheapest ← prices.min?
  let dearest ← prices.max?
  let low ← inside.find? (·.p05UnitPrice = cheapest)
  let high ← inside.find? (·.p05UnitPrice = dearest)
  let observations := inside.map fun s => (s.observedAt, s.p05UnitPrice)
  let buckets := Buckets.fromObservations observations
  let distribution ← Distribution.of F buckets
  let drawnFrom := if since = 0 then first.observedAt else since
  return {
    key
    window
    low := low.p05UnitPrice
    lowAt := low.observedAt
    high := high.p05UnitPrice
    highAt := high.observedAt
    mean := prices.sum / prices.length
    distribution
    position := Position.of F (current.getD distribution.median) buckets
      (coverageOf first inside since until' now) Gates.default
    swing := swingOf buckets
    spark := Spark.over observations drawnFrom (until'.getD now)
    series := ChartSeries.over F
      (inside.map fun s => ⟨s.observedAt, s.p05UnitPrice, s.quantity, s.listings⟩)
      drawnFrom (until'.getD now)
    histogram := Histogram.of buckets
    samples := inside.length % 2 ^ 32
    firstAt := first.observedAt
    lastAt := last.observedAt
    expectedBuckets := expected
    observedBuckets := hoursOf inside % 2 ^ 32
    largestGapMs := largestGap inside }

/-- One market over one window, or nothing when the window holds nothing. -/
def summarise (F : Floating) (key : MarketKey) (window : Window) (history : List PriceSample)
    (current : Option Copper) (catalog : Catalog) (now : Millis) : Option MarketWindow := do
  let (since, until') ← window.bounds catalog now
  summariseOver F key window history current since until' (window.expectedBuckets catalog now) now

/-- The state of one commodity market, for a buyer of `target` units. -/
def stateOf (F : Floating) (key : MarketKey) (history : List PriceSample) (ladder : Ladder)
    (target : Target) (now : Millis) : MarketState :=
  let analysis := analyse history now
  let newest := maxBy PriceSample.observedAt history
  let ordered := sortBy PriceSample.observedAt history
  let prices := ordered.map PriceSample.p05UnitPrice
  { key
    observedAt := newest.map PriceSample.observedAt
    price := (newest.map PriceSample.p05UnitPrice).getD 0
    minPrice := (newest.map PriceSample.minUnitPrice).getD 0
    medianPrice := (newest.map PriceSample.medianUnitPrice).getD 0
    quantity := (newest.map PriceSample.quantity).getD 0
    listings := (newest.map PriceSample.listings).getD 0
    firstSeen := analysis.firstSeen
    samples := analysis.samples % 2 ^ 32
    mean := analysis.mean
    median := analysis.median
    low := (analysis.low.map Point.price).getD 0
    lowAt := (analysis.low.map Point.at').getD 0
    high := (analysis.high.map Point.price).getD 0
    highAt := (analysis.high.map Point.at').getD 0
    volatilityPercent := analysis.volatilityPercent
    day := analysis.day
    week := analysis.week
    month := analysis.month
    byHour := analysis.byHour
    byWeekday := analysis.byWeekday
    bestHour := analysis.bestHour
    bestWeekday := analysis.bestWeekday
    series := downsample analysis.series chartPoints
    depth := Depth.of ladder target
    ladder
    heatmap := Heatmap.of F (history.map fun s => (s.observedAt, s.p05UnitPrice))
    stockAssociation := Association.of F prices (ordered.map PriceSample.quantity)
    swings := Swings.of prices
    stability := Stability.of F prices }

/-- Reduce one commodity market. -/
def commodity (F : Floating) (key : MarketKey) (history : List PriceSample) (ladder : Ladder)
    (catalog : Catalog) (windows : List Window) (now : Millis) : Materialised :=
  let state := stateOf F key history ladder ((catalog.targetOf key.item).getD ⟨1⟩) now
  { state
    windows := windows.filterMap fun window =>
      summarise F key window history (some state.price) catalog now }

end Gavel.Market
