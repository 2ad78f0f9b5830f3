import Gavel.Market.Engine

/-!
# The row of a day

One day of one market in a row of its own: the first and the last price, the extremes and when they were
reached, the means and the quantiles of the hours. A day with too few hours has a row without figures that
says why.
-/

namespace Gavel.Market

open Gavel.Cluster (Millis)

/-- What one snapshot says of a market. -/
structure DayObservation where
  at' : Millis
  price : Nat
  quantity : Nat
  listings : Nat
  deriving DecidableEq

structure DailyRollup where
  openPrice : Nat
  closePrice : Nat
  lowPrice : Nat
  lowAt : Millis
  highPrice : Nat
  highAt : Millis
  meanPrice : Nat
  p05Price : Nat
  p25Price : Nat
  medianPrice : Nat
  p75Price : Nat
  p95Price : Nat
  openQuantity : Nat
  closeQuantity : Nat
  meanQuantity : Nat
  openListings : Nat
  closeListings : Nat
  meanListings : Nat
  samples : Nat
  observedBuckets : Nat
  insufficient : Option String
  insufficientHave : Option Nat
  insufficientNeed : Option Nat
  deriving DecidableEq

/-- The extremes of the prices so far and when they were first reached. -/
structure DayExtremes where
  minPrice : Nat
  minAt : Millis
  maxPrice : Nat
  maxAt : Millis
  samplesCount : Nat
  deriving DecidableEq

namespace DayExtremes

def start : DayExtremes := ⟨maxU64, 0, 0, 0, 0⟩

def note (held : DayExtremes) (o : DayObservation) : DayExtremes :=
  if 0 < o.listings then
    let held := { held with samplesCount := (held.samplesCount + 1) % 2 ^ 32 }
    let held := if o.price < held.minPrice then { held with minPrice := o.price, minAt := o.at' } else held
    if held.maxPrice < o.price then { held with maxPrice := o.price, maxAt := o.at' } else held
  else held

end DayExtremes

/-- A figure of the last observation of each hour, in the order of the hours. -/
def hourlyLast (figure : DayObservation → Nat) (observations : List DayObservation) : List Nat :=
  (observations.foldl (fun m o =>
    if 0 < o.listings then Assoc.alter (o.at' / hourMs) (fun _ => figure o) m else m) []).map Prod.snd

namespace DailyRollup

/-- The row with nothing in it. -/
def default : DailyRollup :=
  ⟨0, 0, 0, 0, 0, 0, 0, 0, 0, 0, 0, 0, 0, 0, 0, 0, 0, 0, 0, 0, none, none, none⟩

/-- A day has 24 hours. -/
def gates : Gates := ⟨8, 12, 25⟩

/-- The text stored for a refusal. -/
def reason : Insufficient → String
  | .notEnoughHistory _ _ => "not enough history"
  | .tooManyGaps _ _ => "too many gaps"

/-- One day of one market. The quotient of a sum and a count is computed in floating point; it is
`mean`. -/
def compute (F : Floating) (mean : Nat → Nat → Nat) (observations : List DayObservation) : DailyRollup :=
  if observations.isEmpty then { default with insufficient := some "No observations" }
  else
    let extremes := observations.foldl DayExtremes.note DayExtremes.start
    let priceBuckets := Buckets.fromObservations
      ((observations.filter fun o => 0 < o.listings).map fun o => (o.at', o.price))
    let quantities := hourlyLast DayObservation.quantity observations
    let listings := hourlyLast DayObservation.listings observations
    let prices := hourlyLast DayObservation.price observations
    let meanOf (values : List Nat) : Nat := mean (values.sum % 2 ^ 64) values.length
    if prices.isEmpty then { default with insufficient := some "No active listings" }
    else
      let rollup := { default with
        samples := extremes.samplesCount
        observedBuckets := prices.length % 2 ^ 32 }
      match gates.admitBand rollup.observedBuckets (some (rollup.observedBuckets * 100 % 2 ^ 32 / 24)) with
      | .error e =>
          { rollup with
            insufficient := some (reason e)
            insufficientHave := some rollup.observedBuckets
            insufficientNeed := some gates.median }
      | .ok () =>
          let rollup := { rollup with
            openPrice := prices.headD 0
            closePrice := prices.getLastD 0
            lowPrice := extremes.minPrice
            lowAt := extremes.minAt
            highPrice := extremes.maxPrice
            highAt := extremes.maxAt
            meanPrice := meanOf prices
            openQuantity := quantities.headD 0
            closeQuantity := quantities.getLastD 0
            meanQuantity := meanOf quantities
            openListings := listings.headD 0
            closeListings := listings.getLastD 0
            meanListings := meanOf listings }
          match Distribution.of F priceBuckets with
          | some d =>
              { rollup with
                p05Price := d.p05
                p25Price := d.p25
                medianPrice := d.median
                p75Price := d.p75
                p95Price := d.p95 }
          | none => rollup

end DailyRollup

end Gavel.Market
