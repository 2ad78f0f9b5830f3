import Gavel.Lib.Assoc
import Gavel.Market.Basic

/-!
# The statistics of one market

One price for every hour, the five-number summary over these, where a price stands among them and
whether there is evidence enough to say so. The interpolation between two order statistics and the
correlation of two series of ranks are computed in floating point by the program; here they are given
by `Floating`, and everything around them is as the program has it.
-/

namespace Gavel.Market

open Gavel.Cluster (Millis)

/-- The reductions that are computed in floating point. -/
structure Floating where
  /-- The quantile at a percentage, interpolated between two of at least two sorted prices. -/
  interpolate : List Nat → Nat → Nat
  /-- The rank correlation of two series in percent, if neither is constant. -/
  rho : List Nat → List Nat → Option Int

/-- A market's prices, one for each hour that holds an observation, in ascending order. -/
structure Buckets where
  prices : List Nat
  deriving DecidableEq

namespace Buckets

/-- Keep the later of two observations of one hour, the second where both are of one instant. -/
def keep (o : Millis × Copper) : Option (Millis × Copper) → Millis × Copper
  | none => o
  | some held => if held.1 ≤ o.1 then o else held

/-- Reduce observations to one price an hour: the last of each. -/
def fromObservations (observations : List (Millis × Copper)) : Buckets :=
  let latest := observations.foldl (fun m o => Assoc.alter (o.1 / hourMs) (keep o) m) []
  ⟨sortBy id (latest.map fun e => e.2.2)⟩

def len (b : Buckets) : Nat := b.prices.length

/-- The sample quantile at a percentage. -/
def quantile (F : Floating) (b : Buckets) (percent : Nat) : Option Copper :=
  match b.prices with
  | [] => none
  | [price] => some price
  | prices => some (F.interpolate prices percent)

/-- Where a price sits in the history, ties taking the middle of what they tie over. -/
def rankOf (b : Buckets) (price : Copper) : Option Nat :=
  if b.prices.isEmpty then none
  else
    let below := (b.prices.takeWhile (· < price)).length
    let atOrBelow := (b.prices.takeWhile (· ≤ price)).length
    some (min ((below + atOrBelow) * 100 / (2 * b.prices.length)) 100)

end Buckets

/-- The five-number summary and two robust spreads. -/
structure Distribution where
  p05 : Copper
  p25 : Copper
  median : Copper
  p75 : Copper
  p95 : Copper
  iqr : Copper
  mad : Copper
  buckets : Nat
  deriving DecidableEq

/-- The distance between two numbers. -/
def absDiff (a b : Nat) : Nat := (a - b) + (b - a)

def Distribution.of (F : Floating) (b : Buckets) : Option Distribution := do
  let median ← b.quantile F 50
  let p25 ← b.quantile F 25
  let p75 ← b.quantile F 75
  let deviations := sortBy id (b.prices.map (absDiff · median))
  let mad ← Buckets.quantile F ⟨deviations⟩ 50
  let p05 ← b.quantile F 5
  let p95 ← b.quantile F 95
  return { p05, p25, median, p75, p95, iqr := p75 - p25, mad, buckets := b.len % 2 ^ 32 }

/-- The valuation bands. -/
inductive Valuation where
  | veryCheap | cheap | typical | expensive | veryExpensive
  deriving DecidableEq

def Valuation.ofRank (rank : Nat) : Valuation :=
  if rank ≤ 5 then .veryCheap
  else if rank ≤ 25 then .cheap
  else if rank ≤ 75 then .typical
  else if rank ≤ 95 then .expensive
  else .veryExpensive

/-- Whether a price is far from the body of the distribution. -/
inductive Anomaly where
  | ordinary | mild | extreme
  deriving DecidableEq

def Anomaly.of (price : Copper) (d : Distribution) : Anomaly :=
  let iqr : Int := d.iqr
  if iqr = 0 then .ordinary
  else
    let beyond (factor : Int) : Bool :=
      (price : Int) < d.p25 - Int.tdiv (factor * iqr) 2 ∨ d.p75 + Int.tdiv (factor * iqr) 2 < price
    if beyond 6 then .extreme
    else if beyond 3 then .mild
    else .ordinary

/-- The range of the prices as a percentage of their mean. -/
def swingOf (b : Buckets) : Nat :=
  match b.prices.head?, b.prices.getLast? with
  | some low, some high =>
      let mean := b.prices.sum / b.prices.length
      if mean = 0 then 0 else (high - low) * 100 / mean % 2 ^ 32
  | _, _ => 0

/-- Why a market has no valuation to show. -/
inductive Insufficient where
  | notEnoughHistory (have' need : Nat)
  | tooManyGaps (coverage need : Nat)
  deriving DecidableEq

/-- How many hours, and what share of the window, a statement needs behind it. -/
structure Gates where
  median : Nat
  tails : Nat
  coverage : Nat
  deriving DecidableEq

namespace Gates

def default : Gates := ⟨12, 24, 25⟩

/-- Whether this evidence supports a band, and why not when it does not. -/
def admitBand (g : Gates) (buckets : Nat) (coverage : Option Nat) : Except Insufficient Unit :=
  if buckets < g.tails then .error (.notEnoughHistory buckets g.tails)
  else
    match coverage with
    | some coverage =>
        if coverage < g.coverage then .error (.tooManyGaps coverage g.coverage) else .ok ()
    | none => .ok ()

def admitsMedian (g : Gates) (buckets : Nat) : Bool := g.median ≤ buckets

end Gates

/-- A number as a signed 32-bit one. -/
def asI32 (n : Int) : Int := Int.bmod n (2 ^ 32)

/-- Where one price sits in one market's history. -/
structure Position where
  rank : Option Nat
  valuation : Option Valuation
  insufficient : Option Insufficient
  fromMedianPercent : Option Int
  anomaly : Anomaly
  deriving DecidableEq

def Position.of (F : Floating) (price : Copper) (b : Buckets) (coverage : Option Nat)
    (gates : Gates) : Position :=
  let held := b.len % 2 ^ 32
  match Distribution.of F b with
  | none =>
      { rank := none
        valuation := none
        insufficient := some (.notEnoughHistory 0 gates.tails)
        fromMedianPercent := none
        anomaly := .ordinary }
  | some d =>
      let rank := if gates.admitsMedian held then b.rankOf price else none
      let admitted := gates.admitBand held coverage
      { rank
        valuation :=
          match admitted, rank with
          | .ok (), some rank => some (Valuation.ofRank rank)
          | _, _ => none
        insufficient :=
          match admitted, rank with
          | .ok (), none => some (.notEnoughHistory held gates.median)
          | .ok (), some _ => none
          | .error reason, _ => some reason
        fromMedianPercent :=
          if gates.admitsMedian held then
            some (if d.median = 0 then 0
              else asI32 (Int.tdiv (((price : Int) - d.median) * 100) d.median))
          else none
        anomaly := Anomaly.of price d }

/-! ## Slots of equal duration -/

/-- The slot of an offset into a span. -/
def slotOf (slots span offset : Nat) : Nat := min (offset * slots % 2 ^ 64 / span) (slots - 1)

/-- Put an observation into its slot unless a later one is held there. -/
def place {α : Type} (instant : α → Millis) (slots : Nat) (since until' : Millis)
    (held : List (Option α)) (o : α) : List (Option α) :=
  if instant o < since ∨ until' < instant o then held
  else
    held.modify (slotOf slots (until' - since) (instant o - since)) fun
      | some h => if instant o < instant h then some h else some o
      | none => some o

/-- The last observation of each slot. -/
def slotted {α : Type} (instant : α → Millis) (slots : Nat) (since until' : Millis)
    (observations : List α) : List (Option α) :=
  observations.foldl (place instant slots since until') (List.replicate slots none)

/-- Slots in a card's sparkline. -/
def sparkSlots : Nat := 16

/-- The shape of a window: one price for each slot, gaps kept. -/
structure Spark where
  slots : List (Option Copper)
  deriving DecidableEq

def Spark.over (observations : List (Millis × Copper)) (since until' : Millis) : Spark :=
  if until' - since = 0 then ⟨[]⟩
  else ⟨(slotted Prod.fst sparkSlots since until' observations).map (Option.map Prod.snd)⟩

/-- The stored form: one value for each slot, empty for a gap. -/
def Spark.encode (spark : Spark) : Text := [','].intercalate (spark.slots.map Text.field)

/-- Read back the stored form. A field that is no number is a gap. -/
def Spark.decode (raw : Text) : Spark :=
  if raw.isEmpty then ⟨[]⟩
  else ⟨((raw.splitOn ',').take sparkSlots).map (Text.parseNat maxU64)⟩

end Gavel.Market
