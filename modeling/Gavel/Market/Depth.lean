import Gavel.Lib.Assoc
import Gavel.Lib.Interpolate
import Gavel.Market.Basic

/-!
# Ladders and depth

A market's supply at one instant, grouped by price and cheapest first, and what it costs to buy a
given number of units from it.
-/

namespace Gavel.Market

/-- A price, the units offered at it, and the units at it and every cheaper one. -/
structure Step where
  price : Copper
  quantity : Nat
  cumulative : Nat
  deriving DecidableEq

/-- A market's supply at one instant, cheapest first. -/
structure Ladder where
  steps : List Step
  deriving DecidableEq

/-- What a sweep of the ladder costs. -/
structure Fill where
  wanted : Nat
  filled : Nat
  complete : Bool
  totalCost : Copper
  averageUnit : Copper
  clearingPrice : Copper
  impactPercent : Nat
  deriving DecidableEq

/-- A rung holding an unusual share of the supply. -/
structure Wall where
  price : Copper
  quantity : Nat
  sharePercent : Nat
  deriving DecidableEq

/-- Below this many rungs a ladder is sparse. -/
def sparseSteps : Nat := 5

/-- The share of the supply, in percent, that makes a rung a wall. -/
def wallShare : Nat := 20

namespace Ladder

/-- No supply. -/
def empty : Ladder := ⟨[]⟩

/-- Add units at a price to the units by price, in ascending order. -/
def addAt (price quantity : Nat) : List (Nat × Nat) → List (Nat × Nat) :=
  Assoc.alter price fun held => held.getD 0 + quantity

/-- Steps with their running sum. -/
def stepsFrom (cumulative : Nat) : List (Nat × Nat) → List Step
  | [] => []
  | (price, quantity) :: rest =>
      ⟨price, quantity, cumulative + quantity⟩ :: stepsFrom (cumulative + quantity) rest

/-- The ladder of units by price. -/
def ofUnits (units : List (Nat × Nat)) : Ladder := ⟨stepsFrom 0 units⟩

/-- Group listings by price, cheapest first. -/
def «of» (listings : List Listing) : Ladder :=
  ofUnits (listings.foldl (fun units listing =>
    if listing.quantity = 0 then units else addAt listing.unitPrice listing.quantity units) [])

/-- One ladder from several, by pooling the units at each price. -/
def merged (ladders : List Ladder) : Ladder :=
  ofUnits (ladders.foldl (fun units ladder =>
    ladder.steps.foldl (fun units step => addAt step.price step.quantity units) units) [])

def isEmpty (l : Ladder) : Bool := l.steps.isEmpty

/-- Every unit on offer. -/
def total (l : Ladder) : Nat := (l.steps.getLast?.map Step.cumulative).getD 0

def cheapest (l : Ladder) : Option Copper := l.steps.head?.map Step.price

def dearest (l : Ladder) : Option Copper := l.steps.getLast?.map Step.price

def levels (l : Ladder) : Nat := l.steps.length

def isSparse (l : Ladder) : Bool := l.steps.length < sparseSteps

/-- Units offered at or below a price. -/
def quantityUpto (l : Ladder) (price : Copper) : Nat :=
  ((l.steps.takeWhile (·.price ≤ price)).getLast?.map Step.cumulative).getD 0

/-- Units offered within `percent` of the cheapest price. -/
def quantityWithin (l : Ladder) (percent : Nat) : Option Nat :=
  l.cheapest.map fun cheapest =>
    l.quantityUpto (min (cheapest * (100 + percent) / 100) maxU64)

/-- The price at which `percent` of the listed supply has been consumed. -/
def supplyPercentile (l : Ladder) (percent : Nat) : Option Copper :=
  if l.isSparse || l.total = 0 then none
  else
    let target := max ((l.total * percent % 2 ^ 64 + 99) / 100) 1
    match l.steps.find? (target ≤ ·.cumulative) with
    | some step => some step.price
    | none => l.dearest

/-- Take what is still wanted from a rung: the units taken so far, their cost and the last price. -/
def take (wanted : Nat) (acc : Nat × Nat × Copper) (step : Step) : Nat × Nat × Copper :=
  let (filled, cost, clearing) := acc
  if wanted ≤ filled then (filled, cost, clearing)
  else
    let units := min step.quantity (wanted - filled)
    (filled + units, cost + units * step.price, step.price)

/-- What it costs to buy `wanted` units, walking the ladder from the cheapest rung up. -/
def fill (l : Ladder) (wanted : Nat) : Fill :=
  let cheapest := l.cheapest.getD 0
  let (filled, cost, clearing) := l.steps.foldl (take wanted) (0, 0, cheapest)
  let average := if filled = 0 then 0 else cost / filled
  { wanted
    filled
    complete := filled = wanted
    totalCost := min cost maxU64
    averageUnit := average
    clearingPrice := clearing
    impactPercent :=
      if cheapest = 0 ∨ filled = 0 then 0
      else (Int.tdiv ((average - cheapest : Int) * 100) cheapest % 2 ^ 32).toNat }

/-- Rungs holding an unusual share of the whole ladder. -/
def walls (l : Ladder) : List Wall :=
  if l.isSparse || l.total = 0 then []
  else l.steps.filterMap fun step =>
    let share := step.quantity * 100 / l.total % 2 ^ 32
    if wallShare ≤ share then some ⟨step.price, step.quantity, share⟩ else none

/-- The stored form of one rung. -/
def encodeStep (step : Step) : Text := Text.decimal step.price ++ ':' :: Text.decimal step.quantity

/-- The stored form: the price and quantity of every rung, cheapest first. -/
def encode (l : Ladder) : Text := [','].intercalate (l.steps.map encodeStep)

/-- Read a rung, if both of its numbers are positive. -/
def decodeStep (rung : Text) : Option (Nat × Nat) := do
  let (price, quantity) ← Text.splitOnce ':' rung
  let price ← Text.parseNat maxU64 price
  let quantity ← Text.parseNat maxU64 quantity
  if 0 < price ∧ 0 < quantity then some (price, quantity) else none

/-- Read back the stored form, rebuilding the running sums. -/
def decode (raw : Text) : Ladder :=
  if raw.isEmpty then empty else ofUnits ((raw.splitOn ',').filterMap decodeStep)

end Ladder

/-! ## Archive resolution -/

/-- The price ratios, in percent above the cheapest, that a curve records the supply at. -/
def curveBands : List Nat := [0, 1, 2, 5, 10, 20, 35, 50, 100, 200, 500, 1000]

/-- A ladder at archive resolution: the units at or below each band. -/
structure Curve where
  cheapest : Copper
  cumulative : List Nat
  total : Nat
  levels : Nat
  sized : cumulative.length = curveBands.length
  deriving DecidableEq

/-- The price that is a ratio above another, as far as 64 bits go. -/
def priceAbove (base ratio : Nat) : Copper := min (base * (100 + ratio) / 100) maxU64

namespace Curve

def empty : Curve := ⟨0, List.replicate curveBands.length 0, 0, 0, by simp⟩

def isSparse (c : Curve) : Bool := c.levels < sparseSteps

/-- The percentage at a band. -/
def band (i : Nat) : Nat := curveBands.getD i 0

/-- The units at or below a band. -/
def units (c : Curve) (i : Nat) : Nat := c.cumulative.getD i 0

/-- Units within `percent` of the cheapest: exact at a band, on a straight line between two. -/
def quantityWithin (c : Curve) (percent : Nat) : Option Nat :=
  if c.cheapest = 0 then none
  else match curveBands.findIdx? (· = percent) with
    | some i => some (c.units i)
    | none => match curveBands.findIdx? (percent < ·) with
      | none => some c.total
      | some 0 => some (c.units 0)
      | some (i + 1) =>
          some (Interpolate.floorAt (band i) (band (i + 1)) (c.units i) (c.units (i + 1)) percent)

/-- Where in the band with enough units the ones that are wanted are reached. -/
def ratio (c : Curve) (wanted : Nat) : Nat → Nat
  | 0 => Interpolate.ceilAt 0 (band 0) 0 (c.units 0) wanted
  | i + 1 => Interpolate.ceilAt (band i) (band (i + 1)) (c.units i) (c.units (i + 1)) wanted

/-- The price by which `percent` of the supply is on offer. -/
def supplyPercentile (c : Curve) (percent : Nat) : Option Copper :=
  if c.isSparse || c.total = 0 then none
  else
    let wanted := (c.total * percent + 99) / 100 % 2 ^ 64
    match c.cumulative.findIdx? (wanted ≤ ·) with
    | some i => some (priceAbove c.cheapest (c.ratio wanted i))
    | none => some (priceAbove c.cheapest (curveBands.getLastD 0))

end Curve

/-- The same shelf at archive resolution. -/
def Ladder.compact (l : Ladder) : Curve :=
  match l.cheapest with
  | none => .empty
  | some cheapest =>
      { cheapest
        cumulative := curveBands.map fun percent => l.quantityUpto (priceAbove cheapest percent)
        total := l.total
        levels := l.steps.length % 2 ^ 32
        sized := by simp }

/-! ## What a ladder means for a buyer -/

/-- How many units somebody buying an item wants. -/
structure Target where
  units : Nat
  deriving DecidableEq

def Target.of : ItemKind → Target
  | .consumable => ⟨20⟩
  | .reagent => ⟨200⟩
  | .enchant => ⟨5⟩
  | .gem => ⟨5⟩
  | .boe | .recipe => ⟨1⟩

/-- The swept summary of a ladder. -/
structure Depth where
  levels : Nat
  total : Nat
  cheapest : Copper
  p25 : Option Copper
  p50 : Option Copper
  within5 : Option Nat
  within20 : Option Nat
  target : Nat
  fill : Fill
  walls : List Wall
  sparse : Bool
  deriving DecidableEq

def Depth.of (ladder : Ladder) (target : Target) : Option Depth :=
  ladder.cheapest.map fun cheapest =>
    { levels := ladder.levels % 2 ^ 32
      total := ladder.total
      cheapest
      p25 := ladder.supplyPercentile 25
      p50 := ladder.supplyPercentile 50
      within5 := if ladder.isSparse then none else ladder.quantityWithin 5
      within20 := if ladder.isSparse then none else ladder.quantityWithin 20
      target := target.units
      fill := ladder.fill target.units
      walls := ladder.walls
      sparse := ladder.isSparse }

namespace Depth

def encodeWall (wall : Wall) : Text :=
  [':'].intercalate ([wall.price, wall.quantity, wall.sharePercent].map Text.decimal)

/-- The fields of the stored form that come before the walls, a missing figure left empty. -/
def encodeFields (d : Depth) : List Text :=
  [some d.levels, some d.total, some d.cheapest, d.p25, d.p50, d.within5, d.within20, some d.target,
    some d.fill.filled, some d.fill.totalCost, some d.fill.averageUnit, some d.fill.clearingPrice,
    some d.fill.impactPercent].map Text.field

/-- The stored form: fixed fields in order, then the walls. -/
def encode (d : Depth) : Text := ['|'].intercalate (d.encodeFields ++ d.walls.map encodeWall)

/-- Read a figure that may be missing. -/
def decodeOpt (raw : Text) : Option (Option Nat) :=
  if raw.isEmpty then some none else (Text.parseNat maxU64 raw).map some

def decodeWall (raw : Text) : Option Wall :=
  match raw.splitOn ':' with
  | price :: quantity :: share :: _ => do
      let price ← Text.parseNat maxU64 price
      let quantity ← Text.parseNat maxU64 quantity
      let share ← Text.parseNat maxU32 share
      return ⟨price, quantity, share⟩
  | _ => none

/-- Read back the stored form, if every one of the fixed fields can be read. What the sweep wanted,
whether it was complete and whether the ladder was sparse follow from the rest. -/
def decode (raw : Text) : Option Depth :=
  match raw.splitOn '|' with
  | levels :: total :: cheapest :: p25 :: p50 :: within5 :: within20 :: target :: filled :: totalCost ::
      averageUnit :: clearingPrice :: impactPercent :: walls => do
      let levels ← Text.parseNat maxU64 levels
      let total ← Text.parseNat maxU64 total
      let cheapest ← Text.parseNat maxU64 cheapest
      let p25 ← decodeOpt p25
      let p50 ← decodeOpt p50
      let within5 ← decodeOpt within5
      let within20 ← decodeOpt within20
      let target ← Text.parseNat maxU64 target
      let filled ← Text.parseNat maxU64 filled
      let totalCost ← Text.parseNat maxU64 totalCost
      let averageUnit ← Text.parseNat maxU64 averageUnit
      let clearingPrice ← Text.parseNat maxU64 clearingPrice
      let impactPercent ← Text.parseNat maxU64 impactPercent
      return {
        levels := levels % 2 ^ 32
        total
        cheapest
        p25
        p50
        within5
        within20
        target
        fill := {
          wanted := target
          filled
          complete := filled = target
          totalCost
          averageUnit
          clearingPrice
          impactPercent := impactPercent % 2 ^ 32 }
        walls := walls.filterMap decodeWall
        sparse := levels % 2 ^ 32 < sparseSteps }
  | _ => none

end Depth

end Gavel.Market
