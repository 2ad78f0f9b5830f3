import Gavel.Lib.Sorting
import Gavel.Market.Engine
import Mathlib.Algebra.Order.Field.Rat

/-!
# How a market moves

The ranks of its prices, the association of its price with the listed stock, the worst fall and the best rise along its path,
how much it typically moves, and its median price by hour of the week.
-/

namespace Gavel.Market

open Gavel.Cluster (Millis)

/-- Paired observations needed before a correlation is reported. -/
def minPairs : Nat := 20

/-- How strongly two series move together, in rank. -/
structure Association where
  rhoPercent : Int
  pairs : Nat
  deriving DecidableEq

def Association.of (F : Floating) (a b : List Nat) : Option Association :=
  let n := min a.length b.length
  if n < minPairs then none
  else (F.rho (a.take n) (b.take n)).map fun rho => ⟨rho, n % 2 ^ 32⟩

/-! ## Ranks -/

/-- The value at a place of an order. -/
def placed (values order : List Nat) (k : Nat) : Option Nat := order[k]?.bind (values[·]?)

/-- The last place of the run of equal values that starts at `i`, from `j` on. -/
def tiedEnd (values order : List Nat) (i j : Nat) : Nat :=
  if j + 1 < order.length ∧ placed values order (j + 1) = placed values order i then
    tiedEnd values order i (j + 1)
  else j
termination_by order.length - j

theorem le_tiedEnd (values order : List Nat) (i j : Nat) : j ≤ tiedEnd values order i j := by
  fun_induction tiedEnd values order i j with
  | case1 j _ ih => exact Nat.le_of_succ_le ih
  | case2 j _ => exact Nat.le_refl j

/-- Give every run of ties from the place `i` on its average rank. All of them are halves, which the
source's floating point represents. -/
def rankRuns (values order : List Nat) (i : Nat) (out : List ℚ) : List ℚ :=
  if i < order.length then
    let j := tiedEnd values order i i
    let rank : ℚ := ((i + j : Nat) : ℚ) / 2 + 1
    rankRuns values order (j + 1)
      (((order.drop i).take (j + 1 - i)).foldl (fun out slot => out.set slot rank) out)
  else out
termination_by order.length - i
decreasing_by
  have := le_tiedEnd values order i i
  omega

/-- Ranks, with ties sharing their average rank. -/
def ranks (values : List Nat) : List ℚ :=
  let order := Sorting.sortWith (fun a b => compare (values.getD a 0) (values.getD b 0))
    (List.range values.length)
  rankRuns values order 0 (List.replicate values.length 0)

/-! ## Swings -/

/-- The worst fall and the best rise a market made. -/
structure Swings where
  drawdownPercent : Nat
  risePercent : Nat
  deriving DecidableEq

namespace Swings

/-- Follow one more price: the running peak and trough, and the swings so far. -/
def follow (acc : Nat × Nat × Swings) (price : Nat) : Nat × Nat × Swings :=
  let (peak, trough, swings) := acc
  let drawdown :=
    if price < peak then max swings.drawdownPercent ((peak - price) * 100 / peak % 2 ^ 32)
    else swings.drawdownPercent
  let rise :=
    if trough < price then max swings.risePercent ((price - trough) * 100 / trough % 2 ^ 32)
    else swings.risePercent
  (max peak price, min trough price, ⟨drawdown, rise⟩)

def «of» (prices : List Nat) : Swings :=
  ((prices.filter (0 < ·)).foldl follow (0, maxU64, ⟨0, 0⟩)).2.2

end Swings

/-- How much a market moves from one observation to the next. -/
structure Stability where
  typicalMovePercent : Nat
  changes : Nat
  deriving DecidableEq

def Stability.of (F : Floating) (prices : List Nat) : Option Stability :=
  let changes := ((prices.zip prices.tail).filter (0 < ·.1)).map fun pair =>
    absDiff pair.1 pair.2 * 100 / pair.1 % 2 ^ 64
  if changes.length < minPairs then none
  else
    let buckets := Buckets.fromObservations
      (changes.mapIdx fun i change => (i * 3600000, change))
    (buckets.quantile F 50).map fun median => ⟨median % 2 ^ 32, changes.length % 2 ^ 32⟩

/-- Median price by hour of the week, weekday-major. -/
structure Heatmap where
  cells : List (Option Copper)
  samples : Nat
  filled : Nat
  deriving DecidableEq

namespace Heatmap

/-- The hour of the week of an instant, from Monday. -/
def cell (at' : Millis) : Nat := (at' / dayMs + 3) % 7 * 24 + at' / 3600000 % 24

def «of» (F : Floating) (observations : List (Millis × Copper)) : Heatmap :=
  let grouped := observations.foldl
    (fun m o => Assoc.alter (cell o.1) (fun held => held.getD [] ++ [o]) m) []
  let (cells, filled) := grouped.foldl (fun (acc : List (Option Copper) × Nat) group =>
      match (Buckets.fromObservations group.2).quantile F 50 with
      | some median => (acc.1.set group.1 (some median), acc.2 + 1)
      | none => acc)
    (List.replicate (7 * 24) none, 0)
  { cells
    samples := observations.length % 2 ^ 32
    filled }

/-- The stored form: one field for each hour of the week, empty for a hole, and the samples. -/
def encode (h : Heatmap) : Text :=
  if h.filled = 0 then [] else [','].intercalate (h.cells.map Text.field) ++ ';' :: Text.decimal h.samples

/-- Read back the stored form, counting the cells that hold anything. -/
def decode (raw : Text) : Heatmap :=
  let (grid, samples) := (Text.splitOnce ';' raw).getD (raw, ['0'])
  if grid.isEmpty then ⟨[], 0, 0⟩
  else
    let cells := ((grid.splitOn ',').take (7 * 24)).map (Text.parseNat maxU64)
    { cells
      samples := (Text.parseNat maxU32 samples).getD 0
      filled := (cells.filterMap id).length % 2 ^ 32 }

end Heatmap

end Gavel.Market
