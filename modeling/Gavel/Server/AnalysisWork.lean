import Gavel.Lib.Table
import Gavel.Market.Materialise

/-!
# Materialisation as cluster work

A candidate version's work is cut into partitions, each a bounded slice of one region's history with
the part of the catalogue it is read against. The coordinator hands out a partition's input and takes
back its rows, and keeps both until every partition has come back.
-/

namespace Gavel.Server

open Gavel.Cluster (Millis TaskSpec)
open Gavel.Market

/-- Markets in one partition. -/
def partitionMarkets : Nat := 16

/-- A market as it is sent: its key, its history and its newest ladder. -/
abbrev Sent := MarketKey × List PriceSample × Ladder

/-- One partition's input: everything needed to materialise its markets. -/
structure Input where
  region : Region
  markets : List Sent
  windows : List Window
  catalog : Catalog
  now : Millis
  deriving DecidableEq

/-- The rows of one input, market by market. -/
def Input.rows (F : Floating) (input : Input) : List Materialised :=
  input.markets.map fun (key, history, ladder) =>
    commodity F key history ladder input.catalog input.windows input.now

/-! ## Cutting a history -/

/-- Split a region's history into one run of rows per market. -/
def grouped (history : List PriceSample) : List (List PriceSample) :=
  history.splitBy fun a b => a.item == b.item

/-- The slice of a catalogue a commodity partition is read against. -/
def trim (catalog : Catalog) (items : List ItemId) : Catalog :=
  { catalog with
    items := catalog.items.filter fun entry => entry.itemIds.any (items.contains ·)
    itemLevels := []
    tracks := []
    modifiers := []
    notes := [] }

/-- Seal one partition, carrying only the catalogue it needs. -/
def finish (region : Region) (catalog : Catalog) (markets : List Sent)
    (windows : Catalog → List Window) (now : Millis) : Input :=
  { region
    markets
    windows := windows catalog
    catalog := trim catalog (markets.map fun m => m.1.item)
    now }

section Partition

variable (region : Region) (ladders : Table Ladder) (owner : ItemId → Catalog)
  (windows : Catalog → List Window) (now : Millis)

/-- The partitions sealed so far, the markets of the one being filled and their catalogue. -/
structure Cut where
  out : List Input
  current : List Sent
  catalog : Option Catalog

/-- Seal the markets being filled, which must have a catalogue. -/
def Cut.close (c : Cut) : Option Cut :=
  c.catalog.map fun held =>
    { out := c.out ++ [finish region held c.current windows now], current := [], catalog := none }

/-- What is being filled has no room for a market of this catalogue. -/
def Cut.full (c : Cut) (owner : Catalog) : Bool :=
  let same := c.catalog.any (·.id = owner.id)
  (!same && !c.current.isEmpty) || partitionMarkets ≤ c.current.length

/-- One market: seal what is being filled if it is full or of another catalogue, then take it. -/
def Cut.take (c : Cut) (group : List PriceSample) : Option Cut := do
  let first ← group.head?
  let owner := owner first.item
  let c ← if c.full owner then c.close region windows now else some c
  let key := owner.marketOf first
  let ladder := (ladders[key.item]?).getD Ladder.empty
  return { c with current := c.current ++ [(key, group, ladder)], catalog := some owner }

/-- Cut a region's history into partitions; `none` where the program would stop on a missing
catalogue. -/
def partition (history : List PriceSample) : Option (List Input) := do
  let c ← (grouped history).foldlM (Cut.take region ladders owner windows now) ⟨[], [], none⟩
  match c.catalog with
  | some held => return c.out ++ [finish region held c.current windows now]
  | none => return c.out

end Partition

/-! ## Inputs and results of a candidate -/

/-- An input behind a shared pointer: two registrations of equal inputs are told apart. -/
structure Held where
  ptr : Nat
  input : Input

/-- The inputs and results of the candidate version being built, and the next fresh pointer. -/
structure Artifacts where
  version : Nat
  algorithm : Nat
  inputs : Table Held
  results : Table (List Materialised)
  fresh : Nat

namespace Artifacts

def new : Artifacts := ⟨0, 0, ∅, ∅, 0⟩

/-- Inputs under their positions, as 32-bit numbers. -/
def enumerated (fresh : Nat) (inputs : List Input) : Table Held :=
  inputs.zipIdx.foldl (fun m i => m.insert (i.2 % 2 ^ 32) ⟨fresh + i.2, i.1⟩) ∅

/-- Register a candidate's partitions, discarding whatever a previous one left. -/
def begin' (a : Artifacts) (version algorithm : Nat) (inputs : List Input) : Artifacts :=
  { version
    algorithm
    inputs := enumerated a.fresh inputs
    results := ∅
    fresh := a.fresh + inputs.length }

/-- What a worker needs for one partition, if it is this candidate's. -/
def registered (a : Artifacts) (version algorithm part : Nat) : Option Held :=
  if a.version ≠ version ∨ a.algorithm ≠ algorithm then none else a.inputs[part]?

/-- Every partition's rows, or nothing if any is still missing. -/
def collect (a : Artifacts) (version : Nat) : Option (List Materialised) :=
  if a.version ≠ version then none
  else if a.results.size ≠ a.inputs.size then none
  else some a.results.rows.flatten

end Artifacts

/-- A result that has been checked against its input and has not been recorded yet: the check and the
insertion take the lock separately. -/
structure Checked where
  version : Nat
  algorithm : Nat
  part : Nat
  rows : List Materialised
  held : Held

namespace Artifacts

/-- The first half of recording a result: it must be this candidate's and exactly what its input
reduces to. -/
def check (F : Floating) (a : Artifacts) (version algorithm part : Nat) (rows : List Materialised) :
    Option Checked := do
  let held ← a.registered version algorithm part
  if rows ≠ held.input.rows F then none
  else some ⟨version, algorithm, part, rows, held⟩

/-- The second half: the candidate must be the same and the input the very one checked against. -/
def record (a : Artifacts) (c : Checked) : Artifacts :=
  let sameInput := (a.inputs[c.part]?).any fun current => current.ptr = c.held.ptr
  if a.version ≠ c.version ∨ a.algorithm ≠ c.algorithm ∨ !sameInput then a
  else { a with results := a.results.insert c.part c.rows }

end Artifacts

/-- Record what a worker produced when nothing comes between the check and the insertion. -/
def Artifacts.finish (F : Floating) (a : Artifacts) (version algorithm part : Nat)
    (rows : List Materialised) : Artifacts :=
  match a.check F version algorithm part rows with
  | some c => a.record c
  | none => a

/-! ## The store as others use it -/

/-- The store with the results that have been checked and wait for the lock to be recorded. -/
structure Desk where
  store : Artifacts
  pending : List Checked

/-- A step of the store. Reading an input and collecting leave it as it is; between the check of a
result and its recording anything may happen. -/
inductive Call where
  | begin' (version algorithm : Nat) (inputs : List Input)
  | input (spec : TaskSpec)
  | produced (spec : TaskSpec) (bytes : List UInt8)
  | record (i : Nat)
  | collect (version : Nat)

namespace Desk

variable (F : Floating) (decode : List UInt8 → Option (List Materialised))

def new : Desk := ⟨.new, []⟩

/-- Take back what a worker produced: bytes that read as rows are checked, others are dropped. -/
def produced (d : Desk) (spec : TaskSpec) (bytes : List UInt8) : Desk :=
  match spec with
  | .analysis version algorithm part =>
      match decode bytes with
      | some rows => { d with pending := d.pending ++ (d.store.check F version algorithm part rows).toList }
      | none => d
  | _ => d

/-- Record the `i`-th of the checked results. -/
def record (d : Desk) (i : Nat) : Desk :=
  match d.pending[i]? with
  | some c => { store := d.store.record c, pending := d.pending.eraseIdx i }
  | none => d

def step (d : Desk) : Call → Desk
  | .begin' version algorithm inputs => { d with store := d.store.begin' version algorithm inputs }
  | .input _ => d
  | .produced spec bytes => d.produced F decode spec bytes
  | .record i => d.record i
  | .collect _ => d

end Desk

/-- What a worker is handed for a task: the bytes of the input registered for it. -/
def Artifacts.input (encode : Input → List UInt8) (a : Artifacts) : TaskSpec → Option (List UInt8)
  | .analysis version algorithm part => (a.registered version algorithm part).map fun h => encode h.input
  | _ => none

end Gavel.Server
