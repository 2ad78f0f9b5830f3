import Gavel.Lib.Keyed
import Gavel.Storage.ReadModel

/-!
# Where each catalogue is in its life

One row for each catalogue, and a unique index on the rows in the active state: a statement after which
two rows were active fails, and its transaction with it.
-/

namespace Gavel.Storage

open Gavel.Cluster (Millis)
open Gavel.Market

/-- A row of `catalog_releases`. -/
structure Release where
  catalog : Text
  state : CatalogStatus
  changedAt : Millis
  activatedAt : Option Millis
  archivedAt : Option Millis
  deriving DecidableEq

/-- What an activation changed. -/
structure Activation where
  activated : Text
  archived : Option Text
  deriving DecidableEq

/-- What the index on the active state demands. -/
def OneActive (rows : List Release) : Prop :=
  ∀ a ∈ rows, a.state = .active → ∀ b ∈ rows, b.state = .active → a = b

instance OneActive.decidable (rows : List Release) : Decidable (OneActive rows) :=
  inferInstanceAs (Decidable (∀ a ∈ rows, a.state = .active → ∀ b ∈ rows, b.state = .active → a = b))

structure Releases where
  table : Keyed Release Text Release.catalog
  index : OneActive table.rows

namespace Releases

def empty : Releases := ⟨.empty, fun _ ha => absurd ha List.not_mem_nil⟩

/-- A statement ends: the index is checked. -/
def checked (table : Keyed Release Text Release.catalog) : Except RepoError Releases :=
  if h : OneActive table.rows then .ok ⟨table, h⟩
  else .error (.conflict "UNIQUE constraint failed: catalog_releases.state".toList)

/-- `INSERT … ON CONFLICT(catalog_id) DO NOTHING`, and how many rows it wrote. -/
def insert (t : Releases) (r : Release) : Except RepoError (Releases × Nat) :=
  if t.table.has r.catalog then .ok (t, 0) else (checked (t.table.add r)).map (·, 1)

def setArchived (t : Releases) (catalog : Text) (now : Millis) : Except RepoError Releases :=
  checked (t.table.change catalog
    (fun r => { r with state := .archived, changedAt := now, archivedAt := some now }) fun _ => rfl)

def setActive (t : Releases) (catalog : Text) (now : Millis) : Except RepoError Releases :=
  checked (t.table.change catalog
    (fun r => { r with state := .active, changedAt := now, activatedAt := some now, archivedAt := none })
    fun _ => rfl)

/-- The catalogue that is active. -/
def held (t : Releases) : Option Text := (t.table.rows.find? (·.state.isActive)).map Release.catalog

/-- The state a catalogue is seeded with: one that ships as active while another is collecting waits as
a draft. -/
def seedState (collecting : Option Text) (catalog : Text) (shipped : CatalogStatus) : CatalogStatus :=
  match shipped.isActive, collecting with
  | true, some held => if held ≠ catalog then .draftPtr else shipped
  | _, _ => shipped

/-- Seed one catalogue, given which is collecting. -/
def seedOne (now : Millis) (s : Releases × Option Text × Nat) (shipped : Text × CatalogStatus) :
    Except RepoError (Releases × Option Text × Nat) := do
  let (t, collecting, written) := s
  let (catalog, status) := shipped
  let state := seedState collecting catalog status
  let collecting := if state.isActive then some catalog else collecting
  let (t, n) ← t.insert ⟨catalog, state, now, if state.isActive then some now else none, none⟩
  return (t, collecting, written + n)

/-- Give every catalogue that has no row the state it ships with. -/
def seed (t : Releases) (defaults : List (Text × CatalogStatus)) (now : Millis) :
    Except RepoError (Releases × Nat) := do
  let (t, _, written) ← defaults.foldlM (seedOne now) (t, t.held, 0)
  return (t, written)

/-- Activate a catalogue and archive the one it replaces. -/
def activate (t : Releases) (catalog : Text) (now : Millis) : Except RepoError (Releases × Activation) :=
  match t.table.rows.find? (·.catalog = catalog) with
  | none => .error .notFound
  | some row =>
      if row.state = .active then .ok (t, ⟨catalog, none⟩)
      else do
        let previous := t.held
        let t ← match previous with
          | some old => t.setArchived old now
          | none => .ok t
        let t ← t.setActive catalog now
        return (t, ⟨catalog, previous⟩)

/-- What is asked of the table. -/
inductive Op where
  | seed (defaults : List (Text × CatalogStatus)) (now : Millis)
  | activate (catalog : Text) (now : Millis)

def perform (t : Releases) : Op → Except RepoError Releases
  | .seed defaults now => (t.seed defaults now).map Prod.fst
  | .activate catalog now => (t.activate catalog now).map Prod.fst

/-- A transaction that fails is rolled back. -/
def step (t : Releases) (op : Op) : Releases :=
  match t.perform op with
  | .ok t' => t'
  | .error _ => t

end Releases

end Gavel.Storage
