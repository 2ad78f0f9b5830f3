import Gavel.Lib.Run
import Gavel.Lib.Staging
import Gavel.Market.Rollup

/-!
# The read model

What a page reads: the published rows of every market, of its windows and of the per-realm roll-ups.
A run of the materialiser stages its rows under a version of its own and publishes them in one
transaction. A column that a conflict leaves alone is spelled by the key of its table.
-/

namespace Gavel.Storage

open Gavel.Cluster (Millis)
open Gavel.Market

inductive RepoError where
  | notFound
  | conflict (message : Text)
  | backend (message : Text)
  deriving DecidableEq

inductive VersionState where
  | staging | published | failed
  deriving DecidableEq

namespace VersionState

def asStr : VersionState → Text
  | .staging => "staging".toList
  | .published => "published".toList
  | .failed => "failed".toList

end VersionState

/-- One attempt at recalculating. -/
structure AnalysisVersion where
  version : Nat
  state : VersionState
  algorithm : Nat
  startedAt : Millis
  publishedAt : Option Millis
  sourceFrom : Option Millis
  sourceUntil : Option Millis
  markets : Nat
  note : Option Text
  deriving DecidableEq

/-- The key of a roll-up: region, item, track column and realm column. -/
abbrev RollupKey := Text × ItemId × Text × Nat

/-- The stored form of a track: `-` where no catalogue names one, nothing for a recipe. -/
def trackColumn (track : Option Track) (kind : ItemKind) : Text :=
  match kind, track with
  | .recipe, _ => []
  | _, none => ['-']
  | _, some track => track.slug

def rollupKey (r : MarketRollup) : RollupKey :=
  (r.region.asStr, r.item, trackColumn r.track r.kind, r.scope.realmId)

/-- The tables of the read model. Versions are in the order they were opened; none is ever deleted. -/
structure ReadModel where
  versions : List AnalysisVersion
  current : Staging Text MarketState
  windows : Staging (Text × Text) MarketWindow
  rollups : Staging RollupKey MarketRollup

namespace ReadModel

def empty : ReadModel := ⟨[], .empty, .empty, .empty⟩

/-- Change the version with a number. -/
def alterVersion (m : ReadModel) (version : Nat) (f : AnalysisVersion → AnalysisVersion) :
    ReadModel :=
  { m with versions := m.versions.map fun v => if v.version = version then f v else v }

/-- A candidate that a later run takes for dead. -/
def orphaned (v : AnalysisVersion) : AnalysisVersion :=
  if v.state = .staging then
    { v with
      state := .failed
      note := v.note.or (some "abandoned: a later run started".toList) }
  else v

/-- Open a candidate version and return its number. -/
def begin' (m : ReadModel) (algorithm : Nat) (now : Millis) : ReadModel × Nat :=
  let version := m.versions.length + 1
  ({ versions := m.versions.map orphaned ++
      [⟨version, .staging, algorithm, now, none, none, none, 0, none⟩]
     current := m.current.clear
     windows := m.windows.clear
     rollups := m.rollups.clear }, version)

/-- Stage one market and its windows. -/
def stageOne (version : Nat) (m : ReadModel) (row : Materialised) : ReadModel :=
  { m with
    current := m.current.stage version row.state.key.display row.state
    windows := row.windows.foldl
      (fun t w => t.stage version (w.key.display, w.window.key) w) m.windows }

/-- Write part of a candidate. -/
def stage (m : ReadModel) (version : Nat) (markets : List Materialised) : ReadModel × Nat :=
  if markets.isEmpty then (m, 0)
  else
    ((markets.foldl (stageOne version) m).alterVersion version fun v =>
        { v with markets := v.markets + markets.length }, markets.length)

/-- The kinds the table of roll-ups takes. -/
def rolledUp (kind : ItemKind) : Bool := kind = .boe ∨ kind = .recipe

/-- Write part of a candidate's per-realm roll-ups. -/
def stageRollups (m : ReadModel) (version : Nat) (rollups : List MarketRollup) :
    Except RepoError (ReadModel × Nat) :=
  if rollups.any fun r => !rolledUp r.kind then
    .error (.backend "CHECK constraint failed".toList)
  else
    .ok ({ m with
      rollups := rollups.foldl (fun t r => t.stage version (rollupKey r) r) m.rollups },
      rollups.length)

/-- Make the candidate the published version. -/
def publish (m : ReadModel) (version : Nat) (source : Option Millis × Option Millis) (now : Millis) :
    Except RepoError ReadModel :=
  match m.versions.find? (·.version = version) with
  | none => .error .notFound
  | some v =>
      if v.state ≠ .staging then
        .error (.conflict ("version ".toList ++ Text.decimal version ++ " is ".toList ++
          v.state.asStr ++ ", not a candidate".toList))
      else
        .ok (alterVersion
          { m with
            current := m.current.publish version
            windows := m.windows.publish version
            rollups := m.rollups.publish version }
          version fun v =>
            { v with
              state := .published
              publishedAt := some now
              sourceFrom := source.1
              sourceUntil := source.2 })

/-- Abandon a candidate, recording why. -/
def abandon (m : ReadModel) (version : Nat) (note : Text) : ReadModel :=
  alterVersion
    { m with
      current := m.current.drop version
      windows := m.windows.drop version
      rollups := m.rollups.drop version }
    version fun v => { v with state := .failed, note := some note }

/-- The version every page is currently serving: the latest that is published. -/
def published (m : ReadModel) : Option AnalysisVersion :=
  (m.versions.filter (·.state = .published)).getLast?

/-- A call of the write path. -/
inductive Call where
  | begin' (algorithm : Nat) (now : Millis)
  | stage (version : Nat) (markets : List Materialised)
  | stageRollups (version : Nat) (rollups : List MarketRollup)
  | publish (version : Nat) (source : Option Millis × Option Millis) (now : Millis)
  | abandon (version : Nat) (note : Text)

/-- The tables after a call; a call that fails is rolled back. -/
def step (m : ReadModel) : Call → ReadModel
  | .begin' algorithm now => (m.begin' algorithm now).1
  | .stage version markets => (m.stage version markets).1
  | .stageRollups version rollups =>
      match m.stageRollups version rollups with
      | .ok (m, _) => m
      | .error _ => m
  | .publish version source now =>
      match m.publish version source now with
      | .ok m => m
      | .error _ => m
  | .abandon version note => m.abandon version note

/-- The tables after a history of calls. -/
def after (calls : List Call) : ReadModel := Run.final step empty calls

end ReadModel

end Gavel.Storage
