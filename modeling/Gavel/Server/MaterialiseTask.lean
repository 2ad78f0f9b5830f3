import Gavel.Server.AnalysisWork

/-!
# Recalculating the read model and publishing it

One run stages the rows of every commodity region, then those of every per-realm region, and
publishes them in one version; a pass that fails abandons the candidate. A commodity region's
partitions go to the cluster, and to this process if the cluster does not bring them all back.

What the world does in a run is given by its records: what the queries answer, whether there is
anybody to take the work, which results arrive before each look at the store, and how the local
materialiser fares on each partition. A result whose check and insertion are separated counts as
arriving when it is inserted.
-/

namespace Gavel.Server

open Gavel.Cluster (Millis)
open Gavel.Market

/-- The rules rows are produced under. -/
def algorithmVersion : Nat := 2

/-- A worker's result as it arrives: what it says it is of, and its rows. -/
structure Arrival where
  version : Nat
  algorithm : Nat
  part : Nat
  rows : List Materialised

/-- How the local materialiser fares on one partition: its rows come through, they do not read back,
no artifact is made, or the reduction stops the whole pass. -/
inductive Attempt where
  | produced | undecodable | missing | panicked
  deriving DecidableEq

/-- What one commodity region's pass meets. -/
structure Pass where
  region : Region
  history : Except Text (List PriceSample)
  ladders : Except Text (Table Ladder)
  /-- Some node is healthy or starting. -/
  takers : Bool
  /-- The job was accepted. -/
  accepted : Bool
  /-- The results that arrive before each look at the store, until the job ends or time is up. -/
  rounds : List (List Arrival)
  attempt : Nat → Attempt
  /-- Results of the cluster that arrive while the local materialiser runs. -/
  late : List Arrival
  staging : Except Text Unit

/-- What a whole run meets. -/
structure Conditions where
  owners : List (ItemId × Catalog)
  fallback : Option Catalog
  opened : Except Text Nat
  now : Millis
  commodity : List Pass
  perRealm : List (Region × Except Text Unit)
  publishing : Except Text Unit

/-- How a run ends: without a candidate, with the candidate abandoned, or with `publish` called on
what was staged for each commodity region, and the candidate abandoned after all if that failed. -/
inductive Ending where
  | noCandidate
  | abandoned (note : Text)
  | published (version : Nat) (staged : List (Pass × List Materialised)) (failed : Option Text)

section Run

variable (F : Floating)

/-- Take what arrives. -/
def Artifacts.takeIn (a : Artifacts) (arrivals : List Arrival) : Artifacts :=
  arrivals.foldl (fun a r => a.finish F r.version r.algorithm r.part r.rows) a

/-- Look at the store after each round, until every partition is back or the job is given up. -/
def poll (version : Nat) : Artifacts → List (List Arrival) → Artifacts × Option (List Materialised)
  | a, [] => (a, none)
  | a, arrivals :: rounds =>
      let a := a.takeIn F arrivals
      match a.collect version with
      | some rows => (a, some rows)
      | none => poll version a rounds

/-- Run this version's partitions on the cluster; nothing if it cannot or did not do it. -/
def distribute (a : Artifacts) (version : Nat) (inputs : List Input) (p : Pass) :
    Artifacts × Option (List Materialised) :=
  if inputs.isEmpty then (a, some [])
  else
    let a := a.begin' version algorithmVersion inputs
    if !p.takers || !p.accepted then (a, none) else poll F version a p.rounds

/-- Materialise partitions in this process, one after the other. -/
def attemptAll (version : Nat) (attempt : Nat → Attempt) : Artifacts → List Nat → Artifacts
  | a, [] => a
  | a, part :: parts =>
      match a.registered version algorithmVersion part with
      | none => attemptAll version attempt a parts
      | some held =>
          match attempt part with
          | .panicked => a
          | .produced =>
              attemptAll version attempt
                (a.finish F version algorithmVersion part (held.input.rows F)) parts
          | .undecodable | .missing => attemptAll version attempt a parts

/-- Materialise every registered partition in this process. What is still incomplete then is an
empty list of rows. -/
def localPass (a : Artifacts) (version : Nat) (p : Pass) : Artifacts × List Materialised :=
  let a := attemptAll F version p.attempt a (List.range (a.inputs.size % 2 ^ 32))
  let a := a.takeIn F p.late
  (a, (a.collect version).getD [])

/-- The catalogue that owns an item, or the fallback. -/
def ownerOf (owners : List (ItemId × Catalog)) (fallback : Catalog) (item : ItemId) : Catalog :=
  ((owners.find? (·.1 = item)).map Prod.snd).getD fallback

/-- The windows of a catalogue: those of the first with its id. -/
def windowsOf (owners : List (ItemId × Catalog)) (fallback : Catalog) (c : Catalog) : List Window :=
  match (owners.map Prod.snd ++ [fallback]).find? (·.id = c.id) with
  | some d => Window.allFor d
  | none => []

/-- A region's partitions. -/
def inputsOf (owners : List (ItemId × Catalog)) (fallback : Catalog) (now : Millis) (region : Region)
    (history : List PriceSample) (ladders : Table Ladder) : List Input :=
  (partition region ladders (ownerOf owners fallback) (windowsOf owners fallback) now history).getD []

/-- One commodity region: the rows staged for it. -/
def commodityRegion (owners : List (ItemId × Catalog)) (fallback : Catalog) (version : Nat)
    (now : Millis) (a : Artifacts) (p : Pass) : Artifacts × Except Text (List Materialised) :=
  match p.history, p.ladders with
  | .error e, _ => (a, .error e)
  | .ok _, .error e => (a, .error e)
  | .ok history, .ok ladders =>
      let inputs := inputsOf owners fallback now p.region history ladders
      let (a, rows) :=
        match distribute F a version inputs p with
        | (a, some rows) => (a, rows)
        | (a, none) => localPass F a version p
      match p.staging with
      | .ok () => (a, .ok rows)
      | .error e => (a, .error e)

/-- The note a failed pass leaves. -/
def noteOf (kind : Text) (region : Region) (error : Text) : Text :=
  kind ++ ' ' :: region.asStr ++ ':' :: ' ' :: error

/-- The commodity regions in order, up to the first that fails. -/
def commodityRegions (owners : List (ItemId × Catalog)) (fallback : Catalog) (version : Nat)
    (now : Millis) : Artifacts → List Pass → Artifacts × Except Text (List (Pass × List Materialised))
  | a, [] => (a, .ok [])
  | a, p :: passes =>
      match commodityRegion F owners fallback version now a p with
      | (a, .error e) => (a, .error (noteOf "commodity".toList p.region e))
      | (a, .ok rows) =>
          match commodityRegions owners fallback version now a passes with
          | (a, .error note) => (a, .error note)
          | (a, .ok staged) => (a, .ok ((p, rows) :: staged))

/-- The per-realm regions in order, up to the first that fails. -/
def realmRegions : List (Region × Except Text Unit) → Except Text Unit
  | [] => .ok ()
  | (region, .error e) :: _ => .error (noteOf "per-realm".toList region e)
  | (_, .ok ()) :: passes => realmRegions passes

/-- One run: recalculate the markets of these regions and publish, in one version. -/
def publish (a : Artifacts) (w : Conditions) : Artifacts × Ending :=
  match w.fallback with
  | none => (a, .noCandidate)
  | some fallback =>
      if w.commodity.isEmpty && w.perRealm.isEmpty then (a, .noCandidate)
      else
        match w.opened with
        | .error _ => (a, .noCandidate)
        | .ok version =>
            match commodityRegions F w.owners fallback version w.now a w.commodity with
            | (a, .error note) => (a, .abandoned note)
            | (a, .ok staged) =>
                match realmRegions w.perRealm with
                | .error note => (a, .abandoned note)
                | .ok () =>
                    match w.publishing with
                    | .ok () => (a, .published version staged none)
                    | .error e => (a, .published version staged (some ("publish failed: ".toList ++ e)))

end Run

end Gavel.Server
