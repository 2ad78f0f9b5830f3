import Gavel.Server.MaterialiseTask
import Gavel.Storage.Prices
import Gavel.Storage.RealmPrices

/-!
# The range a version is about

Every pass of a run reads a history from the tables of its moment and reports its ends, and the run hands
the ends of all of them to `publish`.
-/

namespace Gavel.Server

open Gavel.Cluster (Millis)
open Gavel.Market
open Gavel.Storage (Prices RealmPrices)

/-- The interval the per-realm pages are about. -/
def realmWindow : Window := .days 30

/-- The ends a pass reports. -/
structure RegionReport where
  oldest : Option Millis
  newest : Option Millis
  deriving DecidableEq

def minOption : Option Millis → Option Millis → Option Millis
  | some a, some b => some (min a b)
  | held, none => held
  | none, held => held

def maxOption : Option Millis → Option Millis → Option Millis
  | some a, some b => some (max a b)
  | held, none => held
  | none, held => held

/-- A commodity region's pass, and the tables its history is read from. -/
structure CommodityRead where
  pass : Pass
  prices : Prices
  answered : ∀ history, pass.history = .ok history → history = prices.historyInRegion pass.region

/-- A per-realm region's pass: the tables its history is read from, and how it ends. -/
structure RealmRead where
  region : Region
  prices : RealmPrices
  outcome : Except Text Unit

/-- The observations a commodity pass reads. -/
def CommodityRead.history (p : CommodityRead) : List PriceSample :=
  match p.pass.history with
  | .ok history => history
  | .error _ => []

def CommodityRead.report (p : CommodityRead) : RegionReport :=
  ⟨p.history.head?.map PriceSample.observedAt, (p.history.map PriceSample.observedAt).max?⟩

/-- The observations a per-realm pass reads. -/
def RealmRead.history (fallback : Catalog) (now : Millis) (p : RealmRead) : List RealmSample :=
  match realmWindow.bounds fallback now with
  | some (since, _) => p.prices.windowInRegion p.region since
  | none => []

def RealmRead.report (fallback : Catalog) (now : Millis) (p : RealmRead) : RegionReport :=
  let instants := (p.history fallback now).map RealmSample.observedAt
  ⟨instants.min?, instants.max?⟩

/-- What a whole run meets, with what its passes read. -/
structure SourceRun where
  owners : List (ItemId × Catalog)
  fallback : Option Catalog
  opened : Except Text Nat
  now : Millis
  commodity : List CommodityRead
  perRealm : List RealmRead
  publishing : Except Text Unit

namespace SourceRun

variable (w : SourceRun)

def conditions : Conditions :=
  ⟨w.owners, w.fallback, w.opened, w.now, w.commodity.map CommodityRead.pass,
    w.perRealm.map fun p => (p.region, p.outcome), w.publishing⟩

/-- The reports of the passes, in their order. -/
def reports (fallback : Catalog) : List RegionReport :=
  w.commodity.map CommodityRead.report ++ w.perRealm.map (RealmRead.report fallback w.now)

/-- The ends after the passes. -/
def source (fallback : Catalog) : Option Millis × Option Millis :=
  (w.reports fallback).foldl
    (fun ends report => (minOption ends.1 report.oldest, maxOption ends.2 report.newest)) (none, none)

/-- The range `publish` is called with, if the run gets there. -/
def publishedSource (F : Floating) (a : Artifacts) : Option (Option Millis × Option Millis) :=
  match w.fallback, (publish F a w.conditions).2 with
  | some fallback, .published _ _ _ => some (w.source fallback)
  | _, _ => none

/-- The instants of all observations the passes read. -/
def read (fallback : Catalog) : List Millis :=
  w.commodity.flatMap (fun p => p.history.map PriceSample.observedAt) ++
    w.perRealm.flatMap fun p => (p.history fallback w.now).map RealmSample.observedAt

end SourceRun

end Gavel.Server
