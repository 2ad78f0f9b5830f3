import Gavel.Lib.Calls
import Gavel.Market.Collector
import Gavel.Market.Release
import Gavel.Storage.Prices

/-!
# Collecting commodities

One pass over one region: fetch what is new, summarise it, record it, and raise an alert for every item
that is cheap and has not been reported lately. The calls of the store may fail, and so may the provider.
-/

namespace Gavel.Market.Catalog

/-- The entry of every item, the last that lists it. -/
def index (c : Catalog) : Table CatalogItem := insertItems (fun item => item) ∅ c

/-- The items that are traded region-wide, less the kinds that are switched off. -/
def tracked (c : Catalog) (skip : List ItemKind) : List ItemId :=
  (c.items.filter fun i => i.kind.isCommodity && !skip.contains i.kind).flatMap CatalogItem.itemIds

end Gavel.Market.Catalog

namespace Gavel.Storage

open Gavel.Cluster (Millis)
open Gavel.Market Gavel.Calls

/-- What a fetch brings. An instant of zero stands for one that is missing. -/
inductive CommoditySnapshot where
  | notModified
  | fresh (generatedAt : Millis) (listings : List Listing)

/-- Why a pass stops. -/
inductive Failure where
  | repository
  | integration (message : Text)
  deriving DecidableEq

inductive Outcome where
  | notModified
  | alreadyRecorded
  | collected (samples written ladders : Nat) (alerts : List Alert)
  deriving DecidableEq

structure Report where
  region : Region
  generatedAt : Millis
  outcome : Outcome
  deriving DecidableEq

/-- One call of the collector: what it collects, what the provider answers, and how the calls of the
store go. -/
structure Visit where
  catalog : Catalog
  skip : List ItemKind
  region : Region
  now : Millis
  commodities : Region → List ItemId → Option Millis → Except Text CommoditySnapshot
  fates : List Fate

section Collect

variable (F : Floating) (rule : AlertRule)

/-- Whether the last alert of a market is too recent for another. -/
def coolingDown (now : Millis) (last : Option Millis) : Bool :=
  last.any fun last => now - last < rule.cooldownMs

open Program in
/-- Raise an alert on one sample, if there is reason to. -/
def raiseAlert (index : Table CatalogItem) (now : Millis) (sample : PriceSample) :
    Program Prices Failure (Option Alert) :=
  match index[sample.item]? with
  | none => return none
  | some entry => do
      let last ← ask .repository (·.lastAlertAt sample.item sample.region)
      if coolingDown rule now last then return none
      else
        let history ← ask .repository (·.history sample.item sample.region (now - rule.lookbackMs))
        let baseline := history.filter (·.observedAt ≠ sample.observedAt)
        match Alert.evaluate F rule sample baseline entry.floorCopper with
        | none => return none
        | some alert => do
            tell .repository (·.recordAlert alert)
            return some alert

def raiseAlerts (index : Table CatalogItem) (now : Millis) :
    List PriceSample → Program Prices Failure (List Alert)
  | [] => return []
  | sample :: samples => do
      let raised ← raiseAlert F rule index now sample
      let more ← raiseAlerts index now samples
      return raised.toList ++ more

open Program in
/-- Record a snapshot's samples and ladders, and raise its alerts if any of it is new. -/
def record (v : Visit) (at' : Millis) (samples : List PriceSample) (ladders : List (ItemId × Ladder)) :
    Program Prices Failure Report := do
  let (written, ladderRows) ← call .repository (·.recordSnapshot samples v.region at' ladders)
  if written = 0 ∧ samples ≠ [] then return ⟨v.region, at', .alreadyRecorded⟩
  else
    let alerts ← raiseAlerts F rule v.catalog.index at' samples
    return ⟨v.region, at', .collected samples.length written ladderRows alerts⟩

open Program in
def collect (v : Visit) : Program Prices Failure Report := do
  let since ← ask .repository (·.lastObserved v.region)
  match v.commodities v.region (v.catalog.tracked v.skip) since with
  | .error message => fail (.integration message)
  | .ok .notModified => return ⟨v.region, since.getD v.now, .notModified⟩
  | .ok (.fresh generatedAt listings) =>
      let at' := if generatedAt = 0 then v.now else generatedAt
      let (samples, ladders) := summariseAll v.region at' listings
      record F rule v at' samples ladders

/-- The store after a call of the collector. -/
def visit (t : Prices) (v : Visit) : Prices := (collect F rule v ⟨t, v.fates⟩).1.state

end Collect

end Gavel.Storage
