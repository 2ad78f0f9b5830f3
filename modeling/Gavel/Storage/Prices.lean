import Gavel.Lib.Keyed
import Gavel.Market.Alerts
import Gavel.Storage.Instants

/-!
# The store of commodity prices

A sample is kept for every item, region and instant, with the ladder beside it; a second one of the same
key is dropped. Alerts are only ever added. Instants are stored as signed numbers, and compared as such.
-/

namespace Gavel.Market

open Gavel.Cluster (Millis)

/-- The primary key of a row. -/
def PriceSample.key (s : PriceSample) : ItemId × Region × Millis := (s.item, s.region, s.observedAt)

end Gavel.Market

namespace Gavel.Storage

open Gavel.Cluster (Millis)
open Gavel.Market

/-- A stored commodity ladder. -/
structure PriceLadder where
  item : ItemId
  region : Region
  observedAt : Millis
  levels : Nat
  total : Nat
  steps : Text
  deriving DecidableEq

def PriceLadder.key (l : PriceLadder) : ItemId × Region × Millis := (l.item, l.region, l.observedAt)

/-- The tables of the store. Alerts are in the order they were added. -/
structure Prices where
  samples : Keyed PriceSample (ItemId × Region × Millis) PriceSample.key
  ladders : Keyed PriceLadder (ItemId × Region × Millis) PriceLadder.key
  alerts : List Alert

namespace Prices

def empty : Prices := ⟨.empty, .empty, []⟩

/-- Record one snapshot; rows whose keys are taken are dropped. Returned are the numbers of new samples
and of new ladders. -/
def recordSnapshot (samples : List PriceSample) (region : Region) (observedAt : Millis)
    (ladders : List (ItemId × Ladder)) (t : Prices) : Prices × Nat × Nat :=
  let rows := (ladders.filter fun l => !l.2.isEmpty).map fun l =>
    (⟨l.1, region, observedAt, l.2.levels, l.2.total, l.2.encode⟩ : PriceLadder)
  let done := { t with
    samples := samples.foldl Keyed.add t.samples
    ladders := rows.foldl Keyed.add t.ladders }
  (done, done.samples.rows.length - t.samples.rows.length,
    done.ladders.rows.length - t.ladders.rows.length)

/-- The samples of an item from an instant on, in order of time. -/
def history (item : ItemId) (region : Region) (since : Millis) (t : Prices) : List PriceSample :=
  (t.samples.rows.filter fun s =>
      s.item = item ∧ s.region = region ∧ stored since ≤ stored s.observedAt).insertionSort
    fun a b => stored a.observedAt ≤ stored b.observedAt

/-- Whether a sample stands before another in the history of their region: by the item, and then by the
instant as it is stored. -/
def precedes (a b : PriceSample) : Prop :=
  a.item < b.item ∨ (a.item = b.item ∧ stored a.observedAt ≤ stored b.observedAt)

instance decidablePrecedes (a b : PriceSample) : Decidable (precedes a b) :=
  inferInstanceAs (Decidable (_ ∨ _))

/-- Every sample of every market in a region. -/
def historyInRegion (region : Region) (t : Prices) : List PriceSample :=
  (t.samples.rows.filter (·.region = region)).insertionSort precedes

/-- When the newest snapshot of a region was generated. -/
def lastObserved (region : Region) (t : Prices) : Option Millis :=
  greatestStored ((t.samples.rows.filter (·.region = region)).map PriceSample.observedAt)

def recordAlert (alert : Alert) (t : Prices) : Prices := { t with alerts := t.alerts ++ [alert] }

/-- The alerts of a market. -/
def alertsOf (item : ItemId) (region : Region) (t : Prices) : List Alert :=
  t.alerts.filter fun a => a.item = item ∧ a.region = region

def lastAlertAt (item : ItemId) (region : Region) (t : Prices) : Option Millis :=
  greatestStored ((t.alertsOf item region).map Alert.observedAt)

end Prices

end Gavel.Storage
