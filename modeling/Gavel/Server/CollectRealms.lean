import Gavel.Lib.Dict
import Gavel.Lib.Fanout
import Gavel.Market.Cadence
import Gavel.Market.Catalog
import Gavel.Storage.RealmPrices

/-!
# Collecting gear prices

A cycle asks for the auctions of every realm that is switched on and due, at most a fixed number of realms
at a time. Each realm takes four calls to the store and the provider, and between two of them other realms
may make theirs.
-/

namespace Gavel.Market

def ItemKind.asStr : ItemKind → Text
  | .consumable => "consumable".toList
  | .reagent => "reagent".toList
  | .enchant => "enchant".toList
  | .gem => "gem".toList
  | .boe => "boe".toList
  | .recipe => "recipe".toList

/-- One realm's auction house, named. -/
structure Realm where
  id : RealmId
  region : Region
  name : Text
  members : List Text
  locale : Text
  /-- A realm switched off keeps its samples and gains no more. -/
  enabled : Bool
  deriving DecidableEq

def Realm.key (r : Realm) : Region × RealmId := (r.region, r.id)

end Gavel.Market

namespace Gavel.Storage

open Gavel.Cluster (Millis)
open Gavel.Market

/-- The table of realms. -/
abbrev RealmDirectory := Keyed Realm (Region × RealmId) Realm.key

namespace RealmDirectory

/-- Record a realm that was discovered. One that is known keeps its switch. -/
def recordRealm (t : RealmDirectory) (r : Realm) : RealmDirectory :=
  if t.has r.key = true then
    t.change r.key (fun old => { old with name := r.name, members := r.members, locale := r.locale }) fun _ => rfl
  else t.add r

def setRealmEnabled (t : RealmDirectory) (region : Region) (realm : RealmId) (enabled : Bool) : RealmDirectory :=
  t.change (region, realm) (fun old => { old with enabled }) fun _ => rfl

/-- A realm is discovered, or an operator switches one. -/
inductive Write where
  | discovered (r : Realm)
  | switched (region : Region) (realm : RealmId) (enabled : Bool)

def write (t : RealmDirectory) : Write → RealmDirectory
  | .discovered r => t.recordRealm r
  | .switched region realm enabled => t.setRealmEnabled region realm enabled

/-- The realms in the order of their regions, then of their names. -/
def realms (t : RealmDirectory) : List Realm :=
  t.rows.insertionSort fun a b =>
    [a.region.asStr.map Char.toNat, a.name.map Char.toNat] ≤ [b.region.asStr.map Char.toNat, b.name.map Char.toNat]

end RealmDirectory

/-- When a realm was seen last, by the ledger or by a row; an instant of zero stands for none. -/
def RealmPrices.lastObserved (t : RealmPrices) (region : Region) (realm : RealmId) : Option Millis :=
  (greatestStored ((t.snapshots.rows.filter fun n => n.region = region ∧ n.realm = realm).map Seen.observedAt ++
      (t.samples.rows.filter fun s => s.region = region ∧ s.realm = realm).map RealmSample.observedAt)).filter
    (0 < ·)

end Gavel.Storage

namespace Gavel.Server

open Gavel.Cluster (Millis)
open Gavel.Market
open Gavel.Storage (RealmDirectory RealmPrices)

/-- What the tasks of a cycle share: the prices and the key-value store. -/
structure GearStore where
  prices : RealmPrices
  kv : Dict Text Text

/-- What the provider has for one realm. -/
inductive RealmSnapshot where
  /-- Unchanged since the instant that was sent. -/
  | notModified
  | fresh (generatedAt : Millis) (listings : List GearListing)

/-- Where the collection of one realm stands. -/
inductive RealmCall where
  | lastObserved
  | auctions (since : Option Millis)
  | recordSnapshot (generatedAt : Millis) (listings : List GearListing)
  | saveCadence (outcome : PollOutcome)
  /-- Over; without an outcome it has panicked. -/
  | ended (outcome : Option PollOutcome)

/-- What comes of one call: how late it is, whether the store does its part, what the provider answers if
it is asked, and whether the task panics. -/
structure RealmAnswer where
  now : Millis
  stored : Bool
  auctions : Region → RealmId → List ItemId → Option Millis → Option RealmSnapshot
  panics : Bool

/-- What a cycle goes by. -/
structure RealmCycle where
  isConfigured : Bool
  activeCatalog : Option Catalog
  /-- The categories that are switched off, if they can be read. -/
  disabled : Option (List Text)
  /-- The directory, if it can be read. -/
  directory : Option RealmDirectory
  /-- Whether the schedule of a realm can be read. -/
  readable : Realm → Bool
  now : Millis
  realmMinIntervalMs : Nat
  realmMaxIntervalMs : Nat
  nodesOnline : Nat

def realmCadenceKey (realm : Realm) : Text :=
  "market/realm-cadence/".toList ++ realm.region.asStr ++ '/' :: Text.decimal realm.id

namespace RealmCycle

variable (c : RealmCycle)

/-- The items that are traded realm by realm, less the categories that are switched off. -/
def wanted : List ItemId :=
  match c.activeCatalog with
  | some catalog =>
      (catalog.items.filter fun i => !i.kind.isCommodity && !(c.disabled.getD []).contains i.kind.asStr).flatMap
        CatalogItem.itemIds
  | none => []

def loadRealmCadence (s : GearStore) (realm : Realm) : RealmCadence :=
  let stored := if c.readable realm then s.kv.get? (realmCadenceKey realm) else none
  .scheduled stored c.now c.realmMinIntervalMs c.realmMaxIntervalMs

/-- The realms that are switched on and due, each with its schedule. -/
def due (s : GearStore) : List (Realm × RealmCadence) :=
  if c.isConfigured && !c.wanted.isEmpty then
    let realms := ((c.directory.map RealmDirectory.realms).getD []).filter Realm.enabled
    (realms.map fun r => (r, c.loadRealmCadence s r)).filter fun d => d.2.isDue c.now
  else []

/-- How many realms are in flight: one for each node. -/
def fanOut : Nat := min (max c.nodesOnline 1) 16

def saveRealmCadence (s : GearStore) (realm : Realm) (cadence : RealmCadence) : GearStore :=
  { s with kv := s.kv.put (realmCadenceKey realm) cadence.display }

/-- One call of the collection of one realm. -/
def collectOneRealm (d : Realm × RealmCadence) (at' : RealmCall) (a : RealmAnswer) (s : GearStore) :
    GearStore × RealmCall :=
  let (realm, cadence) := d
  if a.panics then (s, .ended none)
  else
    match at' with
    | .lastObserved => (s, .auctions (if a.stored then s.prices.lastObserved realm.region realm.id else none))
    | .auctions since =>
        match a.auctions realm.region realm.id c.wanted since with
        | some .notModified => (s, .saveCadence .unchanged)
        | some (.fresh generatedAt listings) => (s, .recordSnapshot generatedAt listings)
        | none => (s, .saveCadence .failed)
    | .recordSnapshot generatedAt listings =>
        if a.stored then
          let (samples, ladders) := summariseRealm listings realm.region realm.id generatedAt
          let (prices, _) := s.prices.recordSnapshot samples realm.region realm.id generatedAt ladders
          ({ s with prices }, .saveCadence .collected)
        else (s, .saveCadence .failed)
    | .saveCadence outcome =>
        let next := outcome.next cadence a.now c.realmMinIntervalMs c.realmMaxIntervalMs
        (if a.stored then saveRealmCadence s realm next else s, .ended (some outcome))
    | .ended outcome => (s, .ended outcome)

def tasks : Tasks GearStore (Realm × RealmCadence) RealmCall RealmAnswer where
  first _ := .lastObserved
  call := c.collectOneRealm
  ended
    | .ended _ => true
    | _ => false

/-- What a task of a cycle is known by. -/
def realmOf (d : Realm × RealmCadence) : Region × RealmId := d.1.key

abbrev Cycle := Fanout GearStore (Realm × RealmCadence) RealmCall

abbrev CycleStep := FanoutStep (Region × RealmId) RealmAnswer

def start (s : GearStore) : Cycle := Fanout.start c.tasks c.fanOut s (c.due s)

def step : Cycle → CycleStep → Cycle := Fanout.step c.tasks realmOf c.fanOut

/-- A cycle from its start, with whatever comes of its calls and in whatever order. -/
def after (s : GearStore) (steps : List CycleStep) : Cycle := Run.final c.step (c.start s) steps

/-- Whether a cycle brought anything new. -/
def collected (s : Cycle) : Bool :=
  s.joined.any fun p =>
    match p.2 with
    | .ended (some .collected) => true
    | _ => false

end RealmCycle

end Gavel.Server
