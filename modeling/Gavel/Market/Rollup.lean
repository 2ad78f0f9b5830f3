import Gavel.Market.Analysis
import Gavel.Market.Catalog
import Gavel.Market.Materialise
import Gavel.Market.Realm

/-!
# Rolling up per-realm markets

A gear or recipe market is one price for each connected realm. One row describes a region's worth of
them, and one row of the same shape describes each realm.
-/

namespace Gavel.Market

open Gavel.Cluster (Millis)

/-- Realms stand this far apart where each is made a bucket of its own. -/
def bucketApart : Nat := 60 * 60 * 1000

/-- One item level inside a track, and what it costs. -/
structure LevelStat where
  itemLevel : Nat
  upgrade : Text
  cheapest : Copper
  highest : Copper
  listings : Nat
  realms : Nat
  deriving DecidableEq

/-- How common one socket or tertiary is: in the newest snapshot, and across the window. -/
structure ModifierStat where
  name : Text
  now : Nat
  seen : Nat
  deriving DecidableEq

/-- What a roll-up covers. -/
inductive Scope where
  | region
  | realm (id : RealmId)
  deriving DecidableEq

/-- The stored form: zero means every realm. -/
def Scope.realmId : Scope → Nat
  | .region => 0
  | .realm id => id

/-- A region's, or one realm's, worth of one per-realm market. -/
structure MarketRollup where
  region : Region
  item : ItemId
  kind : ItemKind
  track : Option Track
  scope : Scope
  window : Window
  observedAt : Option Millis
  snapshots : Nat
  realmsListing : Nat
  cheapestNow : Option Copper
  cheapestRealm : Option RealmId
  realmsCollected : Nat
  realmSpread : Option Distribution
  dearestRealmNow : Option Copper
  dearestRealm : Option RealmId
  medianRealmNow : Option Copper
  highestNow : Option Copper
  cheapestEver : Option Copper
  highestEver : Option Copper
  listingsNow : Nat
  listingsSeen : Nat
  depth : Option Depth
  ladder : Ladder
  levelRange : Text
  levels : List LevelStat
  modifiers : List ModifierStat
  series : List Point
  distribution : Option Distribution
  position : Option Position
  swing : Nat
  deriving DecidableEq

/-- Every realm's newest ladder, by realm, item and variant. -/
abbrev RealmLadders := List ((RealmId × ItemId × Text) × Ladder)

/-- What samples are rolled up by. -/
structure RollupGroup where
  region : Region
  item : ItemId
  kind : ItemKind
  track : Option Track
  deriving DecidableEq

namespace RollupGroup

/-- The components of a group as numbers, in the order they are compared; no track comes first. -/
def places (g : RollupGroup) : List Nat :=
  [g.region.place, g.item, g.kind.place, (g.track.map fun t => t.place + 1).getD 0]

def le (a b : RollupGroup) : Prop := a.places ≤ b.places

instance decidableLe : DecidableRel le :=
  fun a b => inferInstanceAs (Decidable (a.places ≤ b.places))

end RollupGroup

namespace Catalog

/-- The kind of an item, gear where the catalogue does not list it. -/
def kindOf (c : Catalog) (item : ItemId) : ItemKind := ((c.find item).map CatalogItem.kind).getD .boe

/-- The group a sample belongs to. -/
def groupOf (c : Catalog) (s : RealmSample) : RollupGroup :=
  let kind := c.kindOf s.item
  ⟨s.region, s.item, kind, if kind = .recipe then none else c.trackIn s.variant⟩

end Catalog

/-- When a realm last had a sample of an item, across every track. -/
def newestOf (history : List RealmSample) (region : Region) (item : ItemId) (realm : RealmId) :
    Option Millis :=
  ((history.filter fun s => s.region = region ∧ s.item = item ∧ s.realm = realm).map
    RealmSample.observedAt).max?

/-- The realms with a sample of an item. -/
def collectedOf (history : List RealmSample) (region : Region) (item : ItemId) : List RealmId :=
  ((history.filter fun s => s.region = region ∧ s.item = item).map RealmSample.realm).dedup

/-- The samples of a group that are of their realm's newest one for the item. -/
def currentOf (history samples : List RealmSample) : List RealmSample :=
  samples.filter fun s => newestOf history s.region s.item s.realm = some s.observedAt

/-- The cheapest copy on each realm, in ascending order of the realms. -/
def perRealm (current : List RealmSample) : List (RealmId × Copper) :=
  current.foldl (fun m s =>
    Assoc.alter s.realm (fun held => min (held.getD s.minPrice) s.minPrice) m) []

/-- A price that was recorded: rows without a dearest listing hold zero. -/
def known (price : Option Copper) : Option Copper := price.filter (0 < ·)

/-- The track broken apart by item level. -/
def levelsOf (current : List RealmSample) (c : Catalog) : List LevelStat :=
  let byLevel : List (Nat × ItemLevel × List RealmSample) :=
    current.foldl (fun m s =>
      match c.rankIn s.variant with
      | none => m
      | some level =>
          Assoc.alter level.itemLevel (fun held =>
            let (level, samples) := held.getD (level, [])
            (level, samples ++ [s])) m) []
  byLevel.map fun (itemLevel, level, samples) =>
    let cheapest := (samples.map RealmSample.minPrice).min?.getD 0
    { itemLevel
      upgrade := level.upgrade
      cheapest
      highest := (known (samples.map RealmSample.maxPrice).max?).getD cheapest
      listings := (samples.map RealmSample.listings).sum
      realms := (samples.map RealmSample.realm).dedup.length }

/-- The names of the modifiers of samples, each with the listings it counts for. -/
def namesIn (samples : List RealmSample) (c : Catalog) : List (Text × Nat) :=
  samples.flatMap fun s => (c.modifierNames s.variant).map fun name => (name, s.listings)

/-- How common each socket or tertiary is, in the order of their names. -/
def modifiersOf (samples current : List RealmSample) (c : Catalog) : List ModifierStat :=
  let now := namesIn current c
  (Groups.grouped (fun a b : Text => a.map Char.toNat ≤ b.map Char.toNat) Prod.fst
      (namesIn samples c)).map fun (name, seen) =>
    { name
      now := ((Groups.group Prod.fst now name).map Prod.snd).sum
      seen := (seen.map Prod.snd).sum }

/-- One point for each instant: the median of the prices at it, and their listings summed. -/
def seriesOf (samples : List RealmSample) : List Point :=
  let byInstant : List (Nat × List RealmSample) :=
    samples.foldl (fun m s => Assoc.alter s.observedAt (fun held => held.getD [] ++ [s]) m) []
  byInstant.map fun (at', atInstant) =>
    let cheapest := sortBy id (atInstant.map RealmSample.minPrice)
    { at'
      price := cheapest.getD (cheapest.length / 2) 0
      quantity := (atInstant.map RealmSample.listings).sum }

/-- The ladders one realm's market is made of, those of the variants that belong to it. -/
def laddersOf (g : RollupGroup) (scope : Scope) (ladders : RealmLadders) (c : Catalog) :
    List Ladder :=
  match scope with
  | .region => []
  | .realm realm =>
      (ladders.filter fun entry =>
        entry.1.1 = realm ∧ entry.1.2.1 = g.item ∧
          (g.kind = .recipe ∨ c.trackIn entry.1.2.2 = g.track)).map Prod.snd

/-- One roll-up of the samples in scope, read against the whole history. -/
def roll (F : Floating) (history : List RealmSample) (g : RollupGroup) (scope : Scope)
    (samples : List RealmSample) (ladders : RealmLadders) (c : Catalog) (window : Window) :
    MarketRollup :=
  let target := ((c.find g.item).map CatalogItem.target).getD (Target.of g.kind)
  let shelf := Ladder.merged (laddersOf g scope ladders c)
  let current := currentOf history samples
  let perRealm := perRealm current
  let across := sortBy id (perRealm.map Prod.snd)
  let cheapestNow := across.head?
  let cheapestEver := (samples.map RealmSample.minPrice).min?
  let medianRealmNow := across[across.length / 2]?
  let points := seriesOf samples
  let buckets := Buckets.fromObservations (points.map fun p => (p.at', p.price))
  let distribution := Distribution.of F buckets
  { region := g.region
    item := g.item
    kind := g.kind
    track := g.track
    scope
    window
    observedAt := (samples.map RealmSample.observedAt).max?
    snapshots := (samples.map RealmSample.observedAt).dedup.length % 2 ^ 32
    realmsListing := (current.map RealmSample.realm).dedup.length % 2 ^ 32
    cheapestNow
    cheapestRealm := (minBy Prod.snd perRealm).map Prod.fst
    realmsCollected :=
      match scope with
      | .realm _ => 1
      | .region => (collectedOf history g.region g.item).length % 2 ^ 32
    realmSpread := Distribution.of F
      (Buckets.fromObservations (perRealm.map fun (realm, price) => (realm * bucketApart, price)))
    dearestRealmNow := across.getLast?
    dearestRealm := (maxBy Prod.snd perRealm).map Prod.fst
    medianRealmNow
    highestNow := (known (current.map RealmSample.maxPrice).max?).or cheapestNow
    cheapestEver
    highestEver := (known (samples.map RealmSample.maxPrice).max?).or cheapestEver
    listingsNow := (current.map RealmSample.listings).sum
    listingsSeen := (samples.map RealmSample.listings).sum
    depth :=
      match scope with
      | .region => none
      | .realm _ => Depth.of shelf target
    ladder := shelf
    levelRange := c.levelRange (current.map RealmSample.variant)
    levels := levelsOf current c
    modifiers := modifiersOf samples current c
    series := downsample points chartPoints
    distribution
    position := distribution.map fun d =>
      Position.of F ((medianRealmNow.or cheapestNow).getD d.median) buckets none Gates.default
    swing := swingOf buckets }

/-- The realms of samples, in ascending order. -/
def realmsOf (samples : List RealmSample) : List RealmId :=
  sortBy id (samples.map RealmSample.realm).dedup

/-- Roll up a region's per-realm history: for each group one row for the region and one for each
realm that has any history. -/
def rollups (F : Floating) (history : List RealmSample) (ladders : RealmLadders) (c : Catalog)
    (window : Window) : List MarketRollup :=
  (Groups.grouped RollupGroup.le c.groupOf history).flatMap fun (g, samples) =>
    roll F history g .region samples ladders c window ::
      (realmsOf samples).map fun realm =>
        roll F history g (.realm realm) (samples.filter (·.realm = realm)) ladders c window

end Gavel.Market
