import Gavel.Lib.Dict
import Gavel.Lib.Table
import Gavel.Market.Archive

/-!
# What the deployment says each catalogue's state is

A catalogue's content ships with the program; its state is in the database, and falls back to the one it
ships with. A visitor sees the catalogues whose state is public.
-/

namespace Gavel.Market

open Gavel.Sorting

structure CatalogSet where
  catalogs : List Catalog

namespace CatalogSet

/-- What a database that has never seen the catalogues is seeded with. -/
def shippedStates (s : CatalogSet) : List (Text × CatalogStatus) := s.catalogs.map fun c => (c.id, c.status)

/-- Active first, then the newest. -/
def display (stateOf : Catalog → CatalogStatus) : Catalog → Catalog → Ordering :=
  compareLex (fun a b => compare (stateOf b).isActive (stateOf a).isActive)
    (compareLex (fun a b => compare b.spanStart a.spanStart) (compareOn Catalog.id))

def orderedBy (s : CatalogSet) (stateOf : Catalog → CatalogStatus) : List Catalog :=
  sortWith (display stateOf) s.catalogs

/-- A catalogue by id, whatever state it is in. -/
def byId (s : CatalogSet) (id : Text) : Option Catalog := s.catalogs.find? (·.id = id)

end CatalogSet

/-- The states, as the database last reported them. -/
structure ReleaseStates where
  states : Dict Text CatalogStatus

namespace ReleaseStates

def new : ReleaseStates := ⟨Keyed.empty⟩

/-- Replace the whole map. -/
def replace (states : List (Text × CatalogStatus)) : ReleaseStates :=
  ⟨states.foldl (fun held s => held.put s.1 s.2) Keyed.empty⟩

/-- A catalogue's state, or the one it ships with if the database has never seen it. -/
def stateOf (states : ReleaseStates) (c : Catalog) : CatalogStatus := (states.states.get? c.id).getD c.status

end ReleaseStates

/-! ## What a visitor sees -/

section Public

variable (catalogs : CatalogSet) (states : ReleaseStates)

/-- The catalogue that is collected. -/
def active : Option Catalog := catalogs.catalogs.find? fun c => (states.stateOf c).isActive

/-- A catalogue by id, for anybody. -/
def public' (id : Text) : Option Catalog := (catalogs.byId id).filter fun c => (states.stateOf c).isPublic

/-- Every catalogue a visitor may see, in display order. -/
def publicAll : List Catalog := (catalogs.orderedBy states.stateOf).filter fun c => (states.stateOf c).isPublic

/-- Every catalogue, for the administrator. -/
def all : List Catalog := catalogs.orderedBy states.stateOf

/-- Write a value for every item of a catalogue; a later entry overwrites an earlier one. -/
def insertItems {β : Type} (value : CatalogItem → β) (m : Table β) (c : Catalog) : Table β :=
  c.items.foldl (fun m item => item.itemIds.foldl (fun m id => m.insert id (value item)) m) m

/-- Which catalogue owns an item: the first in display order, which is written last. -/
def publicOwners : Table Catalog :=
  (publicAll catalogs states).reverse.foldl (fun owners c => insertItems (fun _ => c) owners c) ∅

/-- One item, and the public catalogue that describes it. -/
def publicItem (item : ItemId) : Option (Catalog × CatalogItem) :=
  (publicAll catalogs states).findSome? fun c => (c.find item).map fun entry => (c, entry)

/-- Every item a visitor may see, and the catalogue that describes it. -/
def publicIndex : Table (Catalog × CatalogItem) :=
  (publicAll catalogs states).reverse.foldl (fun index c => insertItems (fun item => (c, item)) index c) ∅

/-- The public archive. -/
def archive : Archive := Archive.of (publicAll catalogs states) fun c => (states.stateOf c).isCollected

end Public

end Gavel.Market
