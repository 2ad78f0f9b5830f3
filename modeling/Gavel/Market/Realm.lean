import Gavel.Lib.Groups
import Gavel.Market.Depth

/-!
# The per-realm auction house

What one snapshot of a connected realm's auctions holds and what it is reduced to: one sample and one
ladder for each version of each item.
-/

namespace Gavel.Market

open Gavel.Cluster (Millis)

/-- A single gear auction; the bonus ids are sorted and without repetition. -/
structure GearListing where
  item : ItemId
  price : Copper
  bonusIds : List Nat
  deriving DecidableEq

/-- Everything that distinguishes one version of an item from another. -/
def GearListing.variant (l : GearListing) : Text := [','].intercalate (l.bonusIds.map Text.decimal)

/-- The most auctions the client takes from one answer. -/
def mostAuctions : Nat := 1500000

/-- The auctions of one snapshot as the client hands them over. -/
structure Fetched where
  listings : List GearListing
  few : listings.length ≤ mostAuctions
  /-- An auction without a positive 64-bit buyout or bid is left out. -/
  priced : ∀ l ∈ listings, 0 < l.price ∧ l.price ≤ maxU64

/-- One variant of one item on one realm at one moment. -/
structure RealmSample where
  item : ItemId
  region : Region
  realm : RealmId
  variant : Text
  observedAt : Millis
  minPrice : Copper
  medianPrice : Copper
  maxPrice : Copper
  listings : Nat
  deriving DecidableEq

/-- A variant of an item, and its ladder. -/
abbrev RealmLadder := ItemId × Text × Ladder

/-- A version of an item: what a realm's auctions are grouped by. -/
abbrev Version := ItemId × Text

/-- Versions in the order of their items, then of their variants as texts. -/
def Version.le (a b : Version) : Prop :=
  a.1 :: a.2.map Char.toNat ≤ b.1 :: b.2.map Char.toNat

instance Version.decidableLe : DecidableRel Version.le :=
  fun a b => inferInstanceAs (Decidable (a.1 :: a.2.map Char.toNat ≤ b.1 :: b.2.map Char.toNat))

def GearListing.version (l : GearListing) : Version := (l.item, l.variant)

def RealmSample.version (s : RealmSample) : Version := (s.item, s.variant)

/-- The versions on sale in a realm, each with the listings of it. -/
def versionsOf (listings : List GearListing) : List (Version × List GearListing) :=
  Groups.grouped Version.le GearListing.version listings

/-- The prices of a version, cheapest first. -/
def pricesOf (group : List GearListing) : List Copper := sortBy id (group.map GearListing.price)

/-- The sample of one version. -/
def sampleOf (region : Region) (realm : RealmId) (observedAt : Millis)
    (entry : Version × List GearListing) : Option RealmSample := do
  let prices := pricesOf entry.2
  let min ← prices.head?
  let max ← prices.getLast?
  return {
    item := entry.1.1
    region
    realm
    variant := entry.1.2
    observedAt
    minPrice := min
    medianPrice := prices.getD (prices.length / 2) 0
    maxPrice := max
    listings := prices.length % 2 ^ 32 }

/-- The ladder of one version: every auction is one item. -/
def ladderOf (entry : Version × List GearListing) : RealmLadder :=
  (entry.1.1, entry.1.2, Ladder.of ((pricesOf entry.2).map fun price => ⟨entry.1.1, price, 1⟩))

/-- Reduce a realm's listings to one sample, and one ladder, for every version of an item. -/
def summariseRealm (listings : List GearListing) (region : Region) (realm : RealmId)
    (observedAt : Millis) : List RealmSample × List RealmLadder :=
  ((versionsOf listings).filterMap (sampleOf region realm observedAt),
    (versionsOf listings).map ladderOf)

end Gavel.Market
