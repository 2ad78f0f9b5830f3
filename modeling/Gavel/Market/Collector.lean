import Gavel.Market.Depth

/-!
# The commodity collector

What is taken from one answer of the region-wide auction house, and the two things its listings are
reduced to: the statistics of a sample and a ladder.
-/

namespace Gavel.Market

open Gavel.Cluster (Millis)

/-! ## The wire format -/

/-- An auction as the provider sends it. A price that is left out is read as zero. -/
structure RawAuction where
  item : ItemId
  quantity : Nat
  unitPrice : Option Nat
  deriving DecidableEq

/-- The most auctions that are taken from one answer. -/
def mostCommodities : Nat := 3000000

/-- The listings of an answer that are wanted. -/
def commodityListings (wanted : List ItemId) (auctions : List RawAuction) : Except Text (List Listing) :=
  if mostCommodities < auctions.length then
    .error "commodities payload contains too many auctions".toList
  else
    .ok ((auctions.filter fun a => a.item ∈ wanted).map fun a => ⟨a.item, a.unitPrice.getD 0, a.quantity⟩)

/-! ## Statistics -/

/-- Summary of one item's listings at one moment. -/
structure PriceStats where
  min : Copper
  p05 : Copper
  median : Copper
  quantity : Nat
  listings : Nat
  deriving DecidableEq

namespace Stats

/-- The price of the first listing, in order, at which the units seen reach a target. -/
def priceReaching (target : Nat) : Nat → List Listing → Option Copper
  | _, [] => none
  | seen, listing :: rest =>
      let seen := (seen + listing.quantity) % 2 ^ 64
      if target ≤ seen then some listing.unitPrice else priceReaching target seen rest

/-- The price at which the cheapest `percent` of the supply of sorted listings has been consumed. -/
def quantilePrice (listings : List Listing) (totalQuantity percent : Nat) : Copper :=
  let target := max ((totalQuantity * percent % 2 ^ 64 + 99) / 100) 1
  match priceReaching target 0 listings with
  | some price => price
  | none => (listings.getLast?.map Listing.unitPrice).getD 0

/-- Reduce every listing of one item into a single sample. -/
def summarise (listings : List Listing) : Option PriceStats :=
  let sorted := sortBy Listing.unitPrice listings
  let total := (sorted.map Listing.quantity).sum % 2 ^ 64
  match sorted with
  | [] => none
  | first :: _ =>
      if total = 0 then none
      else some {
        min := first.unitPrice
        p05 := quantilePrice sorted total 5
        median := quantilePrice sorted total 50
        quantity := total
        listings := sorted.length % 2 ^ 32 }

end Stats

def PriceStats.intoSample (stats : PriceStats) (item : ItemId) (region : Region) (observedAt : Millis) :
    PriceSample :=
  { item
    region
    observedAt
    minUnitPrice := stats.min
    p05UnitPrice := stats.p05
    medianUnitPrice := stats.median
    quantity := stats.quantity
    listings := stats.listings }

/-! ## A snapshot -/

/-- Listings by their item. -/
def listingsByItem (listings : List Listing) : List (ItemId × List Listing) :=
  listings.foldl (fun groups l => Assoc.alter l.item (fun held => held.getD [] ++ [l]) groups) []

/-- Reduce the listings of every item twice: to a sample and to a ladder. -/
def summariseAll (region : Region) (at' : Millis) (listings : List Listing) :
    List PriceSample × List (ItemId × Ladder) :=
  ((listingsByItem listings).filterMap fun group => do
      let stats ← Stats.summarise group.2
      return stats.intoSample group.1 region at',
    (listingsByItem listings).filterMap fun group => do
      let _ ← Stats.summarise group.2
      return (group.1, Ladder.of group.2))

end Gavel.Market
