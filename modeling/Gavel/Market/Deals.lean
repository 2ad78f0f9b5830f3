import Gavel.Lib.Sorting
import Gavel.Market.Rollup

/-!
# Cross-realm deals

Which of the published per-realm markets are cheap enough somewhere, and well enough known, to be called a
deal.
-/

namespace Gavel.Market

open Gavel.Sorting

/-- Below this a cheap item is noise. -/
def minDealPrice : Copper := 1500000

def minListingRealms : Nat := 3

def minListingCoveragePercent : Nat := 50

/-- So many offers give the current prices a shape. -/
def percentileRealms : Nat := 15

/-- What rows are grouped by: one market, in every realm. -/
structure DealGroup where
  item : ItemId
  kind : ItemKind
  track : Option Track
  deriving DecidableEq

namespace DealGroup

/-- The components of a group as numbers, in the order they are compared; no track comes first. -/
def places (g : DealGroup) : List Nat := [g.item, g.kind.place, (g.track.map fun t => t.place + 1).getD 0]

def le (a b : DealGroup) : Prop := a.places ≤ b.places

instance decidableLe : DecidableRel le := fun a b => inferInstanceAs (Decidable (a.places ≤ b.places))

end DealGroup

def MarketRollup.dealGroup (row : MarketRollup) : DealGroup := ⟨row.item, row.kind, row.track⟩

/-- A market whose cheapest realm is cheap enough to say so. -/
structure Deal where
  item : ItemId
  kind : ItemKind
  track : Option Track
  realm : RealmId
  price : Copper
  threshold : Copper
  savingPercent : Nat
  realmsListing : Nat
  realmsCollected : Nat
  deriving DecidableEq

namespace Deal

def group (d : Deal) : DealGroup := ⟨d.item, d.kind, d.track⟩

/-- The largest saving first, then the cheapest, then by item and track. -/
def order : Deal → Deal → Ordering :=
  compareLex (fun a b => compare b.savingPercent a.savingPercent) <|
    compareLex (compareOn price) <|
      compareLex (compareOn item) (compareOn fun d => (d.track.map fun t => t.place + 1).getD 0)

end Deal

/-- The deals, and how many candidates the evidence withheld. -/
structure DealSelection where
  deals : List Deal
  suppressed : Nat
  deriving DecidableEq

namespace Deals

/-- A product that stays at the largest 32-bit number. -/
def satMul32 (a b : Nat) : Nat := min (a * b) maxU32

/-- There is a position and it was not refused. -/
def sufficient (row : MarketRollup) : Bool :=
  row.position.any fun position => position.insufficient.isNone

/-- What one row offers: nothing unless it is a realm's and something is on sale. -/
def offer (requireEvidence : Bool) (row : MarketRollup) : Option (Copper × RealmId) :=
  match row.scope with
  | .region => none
  | .realm realm =>
      if (!requireEvidence || sufficient row) && decide (0 < row.listingsNow) then
        row.cheapestNow.map fun price => (price, realm)
      else none

/-- What the realms ask, cheapest first and the lowest realm of a price first. -/
def offered (rows : List MarketRollup) (requireEvidence : Bool) : List (Copper × RealmId) :=
  sortWith (compareLex (compareOn Prod.fst) (compareOn Prod.snd)) (rows.filterMap (offer requireEvidence))

/-- The median, and no more than a third of the offers once there are enough of them. -/
def threshold (historicalMedian : Copper) (offered : List (Copper × RealmId)) : Copper :=
  if percentileRealms ≤ offered.length then
    min historicalMedian ((offered[offered.length / 3]?.map Prod.fst).getD 0)
  else historicalMedian

/-- The row of a group that covers the region. -/
def regionalRow (rows : List MarketRollup) : Option MarketRollup :=
  rows.find? fun row => row.scope = .region

/-- The deal of one group. -/
def deal (rows : List MarketRollup) : Option Deal := do
  let regional ← regionalRow rows
  let historicalMedian := (← regional.distribution).median
  let position ← regional.position
  if position.insufficient.isSome ∨ regional.realmsListing < minListingRealms ∨
      regional.realmsCollected = 0 ∨
      satMul32 regional.realmsListing 100 < satMul32 regional.realmsCollected minListingCoveragePercent then
    none
  else
    let offered := offered rows true
    let (price, realm) ← offered.head?
    let limit := threshold historicalMedian offered
    if price < minDealPrice ∨ limit ≤ price then none
    else some {
      item := regional.item
      kind := regional.kind
      track := regional.track
      realm
      price
      threshold := limit
      savingPercent := (limit - price) * 100 % 2 ^ 64 / limit % 2 ^ 8
      realmsListing := regional.realmsListing
      realmsCollected := regional.realmsCollected }

/-- Whether a group would be cheap enough, whatever its evidence. -/
def candidate (rows : List MarketRollup) : Bool :=
  match regionalRow rows with
  | none => false
  | some regional =>
      match regional.distribution with
      | none => false
      | some distribution =>
          let offered := offered rows false
          match offered.head? with
          | none => false
          | some (price, _) =>
              decide (minDealPrice ≤ price) && decide (price < threshold distribution.median offered)

/-- The rows that are no commodity's, by market. -/
def groups (rows : List MarketRollup) : List (DealGroup × List MarketRollup) :=
  Groups.grouped DealGroup.le MarketRollup.dealGroup (rows.filter fun row => !row.kind.isCommodity)

/-- Select the deals, and count the candidates that were withheld. -/
def select (rows : List MarketRollup) : DealSelection :=
  { deals := sortWith Deal.order ((groups rows).filterMap fun group => deal group.2)
    suppressed := (groups rows).countP fun group => (deal group.2).isNone && candidate group.2 }

end Deals

end Gavel.Market
