import Gavel.Market.Depth
import Mathlib.Data.Int.Init

/-!
# Catalogues and windows

Which items are tracked and under which ranks, what a bonus id means, the dates of patches and raid
tiers, and the intervals a market is described over. The fields of an item that only pages show are
left out.
-/

namespace Gavel.Market

open Gavel.Cluster (Millis)

/-! ## Dates -/

/-- A number as a signed 64-bit one. -/
def asI64 (n : Int) : Int := Int.bmod n (2 ^ 64)

theorem asI64_eq {n : Int} (h0 : -2 ^ 63 ≤ n) (h1 : n < 2 ^ 63) : asI64 n = n :=
  Int.bmod_eq_of_le (by omega) (by omega)

/-- Midnight UTC on a calendar date, counting days by eras of 400 years. -/
def fromUtcDate (year : Int) (month day : Nat) : Millis :=
  let y := if month ≤ 2 then year - 1 else year
  let era := y / 400
  let yoe := y - era * 400
  let mp : Int := if 2 < month then month - 3 else month + 9
  let doy := (153 * mp + 2) / 5 + day - 1
  let doe := yoe * 365 + yoe / 4 - yoe / 100 + doy
  let days := asI64 (era * 146097 + doe - 719468)
  (max days 0).toNat * 86400000 % 2 ^ 64

/-- A number cut down to an unsigned 32-bit one. -/
def asU32 (n : Int) : Nat := (n % 2 ^ 32).toNat

/-- The calendar date and the time of day, UTC. -/
def toUtcParts (at' : Millis) : Int × Nat × Nat × Nat × Nat × Nat :=
  let secs := asI64 ((at' / 1000 : Nat) : Int)
  let days := secs / 86400
  let rem := secs % 86400
  let z := days + 719468
  let era := z / 146097
  let doe := z % 146097
  let yoe := (doe - doe / 1460 + doe / 36524 - doe / 146096) / 365
  let y := yoe + era * 400
  let doy := doe - (365 * yoe + yoe / 4 - yoe / 100)
  let mp := (5 * doy + 2) / 153
  let d := asU32 (doy - (153 * mp + 2) / 5 + 1)
  let m := asU32 (if mp < 10 then mp + 3 else mp - 9)
  let y := if m ≤ 2 then y + 1 else y
  (y, m, d, asU32 (rem / 3600), asU32 (rem % 3600 / 60), asU32 (rem % 60))

/-- A date as year, month and day. The minus sign of a year counts for its width. -/
def dateText (year : Int) (month day : Nat) : Text :=
  (if year < 0 then '-' :: Text.padded 3 year.natAbs else Text.padded 4 year.natAbs) ++
    '-' :: Text.padded 2 month ++ '-' :: Text.padded 2 day

def toDateString (at' : Millis) : Text :=
  let (y, mo, d, _, _, _) := toUtcParts at'
  dateText y mo d

/-- A date written year, month and day; whatever follows a third separator is not looked at. -/
def parseDate (value : Text) : Option Millis := do
  match value.splitOn '-' with
  | year :: month :: day :: _ =>
      let year ← Text.parseNat (2 ^ 63 - 1) year
      let month ← Text.parseNat maxU32 month
      let day ← Text.parseNat maxU32 day
      if 1 ≤ month ∧ month ≤ 12 ∧ 1 ≤ day ∧ day ≤ 31 then some (fromUtcDate year month day)
      else none
  | _ => none

structure Patch where
  patch : Text
  name : Text
  started : Text
  deriving DecidableEq

def Patch.startedAt (p : Patch) : Millis := (parseDate p.started).getD 0

structure RaidTier where
  id : Text
  name : Text
  patch : Text
  opened : Text
  season : Option Nat
  deriving DecidableEq

def RaidTier.openedAt (t : RaidTier) : Millis := (parseDate t.opened).getD 0

/-! ## Catalogues -/

structure ItemRank where
  rank : Nat
  itemId : ItemId
  deriving DecidableEq

structure CatalogItem where
  name : Text
  kind : ItemKind
  ranks : List ItemRank
  targetQuantity : Option Nat
  /-- A price per unit that is worth an alert before there is history enough to compare with. -/
  floorCopper : Option Copper := none
  deriving DecidableEq

namespace CatalogItem

def target (i : CatalogItem) : Target :=
  match i.targetQuantity with
  | some units => ⟨units⟩
  | none => Target.of i.kind

def itemIds (i : CatalogItem) : List ItemId := i.ranks.map ItemRank.itemId

def rankOf (i : CatalogItem) (item : ItemId) : Option Nat :=
  (i.ranks.find? (·.itemId = item)).map ItemRank.rank

end CatalogItem

structure ItemLevel where
  itemLevel : Nat
  upgrade : Text
  deriving DecidableEq

inductive CatalogStatus where
  | draftPtr | active | archived
  deriving DecidableEq

namespace CatalogStatus

def isActive : CatalogStatus → Bool
  | .active => true
  | _ => false

/-- Whether a visitor may see a catalogue of this status. -/
def isPublic : CatalogStatus → Bool
  | .active | .archived => true
  | .draftPtr => false

def isCollected : CatalogStatus → Bool
  | .active => true
  | _ => false

@[simp] theorem isActive_iff {s : CatalogStatus} : s.isActive = true ↔ s = .active := by
  cases s <;> simp [isActive]

end CatalogStatus

/-- One expansion's catalogue. The three maps are keyed by the decimal form of a bonus id. -/
structure Catalog where
  id : Text
  expansion : Text
  status : CatalogStatus
  catalogVersion : Nat
  patches : List Patch
  raidTiers : List RaidTier
  items : List CatalogItem
  itemLevels : List (Text × ItemLevel)
  tracks : List (Text × Track)
  modifiers : List (Text × Text)
  notes : List Text
  deriving DecidableEq

namespace Catalog

/-- Every patch from the instant it started to the instant the next one did. -/
def patchWindows (c : Catalog) : List (Patch × Millis × Option Millis) :=
  let sorted := sortBy Patch.startedAt c.patches
  sorted.mapIdx fun i patch => (patch, patch.startedAt, (sorted[i + 1]?).map Patch.startedAt)

/-- When the expansion began. -/
def spanStart (c : Catalog) : Millis := ((c.patches.map Patch.startedAt).min?).getD 0

def find (c : Catalog) (item : ItemId) : Option CatalogItem :=
  c.items.find? fun i => (i.rankOf item).isSome

/-- How many units of an item somebody buying it wants. -/
def targetOf (c : Catalog) (item : ItemId) : Option Target := (c.find item).map CatalogItem.target

def itemLevel (c : Catalog) (bonus : Nat) : Option ItemLevel :=
  (c.itemLevels.find? (·.1 = Text.decimal bonus)).map Prod.snd

def track (c : Catalog) (bonus : Nat) : Option Track :=
  (c.tracks.find? (·.1 = Text.decimal bonus)).map Prod.snd

def modifier (c : Catalog) (bonus : Nat) : Option Text :=
  (c.modifiers.find? (·.1 = Text.decimal bonus)).map Prod.snd

/-- The bonus ids of a variant; what does not read as a number is skipped. -/
def bonuses (variant : Text) : List Nat := (variant.splitOn ',').filterMap (Text.parseNat maxU32)

def upgradeIn (c : Catalog) (variant : Text) : Option Nat :=
  (bonuses variant).find? fun id => (c.itemLevel id).isSome

def rankIn (c : Catalog) (variant : Text) : Option ItemLevel := (c.upgradeIn variant).bind c.itemLevel

/-- The track of a variant: the one a bonus id names, else the one its upgrade is worded after. -/
def trackIn (c : Catalog) (variant : Text) : Option Track :=
  ((bonuses variant).findSome? c.track).or ((c.rankIn variant).bind fun l => Track.parse l.upgrade)

def modifierNames (c : Catalog) (variant : Text) : List Text := (bonuses variant).filterMap c.modifier

/-- The market an observation belongs to. -/
def marketOf (c : Catalog) (sample : PriceSample) : MarketKey :=
  .ofCommodity sample.region sample.item
    (((c.find sample.item).bind (·.rankOf sample.item)).getD 1)

/-- The item levels of several variants, as one number or as a range. -/
def levelRange (c : Catalog) (variants : List Text) : Text :=
  let levels := variants.filterMap fun v => (c.rankIn v).map ItemLevel.itemLevel
  match levels.min?, levels.max? with
  | some low, some high =>
      if low = high then Text.decimal low else Text.decimal low ++ '–' :: Text.decimal high
  | _, _ => []

end Catalog

/-! ## Windows -/

/-- One interval a market is summarised over. -/
inductive Window where
  | days (n : Nat)
  | patch (id : Text)
  | tier (id : Text)
  | expansion
  | all
  deriving DecidableEq

namespace Window

/-- The interval from an instant, up to now where it has no end. -/
def bounds (w : Window) (c : Catalog) (now : Millis) : Option (Millis × Option Millis) :=
  match w with
  | .days n => some (now - n * dayMs % 2 ^ 64, none)
  | .patch id => (c.patchWindows.find? (·.1.patch = id)).map Prod.snd
  | .tier id =>
      (c.raidTiers.find? (·.id = id)).map fun tier =>
        (tier.openedAt, ((c.raidTiers.map RaidTier.openedAt).filter (tier.openedAt < ·)).min?)
  | .expansion => some (c.spanStart, none)
  | .all => some (0, none)

/-- How many hourly observations a complete window would hold. -/
def expectedBuckets (w : Window) (c : Catalog) (now : Millis) : Option Nat := do
  let (since, until') ← w.bounds c now
  if since = 0 then none else some ((until'.getD now - since) / hourMs % 2 ^ 32)

/-- The rolling windows every market gets. -/
def rollingDays : List Nat := [1, 3, 7, 14, 30]

/-- Every window that does not depend on a catalogue. -/
def universal : List Window := rollingDays.map .days ++ [.expansion, .all]

/-- Every window a market in this catalogue is summarised over. -/
def allFor (c : Catalog) : List Window :=
  universal ++ c.patches.map (fun p => .patch p.patch) ++ c.raidTiers.map (fun t => .tier t.id)

/-- The stored form. -/
def key : Window → Text
  | .days n => Text.decimal n ++ ['d']
  | .patch id => "patch:".toList ++ id
  | .tier id => "tier:".toList ++ id
  | .expansion => "expansion".toList
  | .all => "all".toList

/-- The window a stored key names. A text that ends in `d` is only ever read as a number of days. -/
def parse (raw : Text) : Option Window :=
  if raw = "expansion".toList then some .expansion
  else if raw = "all".toList then some .all
  else match Text.dropLast? 'd' raw with
    | some count => (Text.parseNat maxU64 count).map .days
    | none => match Text.dropFirst? "patch:".toList raw with
      | some id => if id.isEmpty then none else some (.patch id)
      | none => match Text.dropFirst? "tier:".toList raw with
        | some id => if id.isEmpty then none else some (.tier id)
        | none => none

end Window

end Gavel.Market
