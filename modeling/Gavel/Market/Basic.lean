import Gavel.Cluster.Job
import Gavel.Lib.Text
import Gavel.Lib.Unicode
import Mathlib.Data.List.Sort

/-!
# Markets and observations

What identifies a market, what is observed of it at one moment, and what a chart plots. Prices are
whole copper, instants are milliseconds since the epoch, and texts are lists of characters.
-/

namespace Gavel.Market

open Gavel.Cluster (Millis)

abbrev ItemId := Nat

/-- A connected realm, unique only within a region. -/
abbrev RealmId := Nat

abbrev Copper := Nat

/-- The largest value of a 64-bit number. -/
def maxU64 : Nat := 2 ^ 64 - 1

/-- The largest value of a 32-bit number. -/
def maxU32 : Nat := 2 ^ 32 - 1

/-- The largest value of an 8-bit number. -/
def maxU8 : Nat := 2 ^ 8 - 1

/-- One hour of milliseconds. -/
def hourMs : Nat := 60 * 60 * 1000

/-- One day of milliseconds. -/
def dayMs : Nat := 24 * hourMs

inductive Region where
  | eu | us | kr | tw
  deriving DecidableEq

namespace Region

def asStr : Region → Text
  | .eu => "eu".toList
  | .us => "us".toList
  | .kr => "kr".toList
  | .tw => "tw".toList

/-- The declared order. -/
def all : List Region := [.eu, .us, .kr, .tw]

/-- The region a text names, in either case. -/
def parse (s : Text) : Option Region := all.find? fun r => r.asStr.map Char.toLower = s.map Char.toLower

/-- The place of a region in the declared order. -/
def place : Region → Nat
  | .eu => 0
  | .us => 1
  | .kr => 2
  | .tw => 3

theorem length_asStr (region : Region) : region.asStr.length = 2 := by cases region <;> rfl

theorem asStr_inj {region region' : Region} (h : region.asStr = region'.asStr) : region = region' := by
  cases region <;> cases region' <;> first | rfl | exact absurd h (by decide)

end Region

/-- What kind of market an entry is. -/
inductive ItemKind where
  | consumable | reagent | enchant | gem | boe | recipe
  deriving DecidableEq

/-- The place of a kind in the declared order. -/
def ItemKind.place : ItemKind → Nat
  | .consumable => 0
  | .reagent => 1
  | .enchant => 2
  | .gem => 3
  | .boe => 4
  | .recipe => 5

/-- Whether it trades region-wide, as one price, and not realm by realm. -/
def ItemKind.isCommodity : ItemKind → Bool
  | .boe | .recipe => false
  | _ => true

/-- An upgrade track of a piece of gear. -/
inductive Track where
  | veteran | champion | hero | myth
  deriving DecidableEq

namespace Track

def all : List Track := [.veteran, .champion, .hero, .myth]

def asStr : Track → Text
  | .veteran => "Veteran".toList
  | .champion => "Champion".toList
  | .hero => "Hero".toList
  | .myth => "Myth".toList

def slug : Track → Text
  | .veteran => "veteran".toList
  | .champion => "champion".toList
  | .hero => "hero".toList
  | .myth => "myth".toList

/-- The place of a track in the declared order. -/
def place : Track → Nat
  | .veteran => 0
  | .champion => 1
  | .hero => 2
  | .myth => 3

/-- The track an identifier names, exactly. -/
def fromSlug (s : Text) : Option Track := all.find? fun t => t.slug = s

/-- The track a catalogue's own wording names: its first word, in either case. -/
def parse (raw : Text) : Option Track :=
  let word := (raw.dropWhile isWhitespace).takeWhile fun c => !isWhitespace c
  all.find? fun t => word.map Char.toLower = t.asStr.map Char.toLower

end Track

/-- One market: the thing a price, a percentile and a chart are all about. -/
inductive MarketKey where
  | commodity (region : Region) (item : ItemId) (rank : Nat)
  | recipe (region : Region) (realm : RealmId) (item : ItemId)
  | boe (region : Region) (realm : RealmId) (item : ItemId) (track : Option Track)
  deriving DecidableEq

namespace MarketKey

/-- A rank is 1-based; a zero means the caller did not know. -/
def ofCommodity (region : Region) (item : ItemId) (rank : Nat) : MarketKey :=
  .commodity region item (max rank 1)

def item : MarketKey → ItemId
  | .commodity _ item _ | .recipe _ _ item | .boe _ _ item _ => item

def region : MarketKey → Region
  | .commodity region _ _ | .recipe region _ _ | .boe region _ _ _ => region

def tag : MarketKey → Char
  | .commodity .. => 'c'
  | .recipe .. => 'r'
  | .boe .. => 'b'

/-- The canonical stored form. -/
def display (key : MarketKey) : Text :=
  key.tag :: ':' :: key.region.asStr ++ ':' ::
    match key with
    | .commodity _ item rank => Text.decimal item ++ ':' :: Text.decimal rank
    | .recipe _ realm item => Text.decimal realm ++ ':' :: Text.decimal item
    | .boe _ realm item track =>
        Text.decimal realm ++ ':' :: Text.decimal item ++ ':' ::
          match track with
          | none => ['-']
          | some track => track.slug

/-- The track in the last part of a key, a dash where no catalogue names it. -/
def parseTrack (s : Text) : Option (Option Track) :=
  if s = ['-'] then some none else (Track.fromSlug s).map some

/-- What the tag of a key says comes after its region, and the parts that are left over. -/
def parseParts (region : Region) : Text → List Text → Option (MarketKey × List Text)
  | ['c'], item :: rank :: rest => do
      let item ← Text.parseNat maxU32 item
      let rank ← Text.parseNat maxU8 rank
      if rank = 0 then none else some (.commodity region item rank, rest)
  | ['r'], realm :: item :: rest => do
      let realm ← Text.parseNat maxU32 realm
      let item ← Text.parseNat maxU32 item
      some (.recipe region realm item, rest)
  | ['b'], realm :: item :: track :: rest => do
      let realm ← Text.parseNat maxU32 realm
      let item ← Text.parseNat maxU32 item
      let track ← parseTrack track
      some (.boe region realm item track, rest)
  | _, _ => none

/-- The key a text spells. Trailing anything is refused. -/
def parse (raw : Text) : Option MarketKey :=
  match raw.splitOn ':' with
  | tag :: region :: parts => do
      let region ← Region.parse region
      let (key, rest) ← parseParts region tag parts
      if rest.isEmpty then some key else none
  | _ => none

end MarketKey

/-- A text that is no market key. -/
structure BadMarketKey where
  raw : Text
  deriving DecidableEq

def BadMarketKey.display (e : BadMarketKey) : Text := "not a market key: ".toList ++ e.raw

/-- Every refusal carries the whole text. -/
def MarketKey.fromStr (raw : Text) : Except BadMarketKey MarketKey :=
  match MarketKey.parse raw with
  | some key => .ok key
  | none => .error ⟨raw⟩

/-- A single observation of one commodity market. -/
structure PriceSample where
  item : ItemId
  region : Region
  observedAt : Millis
  minUnitPrice : Copper
  p05UnitPrice : Copper
  medianUnitPrice : Copper
  quantity : Nat
  listings : Nat
  deriving DecidableEq

/-- One auction listing. -/
structure Listing where
  item : ItemId
  unitPrice : Copper
  quantity : Nat
  deriving DecidableEq

/-- A price at a moment: what a chart plots. -/
structure Point where
  at' : Millis
  price : Copper
  quantity : Nat
  deriving DecidableEq

/-- The first element with the least key. -/
def minBy {α : Type} (key : α → Nat) : List α → Option α
  | [] => none
  | a :: l => some (l.foldl (fun best b => if key b < key best then b else best) a)

/-- The last element with the greatest key. -/
def maxBy {α : Type} (key : α → Nat) : List α → Option α
  | [] => none
  | a :: l => some (l.foldl (fun best b => if key best ≤ key b then b else best) a)

/-- A stable sort by a number. -/
def sortBy {α : Type} (key : α → Nat) (l : List α) : List α :=
  l.insertionSort fun a b => key a ≤ key b

end Gavel.Market
