import Gavel.Lib.Arithmetic
import Gavel.Lib.Dict
import Gavel.Lib.Slices
import Gavel.Lib.Unicode
import Gavel.Market.Catalog

/-!
# The feeds of TradeSkillMaster

Two tables of comma-separated values, filtered by the items that are wanted. How the text falls into a
header and records is the reader's; here a table is what the reader makes of it, and a decimal fraction
in floating point is a parameter.
-/

namespace Gavel.Integrations

open Gavel.Cluster (Millis)
open Gavel.Market
open Gavel.Slices (slice)

/-! ## Instants -/

/-- The number digits spell. -/
def digits (bytes : List UInt8) : Option Nat :=
  bytes.foldlM (fun value byte =>
    if 0x30 ≤ byte ∧ byte ≤ 0x39 then some (value * 10 + (byte - 0x30).toNat) else none) 0

def daysInMonth (year month : Nat) : Nat :=
  match month with
  | 1 | 3 | 5 | 7 | 8 | 10 | 12 => 31
  | 4 | 6 | 9 | 11 => 30
  | 2 => if year % 4 = 0 ∧ (¬ year % 100 = 0 ∨ year % 400 = 0) then 29 else 28
  | _ => 0

/-- The fixed form `YYYY-MM-DDTHH:MM:SSZ`; variants are rejected. -/
def rfc3339Utc (raw : Text) : Option Millis :=
  let bytes := Text.bytes raw
  if bytes.length ≠ 20 ∨ bytes[4]? ≠ some 0x2d ∨ bytes[7]? ≠ some 0x2d ∨ bytes[10]? ≠ some 0x54 ∨
      bytes[13]? ≠ some 0x3a ∨ bytes[16]? ≠ some 0x3a ∨ bytes[19]? ≠ some 0x5a then none
  else do
    let year ← digits (slice bytes 0 4)
    let month := (← digits (slice bytes 5 7)) % 2 ^ 32
    let day := (← digits (slice bytes 8 10)) % 2 ^ 32
    let hour ← digits (slice bytes 11 13)
    let minute ← digits (slice bytes 14 16)
    let second ← digits (slice bytes 17 19)
    if year < 1970 ∨ ¬ (1 ≤ month ∧ month ≤ 12) ∨ day = 0 ∨ daysInMonth year month < day ∨
        23 < hour ∨ 59 < minute ∨ 59 < second then none
    else
      let midnight := fromUtcDate year month day
      let offset ← checkedMul 64 (hour * 3600 + minute * 60 + second) 1000
      checkedAdd 64 midnight offset

example : rfc3339Utc "2026-09-04T05:23:31Z".toList = some 1788499411000 := by decide

/-! ## Errors -/

/-- Why a text is no unsigned number. -/
inductive IntFault where
  | empty | invalidDigit | overflow
  deriving DecidableEq

namespace IntFault

/-- Whether the digits exceed the largest value before anything else is wrong with them. -/
def overflows (most : Nat) : Nat → Text → Bool
  | _, [] => false
  | n, c :: s =>
      if c.isDigit then
        let n := n * 10 + (c.toNat - '0'.toNat)
        if most < n then true else overflows most n s
      else false

def «of» (most : Nat) (s : Text) : IntFault :=
  let digits := if s.head? = some '+' then s.tail else s
  if s.isEmpty then .empty
  else if overflows most 0 digits then .overflow
  else .invalidDigit

def toString : IntFault → String
  | empty => "cannot parse integer from empty string"
  | invalidDigit => "invalid digit found in string"
  | overflow => "number too large to fit in target type"

end IntFault

/-- `str::parse` for an unsigned number up to `most` -/
def parseUnsigned (most : Nat) (s : Text) : Except IntFault Nat :=
  match Text.parseNat most s with
  | some n => .ok n
  | none => .error (IntFault.of most s)

/-- Why a feed is refused. -/
inductive FeedError where
  | invalidHeader (why : String)
  | noHeader
  | invalidRow (why : String)
  | missing (name : String)
  | missingAny (names : List String)
  | noValue (column : String)
  | notUnsigned (column : String) (why : IntFault)
  | notDecimal (column : String) (raw : Text)
  | invalidUpdatedAt (shown : Text)
  | invalidSaleRate (why : IntFault)
  | saleRateOutside
  | inconsistent
  deriving DecidableEq

/-- The message, given how a text is quoted. -/
def FeedError.message (quoted : Text → String) : FeedError → String
  | invalidHeader why => s!"TSM CSV header is invalid: {why}"
  | noHeader => "TSM CSV has no header"
  | invalidRow why => s!"TSM CSV row is invalid: {why}"
  | missing name => s!"TSM CSV is missing {name}"
  | missingAny names => "TSM CSV is missing " ++ " or ".intercalate names
  | noValue column => s!"TSM row has no {column}"
  | notUnsigned column why => s!"TSM {column} is not an unsigned integer: {why.toString}"
  | notDecimal column raw => s!"TSM {column} is not a non-negative decimal: {quoted raw}"
  | invalidUpdatedAt shown =>
      "TSM updatedAt is invalid; expected RFC 3339 UTC or Unix seconds/milliseconds, got " ++ quoted shown
  | invalidSaleRate why => s!"TSM saleRate is invalid: {why.toString}"
  | saleRateOutside => "TSM saleRate is outside 0..=1"
  | inconsistent => "TSM file has inconsistent updatedAt values"

/-! ## Tables -/

/-- What the reader makes of a text: a header, and the records one after the other. -/
structure Csv where
  header : Except String (List Text)
  records : List (Except String (List Text))

structure CsvTable where
  columns : Dict Text Nat
  rows : List (List Text)

/-- Columns by name; of two columns of one name the later one counts. -/
def insertColumns (columns : Dict Text Nat) (index : Nat) : List Text → Dict Text Nat
  | [] => columns
  | name :: header =>
      insertColumns (columns.put (name.dropWhile (· = Char.ofNat 0xfeff)) index) (index + 1) header

/-- The records, up to the first that is invalid. -/
def collectRows : List (Except String (List Text)) → Except FeedError (List (List Text))
  | [] => .ok []
  | .error why :: _ => .error (.invalidRow why)
  | .ok row :: records => do
      let rows ← collectRows records
      .ok (row :: rows)

namespace CsvTable

def new (csv : Csv) : Except FeedError CsvTable :=
  match csv.header with
  | .error why => .error (.invalidHeader why)
  | .ok header =>
      if header.isEmpty then .error .noHeader
      else do
        let rows ← collectRows csv.records
        .ok ⟨insertColumns Keyed.empty 0 header, rows⟩

def required (table : CsvTable) (name : String) : Except FeedError Nat :=
  match table.columns.get? name.toList with
  | some index => .ok index
  | none => .error (.missing name)

def requiredAny (table : CsvTable) (names : List String) : Except FeedError Nat :=
  match names.findSome? fun name => table.columns.get? name.toList with
  | some index => .ok index
  | none => .error (.missingAny names)

end CsvTable

/-! ## Cells -/

/-- The largest value of a 16-bit number. -/
def maxU16 : Nat := 2 ^ 16 - 1

def value (row : List Text) (index : Nat) (column : String) : Except FeedError Text :=
  match row[index]?.filter fun value => !(Text.trimMatches isWhitespace value).isEmpty with
  | some value => .ok value
  | none => .error (.noValue column)

def number (row : List Text) (index : Nat) (column : String) : Except FeedError Nat := do
  let raw ← value row index column
  (parseUnsigned maxU64 raw).mapError (.notUnsigned column)

/-- Decimal fractions in floating point: how a text is read, and which of them are finite and not
negative. -/
structure Decimals (Value : Type) where
  parse : Text → Option Value
  usable : Value → Bool

def decimal {Value : Type} (D : Decimals Value) (row : List Text) (index : Nat) (column : String) :
    Except FeedError Value := do
  let raw ← value row index column
  match (D.parse raw).filter D.usable with
  | some value => .ok value
  | none => .error (.notDecimal column raw)

/-- An instant as it is spelled, or in Unix seconds or milliseconds. -/
def timestamp (row : List Text) (index : Nat) : Except FeedError Millis := do
  let raw ← value row index "updatedAt"
  match rfc3339Utc raw with
  | some at' => .ok at'
  | none =>
      match Text.parseNat maxU64 raw with
      | some n => .ok (if n < 100000000000 then min (n * 1000) maxU64 else n)
      | none => .error (.invalidUpdatedAt (raw.take 120))

def utcDay (at' : Millis) : Millis := at' / 86400000 * 86400000

/-- Ten thousand times a rate, by its first four digits and rounded by the fifth. -/
def basisPoints (value : Text) : Except FeedError Nat := do
  let (whole, fraction) := (Text.splitOnce '.' value).getD (value, [])
  let whole ← (parseUnsigned maxU16 whole).mapError .invalidSaleRate
  if 1 < whole ∨ ¬ fraction.all Char.isDigit then .error .saleRateOutside
  else
    let kept := fraction.take 4
    let scaled := kept ++ List.replicate (4 - kept.length) '0'
    let bp := whole * 10000 + (Text.parseNat maxU16 scaled).getD 0
    let bp := if fraction[4]?.any fun digit => '5' ≤ digit then min (bp + 1) maxU16 else bp
    if bp ≤ 10000 then .ok bp else .error .saleRateOutside

def sameUpdatedAt (values : List Millis) : Except FeedError Unit :=
  if (values.zip values.tail).all fun pair => pair.1 = pair.2 then .ok () else .error .inconsistent

/-! ## Feeds -/

structure TsmCommoditySample where
  item : ItemId
  region : Region
  observedAt : Millis
  marketValue : Copper
  minBuyout : Copper
  recent : Copper
  historical : Copper
  updatedAt : Millis
  deriving DecidableEq

structure TsmRegionDaily (Value : Type) where
  item : ItemId
  region : Region
  day : Millis
  marketValue : Copper
  historical : Copper
  avgSalePrice : Copper
  saleRateBp : Nat
  soldPerDay : Value
  updatedAt : Millis
  deriving DecidableEq

/-- Follow the rows: one with a wanted id is read, the others are passed by. -/
def readWanted {α : Type} (item : Nat) (wanted : List ItemId)
    (sample : ItemId → List Text → Except FeedError α) : List (List Text) → Except FeedError (List α)
  | [] => .ok []
  | row :: rows => do
      let id := (← number row item "itemId") % 2 ^ 32
      if id ∈ wanted then
        let first ← sample id row
        let rest ← readWanted item wanted sample rows
        .ok (first :: rest)
      else readWanted item wanted sample rows

/-- The sample of a row, the columns given. -/
def TsmCommoditySample.read (region : Region) (marketValue minBuyout recent historical updatedAt : Nat)
    (id : ItemId) (row : List Text) : Except FeedError TsmCommoditySample := do
  let observedAt ← timestamp row updatedAt
  let marketValue ← number row marketValue "marketValue"
  let minBuyout ← number row minBuyout "minBuyout"
  let recent ← number row recent "recent"
  let historical ← number row historical "historical"
  .ok
    { item := id, region, observedAt, marketValue, minBuyout, recent, historical
      updatedAt := observedAt }

def parseCommodities (csv : Csv) (region : Region) (wanted : List ItemId) :
    Except FeedError (List TsmCommoditySample) := do
  let table ← CsvTable.new csv
  let item ← table.required "itemId"
  let marketValue ← table.requiredAny ["marketValue", "regionMarketValue"]
  let minBuyout ← table.required "minBuyout"
  let recent ← table.required "recent"
  let historical ← table.requiredAny ["historical", "regionHistorical"]
  let updatedAt ← table.required "updatedAt"
  let out ← readWanted item wanted
    (TsmCommoditySample.read region marketValue minBuyout recent historical updatedAt) table.rows
  sameUpdatedAt (out.map TsmCommoditySample.updatedAt)
  .ok out

def TsmRegionDaily.read {Value : Type} (D : Decimals Value) (region : Region)
    (marketValue historical avgSalePrice saleRate soldPerDay updatedAt : Nat) (id : ItemId)
    (row : List Text) : Except FeedError (TsmRegionDaily Value) := do
  let updatedAt ← timestamp row updatedAt
  let marketValue ← number row marketValue "marketValue"
  let historical ← number row historical "historical"
  let avgSalePrice ← number row avgSalePrice "avgSalePrice"
  let saleRate ← value row saleRate "saleRate"
  let saleRateBp ← basisPoints saleRate
  let soldPerDay ← decimal D row soldPerDay "soldPerDay"
  .ok
    { item := id, region, day := utcDay updatedAt, marketValue, historical, avgSalePrice, saleRateBp
      soldPerDay, updatedAt }

def parseRegionItems {Value : Type} (D : Decimals Value) (csv : Csv) (region : Region)
    (wanted : List ItemId) : Except FeedError (List (TsmRegionDaily Value)) := do
  let table ← CsvTable.new csv
  let item ← table.required "itemId"
  let marketValue ← table.requiredAny ["marketValue", "regionMarketValue"]
  let historical ← table.requiredAny ["historical", "regionHistorical"]
  let avgSalePrice ← table.requiredAny ["avgSalePrice", "regionSaleAvg"]
  let saleRate ← table.requiredAny ["saleRate", "regionSaleRate"]
  let soldPerDay ← table.requiredAny ["soldPerDay", "regionSoldPerDay"]
  let updatedAt ← table.required "updatedAt"
  let out ← readWanted item wanted
    (TsmRegionDaily.read D region marketValue historical avgSalePrice saleRate soldPerDay updatedAt)
    table.rows
  sameUpdatedAt (out.map TsmRegionDaily.updatedAt)
  .ok out

end Gavel.Integrations
