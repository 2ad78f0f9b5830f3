import Gavel.Lib.Keyed
import Gavel.Lib.Unicode
import Gavel.Market.Event
import Gavel.Web.Csrf

/-!
# Annotations

An administrator writes down that something happened. The event's id is derived from the instant and the
title, and the store drops an event whose id is taken.
-/

namespace Gavel.Web

open Gavel.Cluster (Millis)
open Gavel.Market

/-- What the annotation form submits. -/
structure AddEvent where
  csrfToken : Text
  kind : Text
  title : Text
  startsAt : Text
  notes : Text
  region : Text
  deriving DecidableEq

/-- A submission: whether an administrator made it, the request's token and its header, the form. -/
structure AddRequest where
  isAdmin : Bool
  csrf : Csrf
  header : Option HeaderValue
  form : AddEvent
  deriving DecidableEq

inductive AddError where
  | notFound | forbidden | panicked
  | validation (message : String)
  deriving DecidableEq

/-! ## The instant -/

/-- `str::parse::<i64>` -/
def parseI64 : Text → Option Int
  | '-' :: '+' :: _ => none
  | '-' :: digits => (Text.parseNat (2 ^ 63) digits).map fun n => -(n : Int)
  | s => (Text.parseNat (2 ^ 63 - 1) s).map fun n => (n : Int)

def daysInMonth (year month : Int) : Int :=
  if month = 4 ∨ month = 6 ∨ month = 9 ∨ month = 11 then 30
  else if month = 2 then if year % 4 = 0 ∧ (year % 100 ≠ 0 ∨ year % 400 = 0) then 29 else 28
  else 31

/-- `YYYY-MM-DD` or `YYYY-MM-DDTHH:MM`, as UTC milliseconds. -/
def parseInstant (raw : Text) : Option Millis :=
  let (date, time) := (Text.splitOnce 'T' raw).getD (raw, "00:00".toList)
  match date.splitOn '-', time.splitOn ':' with
  | [year, month, day], [hour, minute] => do
      if byteLength year ≠ 4 ∨ byteLength month ≠ 2 ∨ byteLength day ≠ 2 then none
      let year ← parseI64 year
      let month ← parseI64 month
      let day ← parseI64 day
      if ¬ (1 ≤ month ∧ month ≤ 12) ∨ ¬ (1 ≤ day ∧ day ≤ daysInMonth year month) then none
      if byteLength hour ≠ 2 ∨ byteLength minute ≠ 2 then none
      let hour ← parseI64 hour
      let minute ← parseI64 minute
      if ¬ (0 ≤ hour ∧ hour < 24) ∨ ¬ (0 ≤ minute ∧ minute < 60) then none
      let y := if month ≤ 2 then year - 1 else year
      let era := (if 0 ≤ y then y else y - 399).tdiv 400
      let yoe := y - era * 400
      let mp := (month + 9) % 12
      let doy := (153 * mp + 2) / 5 + day - 1
      let doe := yoe * 365 + yoe / 4 - yoe / 100 + doy
      let days := era * 146097 + doe - 719468
      if days < 0 then none
      let millis := days.toNat * 86400000 + hour.toNat * 3600000 + minute.toNat * 60000
      if millis < 2 ^ 64 then some millis else none
  | _, _ => none

example : parseInstant "2026-08-30T14:35".toList = some 1788100500000 := by decide

/-! ## The event -/

/-- A text without the white space around it. -/
def trimmed (s : Text) : Text := Text.trimMatches isWhitespace s

/-- What the id keeps of a title: up to thirty-two letters and numerals, in lower case. -/
def noteSlug (tables : CharTables) (toLowercase : Text → Text) (title : Text) : Text :=
  toLowercase ((title.filter tables.isAlphanumeric).take 32)

def noteId (startsAt : Millis) (slug : Text) : Text :=
  "note:".toList ++ Text.decimal startsAt ++ ':' :: slug

/-- The event a submission asks to record. -/
def addEvent (http : Http) (tables : CharTables) (toLowercase : Text → Text) (request : AddRequest) :
    Except AddError MarketEvent :=
  if !request.isAdmin then .error .notFound
  else
    match request.csrf.verifyRequest http request.header (some request.form.csrfToken) with
    | .forbidden => .error .forbidden
    | .panicked => .error .panicked
    | .ok =>
        let title := trimmed request.form.title
        match EventKind.parse request.form.kind, parseInstant (trimmed request.form.startsAt) with
        | none, _ => .error .notFound
        | some _, none => .error (.validation "an event needs a date, as YYYY-MM-DD")
        | some kind, some startsAt =>
            if title.isEmpty then .error (.validation "an event needs a title")
            else
              let notes := trimmed request.form.notes
              .ok
                { id := noteId startsAt (noteSlug tables toLowercase title)
                  kind
                  title
                  notes := if notes.isEmpty then none else some notes
                  startsAt
                  endsAt := none
                  scope := { regions := (Region.parse (trimmed request.form.region)).toList }
                  provenance := .administrator
                  validation := .unvalidated
                  visibility := .internal }

/-! ## The store -/

/-- The table of events, by id. -/
abbrev MarketEvents := Keyed MarketEvent Text MarketEvent.id

namespace MarketEvents

/-- Record events; one whose id is taken is dropped. Returned is how many were written. -/
def record (events : List MarketEvent) (table : MarketEvents) : MarketEvents × Nat :=
  let done : MarketEvents := events.foldl Keyed.add table
  (done, done.rows.length - table.rows.length)

/-- One submission: what it asks to record is recorded, a refused one changes nothing. -/
def submit (http : Http) (tables : CharTables) (toLowercase : Text → Text) (table : MarketEvents)
    (request : AddRequest) : MarketEvents :=
  match addEvent http tables toLowercase request with
  | .ok event => (table.record [event]).1
  | .error _ => table

end MarketEvents

end Gavel.Web
