import Gavel.Lib.Unicode

/-!
# Query strings

The percent encoding of a query string: what is accepted of it, the pairs it spells, and how a value is
written into one.
-/

namespace Gavel.Web

def hexValue (byte : UInt8) : Option UInt8 :=
  if 48 ≤ byte ∧ byte ≤ 57 then some (byte - 48)
  else if 97 ≤ byte ∧ byte ≤ 102 then some (byte - 97 + 10)
  else if 65 ≤ byte ∧ byte ≤ 70 then some (byte - 65 + 10)
  else none

/-- The bytes a query string spells: a `%` takes the two digits after it, a `+` is a space. -/
def percentDecode : List UInt8 → Option (List UInt8)
  | [] => some []
  | 0x25 :: high :: low :: raw => do
      let high ← hexValue high
      let low ← hexValue low
      let decoded ← percentDecode raw
      some ((high <<< 4 ||| low) :: decoded)
  | byte :: raw =>
      if byte = 0x25 then none
      else (percentDecode raw).map fun decoded => (if byte = 0x2b then 0x20 else byte) :: decoded

/-- What comes of the bytes of a query string. A read past their end would stop the handler. -/
inductive Scanned where
  | accepted (decoded : List UInt8)
  | refused
  | outOfBounds
  deriving DecidableEq

def isAsciiHexdigit (byte : UInt8) : Bool :=
  (48 ≤ byte && byte ≤ 57) || (97 ≤ byte && byte ≤ 102) || (65 ≤ byte && byte ≤ 70)

/-- The loop over the bytes, from an offset. -/
def scan (bytes : List UInt8) (at' : Nat) (decoded : List UInt8) : Scanned :=
  if at' < bytes.length then
    match bytes[at']? with
    | none => .outOfBounds
    | some byte =>
        if byte = 0x25 then
          if bytes.length ≤ at' + 2 then .refused
          else
            match bytes[at' + 1]?, bytes[at' + 2]? with
            | some high, some low =>
                if !isAsciiHexdigit high || !isAsciiHexdigit low then .refused
                else
                  match hexValue high, hexValue low with
                  | some high, some low => scan bytes (at' + 3) (decoded ++ [high <<< 4 ||| low])
                  | _, _ => .refused
            | _, _ => .outOfBounds
        else scan bytes (at' + 1) (decoded ++ [if byte = 0x2b then 0x20 else byte])
  else .accepted decoded
termination_by bytes.length - at'

/-- The check of a query string, with what it decodes. -/
def scanPercentEncoding (raw : Text) : Scanned :=
  match scan raw.bytes 0 [] with
  | .accepted decoded => if (Text.decodeUtf8 decoded).isSome then .accepted decoded else .refused
  | end' => end'

/-- The text a piece of a query string spells. -/
def unescape (raw : Text) : Option Text := (percentDecode raw.bytes).bind Text.decodeUtf8

/-- Every `%` begins a byte, and the bytes are a text. -/
def validatePercentEncoding (raw : Text) : Bool := (unescape raw).isSome

/-- The pairs of a form that is well formed: its pieces stand between ampersands, and a piece without a
value has the empty one. -/
def formPairs (query : Text) : Option (List (Text × Text)) :=
  ((query.splitOn '&').filter fun piece => !piece.isEmpty).mapM fun piece => do
    let pair := (Text.splitOnce '=' piece).getD (piece, [])
    let name ← unescape pair.1
    let value ← unescape pair.2
    some (name, value)

/-- A byte that stands for itself in a query string. -/
def unreserved (byte : UInt8) : Bool :=
  (65 ≤ byte && byte ≤ 90) || (97 ≤ byte && byte ≤ 122) || (48 ≤ byte && byte ≤ 57) || byte = 0x2d ||
    byte = 0x5f || byte = 0x2e || byte = 0x7e

/-- The upper-case digit of a number below sixteen. -/
def upperDigit (n : Nat) : Char := "0123456789ABCDEF".toList.getD n '0'

/-- One byte of a query value. -/
def escape (byte : UInt8) : Text :=
  if unreserved byte then [Char.ofNat byte.toNat]
  else ['%', upperDigit (byte.toNat / 16), upperDigit (byte.toNat % 16)]

/-- Percent-encode one query-string value. -/
def queryValue (raw : Text) : Text := raw.bytes.flatMap escape

/-- Fields as they are written into a query string. -/
def writeForm (fields : List (Text × Text)) : Text :=
  ['&'].intercalate (fields.map fun f => queryValue f.1 ++ '=' :: queryValue f.2)

/-- The form parser of another crate: fields are read as they were written. -/
structure FormParser where
  fromStr : Text → Option (List (Text × Text))
  fromStr_writeForm : ∀ fields, fields ≠ [] → fromStr (writeForm fields) = some fields

end Gavel.Web
