import Gavel.Web.Headers

/-!
# The CSRF token

The token a visitor holds in a cookie, how a page renders it masked, how a value that comes back is
compared with it, and the middleware that keeps the cookie or issues a new one.
-/

namespace Gavel.Web

/-- Raw token length in bytes. -/
def tokenBytes : Nat := 32

/-- What the random source fills in. -/
abbrev Pad := { bytes : List UInt8 // bytes.length = tokenBytes }

/-! ## Hexadecimal -/

/-- `char::to_digit(16)` -/
def toDigit (c : Char) : Option Nat :=
  let n := c.toNat
  if 48 ≤ n ∧ n ≤ 57 then some (n - 48)
  else if 97 ≤ n ∧ n ≤ 102 then some (n - 87)
  else if 65 ≤ n ∧ n ≤ 70 then some (n - 55)
  else none

/-- The digit of a number below sixteen. -/
def hexDigit (n : Nat) : Char := "0123456789abcdef".toList.getD n '0'

def toHex (bytes : List UInt8) : Text :=
  bytes.flatMap fun b : UInt8 => [hexDigit (b >>> 4).toNat, hexDigit (b &&& 0x0f).toNat]

/-- Two digits at a time. -/
def hexPairs : Text → Option (List UInt8)
  | [] => some []
  | [_] => none
  | hi :: lo :: text => do
      let hi ← toDigit hi
      let lo ← toDigit lo
      let rest ← hexPairs text
      some ((hi * 16 + lo).toUInt8 :: rest)

/-- A character outside ASCII is no digit in any of its bytes, so the text is read by characters. -/
def fromHex (text : Text) : Option (List UInt8) := if text.isEmpty then none else hexPairs text

/-! ## Masking -/

/-- The length of a text in bytes. -/
def byteLength (s : Text) : Nat := (s.map Char.utf8Size).sum

/-- A text cut at a byte offset, if the offset is between two characters. -/
def splitAt : Nat → Text → Option (Text × Text)
  | 0, s => some ([], s)
  | _ + 1, [] => none
  | n + 1, c :: s =>
      if c.utf8Size ≤ n + 1 then (splitAt (n + 1 - c.utf8Size) s).map fun r => (c :: r.1, r.2)
      else none

def xor (a b : List UInt8) : List UInt8 := List.zipWith (· ^^^ ·) a b

/-- The token for the current request. -/
structure Csrf where
  token : Text
  deriving DecidableEq

/-- What becomes of a value a client sent back. A text cut inside a character stops the handler. -/
inductive Verdict where
  | ok | forbidden | panicked
  deriving DecidableEq

namespace Csrf

/-- A fresh masking of this token; `none` is a random source that fails. -/
def masked (csrf : Csrf) (pad : Option Pad) : Text :=
  match fromHex csrf.token, pad with
  | some token, some pad => toHex pad.val ++ toHex (xor pad.val token)
  | _, _ => csrf.token

/-- The raw token out of a masked page value, or out of a bare one. -/
def unmask (presented : Text) : Except Verdict (List UInt8) :=
  let refused {α : Type} : Option α → Except Verdict α
    | some a => .ok a
    | none => .error .forbidden
  if byteLength presented = tokenBytes * 2 then refused (fromHex presented)
  else if byteLength presented = tokenBytes * 4 then
    match splitAt (tokenBytes * 2) presented with
    | none => .error .panicked
    | some (pad, masked) => do
        let pad ← refused (fromHex pad)
        let masked ← refused (fromHex masked)
        .ok (xor pad masked)
  else .error .forbidden

/-- Compare byte by byte without stopping at the first difference. -/
def sameBytes (a b : List UInt8) : Bool :=
  a.length = b.length && (a.zip b).foldl (fun acc p => acc ||| (p.1 ^^^ p.2)) 0 = 0

/-- Check a value a client sent back, masked or not. -/
def verify (csrf : Csrf) (presented : Text) : Verdict :=
  match fromHex csrf.token with
  | none => .forbidden
  | some expected =>
      match unmask presented with
      | .error verdict => verdict
      | .ok actual => if sameBytes expected actual then .ok else .forbidden

/-- Verify against whichever channel the client used. -/
def verifyRequest (csrf : Csrf) (http : Http) (header : Option HeaderValue) (formToken : Option Text) :
    Verdict :=
  match header.bind http.toStr with
  | some token => csrf.verify token
  | none =>
      match formToken with
      | some token => csrf.verify token
      | none => .forbidden

end Csrf

/-! ## The middleware -/

/-- The cookie's name; the browser refuses the prefix on a deployment without TLS. -/
def csrfCookieName (secureCookies : Bool) : Text :=
  if secureCookies then "__Host-wow_tracker_csrf".toList else "wow_tracker_csrf".toList

/-- Sessions, and the token with them, last a week. -/
def sessionTtlMs : Nat := 7 * 24 * 60 * 60 * 1000

/-- The value that hands a new token to the browser. -/
def csrfSetCookie (secureCookies : Bool) (token : Text) : Text :=
  csrfCookieName secureCookies ++ '=' :: token ++ "; Path=/; HttpOnly; SameSite=Lax; Max-Age=".toList ++
    Text.decimal (sessionTtlMs / 1000) ++ (if secureCookies then "; Secure".toList else [])

/-- The token of the request and the cookie the response sets. -/
structure Issued where
  csrf : Csrf
  setCookie : Option HeaderValue
  deriving DecidableEq

/-- A cookie that is hexadecimal is kept; without one a fresh token is issued. -/
def csrfLayer (http : Http) (secureCookies : Bool) (cookies : List HeaderValue) (fresh : Pad) : Issued :=
  let existing := (cookieValue http cookies (csrfCookieName secureCookies)).filter
    fun v => (fromHex v).isSome
  match existing with
  | some token => ⟨⟨token⟩, none⟩
  | none =>
      let token := toHex fresh.val
      ⟨⟨token⟩, http.fromStr (csrfSetCookie secureCookies token)⟩

end Gavel.Web
