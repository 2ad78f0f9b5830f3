import Gavel.Lib.Run
import Gavel.Market.Cadence

/-!
# The bearer token

A token of the provider is fetched once and shared until it is close to expiring. Calls for it run side by
side over one lock: they look under the read lock first, and who finds no token that is good looks again
under the write lock before it asks for one.
-/

namespace Gavel.Integrations

open Gavel.Cluster (Millis)
open Gavel.Market (maxU64 plusMs)

/-- A token is refreshed this long before it expires. -/
def refreshMarginMs : Nat := 5 * 60 * 1000

structure CachedToken where
  value : Text
  expiresAt : Millis
  deriving DecidableEq

/-- Whether a call that began at an instant takes the token as it is. The addition wraps. -/
def CachedToken.isGood (t : CachedToken) (now : Millis) : Bool :=
  decide ((now + refreshMarginMs) % 2 ^ 64 < t.expiresAt)

/-- Where a call stands. -/
inductive BearerCall where
  /-- About to look under the read lock. -/
  | read
  /-- Waiting for the write lock. -/
  | write
  /-- Holding the write lock, with a request on its way. -/
  | fetch
  | returned (bearer : Option Text)
  /-- Nobody waits for the answer any more. -/
  | dropped
  deriving DecidableEq

structure BearerCaller where
  /-- When the call began. -/
  now : Millis
  call : BearerCall
  deriving DecidableEq

/-- A token that was fetched, and by which call. -/
structure FetchedToken where
  caller : Nat
  now : Millis
  token : CachedToken
  deriving DecidableEq

structure TokenSource where
  cached : Option CachedToken
  /-- The call that holds the write lock. -/
  writer : Option Nat
  callers : List BearerCaller
  /-- The tokens so far, the oldest first. -/
  fetched : List FetchedToken

inductive BearerStep where
  | call (now : Millis)
  /-- A call gets on if no lock is in its way. If it has asked, the answer is a token and the seconds it
  lasts, or a failure. -/
  | proceed (i : Nat) (answer : Option (Text × Nat))
  | drop (i : Nat)

namespace TokenSource

def start : TokenSource := ⟨none, none, [], []⟩

def move (s : TokenSource) (i : Nat) (c : BearerCaller) (call : BearerCall) : TokenSource :=
  { s with callers := s.callers.set i { c with call } }

/-- The token that is kept, if it is good for a call. -/
def kept (s : TokenSource) (now : Millis) : Option Text :=
  (s.cached.filter (·.isGood now)).map CachedToken.value

/-- The end of a request: a token is kept, and the lock released. -/
def settle (s : TokenSource) (i : Nat) (c : BearerCaller) : Option (Text × Nat) → TokenSource
  | some (value, expiresIn) =>
      let token : CachedToken := ⟨value, plusMs c.now (min (expiresIn * 1000) maxU64)⟩
      { s.move i c (.returned (some value)) with
        cached := some token
        writer := none
        fetched := s.fetched ++ [⟨i, c.now, token⟩] }
  | none => { s.move i c (.returned none) with writer := none }

def proceed (s : TokenSource) (i : Nat) (c : BearerCaller) (answer : Option (Text × Nat)) : TokenSource :=
  match c.call with
  | .read =>
      if s.writer.isSome then s
      else
        match s.kept c.now with
        | some value => s.move i c (.returned (some value))
        | none => s.move i c .write
  | .write =>
      if s.writer.isSome then s
      else
        match s.kept c.now with
        -- Another call has fetched one while this one waited.
        | some value => s.move i c (.returned (some value))
        | none => { s.move i c .fetch with writer := some i }
  | .fetch => s.settle i c answer
  | .returned _ | .dropped => s

/-- A call that is dropped releases what it holds. -/
def drop (s : TokenSource) (i : Nat) (c : BearerCaller) : TokenSource :=
  match c.call with
  | .read | .write => s.move i c .dropped
  | .fetch => { s.move i c .dropped with writer := none }
  | .returned _ | .dropped => s

def step (s : TokenSource) : BearerStep → TokenSource
  | .call now => { s with callers := s.callers ++ [⟨now, .read⟩] }
  | .proceed i answer =>
      match s.callers[i]? with
      | some c => s.proceed i c answer
      | none => s
  | .drop i =>
      match s.callers[i]? with
      | some c => s.drop i c
      | none => s

def after (steps : List BearerStep) : TokenSource := Run.final step start steps

end TokenSource

end Gavel.Integrations
