import Gavel.Cluster.Job
import Gavel.Lib.Dict
import Gavel.Lib.Text

/-!
# How fast passwords can be guessed

Three layers: a bucket of failures for each username, a window of attempts for each origin, and a window
of attempts together with a number of permits for the whole process. New accounts have a window of their
own, and event streams a number of slots, for the process and for each origin.
-/

namespace Gavel.Web

open Gavel.Cluster (Millis)

/-- Failures a single username may collect before its attempts start being refused. -/
def maxFailures : Nat := 8

/-- How long a count takes to clear. -/
def windowMs : Nat := 5 * 60 * 1000

def maxOriginAttempts : Nat := 20

def maxGlobalAttempts : Nat := 100

def maxArgon2Concurrency : Nat := 4

/-- `u32::saturating_add` -/
def satAdd32 (a b : Nat) : Nat := min (a + b) (2 ^ 32 - 1)

/-! ## Usernames -/

structure Bucket where
  failures : Nat
  /-- When the last failure landed. -/
  last : Millis
  deriving DecidableEq

def Bucket.expired (b : Bucket) (now : Millis) : Bool := windowMs ≤ now - b.last

/-- Recent failed sign-ins, by username. -/
structure LoginThrottle where
  buckets : Dict Text Bucket

namespace LoginThrottle

def new : LoginThrottle := ⟨Keyed.empty⟩

/-- Usernames differ in more than the case of their letters. -/
def key (username : Text) : Text := username.map Char.toLower

/-- What is held against a username. -/
def bucket (t : LoginThrottle) (username : Text) : Option Bucket := t.buckets.get? (key username)

/-- Whether this username may be tried right now. -/
def allows (t : LoginThrottle) (username : Text) (now : Millis) : Bool × LoginThrottle :=
  match t.bucket username with
  | some bucket =>
      if bucket.expired now then (true, ⟨t.buckets.erase (key username)⟩)
      else (decide (bucket.failures < maxFailures), t)
  | none => (true, t)

/-- Record a failure and sweep what has expired. -/
def failed (t : LoginThrottle) (username : Text) (now : Millis) : LoginThrottle :=
  let kept := t.buckets.retain fun _ bucket => !bucket.expired now
  let bucket := (kept.get? (key username)).getD ⟨0, now⟩
  ⟨kept.put (key username) ⟨satAdd32 bucket.failures 1, now⟩⟩

/-- A correct password clears the count. -/
def succeeded (t : LoginThrottle) (username : Text) : LoginThrottle := ⟨t.buckets.erase (key username)⟩

end LoginThrottle

/-! ## Origins and the process -/

inductive IpAddr where
  | v4 (bits : BitVec 32)
  | v6 (bits : BitVec 128)
  deriving DecidableEq

/-- Attempts counted since an instant. -/
structure AttemptWindow where
  started : Millis
  attempts : Nat
  deriving DecidableEq

def AttemptWindow.isOpen (w : AttemptWindow) (now : Millis) : Bool := now - w.started < windowMs

/-- Process-wide protection around every unauthenticated password hash. -/
structure AuthGate where
  /-- Permits not handed out. -/
  hashes : Nat
  origins : Dict IpAddr AttemptWindow
  global : Option AttemptWindow

namespace AuthGate

def new (maxHashes : Nat) : AuthGate := ⟨max maxHashes 1, Keyed.empty, none⟩

def default : AuthGate := new maxArgon2Concurrency

/-- Count an attempt in a window, or in a new one where there is none or it is over. -/
def takeWindow (cell : Option AttemptWindow) (now : Millis) (maximum : Nat) : Bool × AttemptWindow :=
  match cell with
  | some window =>
      if window.isOpen now then
        let attempts := satAdd32 window.attempts 1
        (decide (attempts ≤ maximum), { window with attempts })
      else (true, ⟨now, 1⟩)
  | none => (true, ⟨now, 1⟩)

/-- Count an attempt, against the process first and then against its origin. -/
def take (g : AuthGate) (origin : IpAddr) (now : Millis) : Bool × AuthGate :=
  let (globalOk, global) := takeWindow g.global now maxGlobalAttempts
  if globalOk then
    let kept := g.origins.retain fun _ window => window.isOpen now
    let window := (kept.get? origin).getD ⟨now, 0⟩
    let window := { window with attempts := satAdd32 window.attempts 1 }
    (decide (window.attempts ≤ maxOriginAttempts),
      { g with global := some global, origins := kept.put origin window })
  else (false, { g with global := some global })

/-- A permit to hash a password, if one is left. -/
def tryHash (g : AuthGate) : Option AuthGate :=
  if 0 < g.hashes then some { g with hashes := g.hashes - 1 } else none

/-- A permit comes back. -/
def release (g : AuthGate) : AuthGate := { g with hashes := g.hashes + 1 }

end AuthGate

/-! ## New accounts -/

/-- New accounts in a window, counting attempts. -/
def maxSignUps : Nat := 10

/-- A cap on registration, for the whole instance. -/
structure SignUpThrottle where
  window : Option AttemptWindow
  deriving DecidableEq

namespace SignUpThrottle

def new : SignUpThrottle := ⟨none⟩

/-- Count one attempt and say whether it may proceed. -/
def take (t : SignUpThrottle) (now : Millis) : Bool × SignUpThrottle :=
  match t.window with
  | some window =>
      if window.isOpen now then
        let attempts := satAdd32 window.attempts 1
        (decide (attempts ≤ maxSignUps), ⟨some { window with attempts }⟩)
      else (true, ⟨some ⟨now, 1⟩⟩)
  | none => (true, ⟨some ⟨now, 1⟩⟩)

end SignUpThrottle

/-! ## Event streams -/

/-- Slots for event streams. The counter is one of fewer calls than there are addresses. -/
structure SseGate where
  total : Nat
  origins : Dict IpAddr Nat
  maxTotal : Nat
  maxPerOrigin : Nat

namespace SseGate

def new (maxTotal maxPerOrigin : Nat) : SseGate := ⟨0, Keyed.empty, maxTotal, maxPerOrigin⟩

/-- The first step of `enter`: count the call and test what the counter was. -/
def bump (g : SseGate) : Bool × SseGate := (decide (g.total < g.maxTotal), { g with total := g.total + 1 })

/-- Take a call off the counter; a counter of zero would wrap. -/
def unbump (g : SseGate) : Option SseGate :=
  if g.total = 0 then none else some { g with total := g.total - 1 }

/-- The locked step of `enter`: the slots of the origin. -/
def place (g : SseGate) (origin : IpAddr) : Bool × SseGate :=
  match g.origins.get? origin with
  | some count =>
      if g.maxPerOrigin ≤ count then (false, g)
      else (true, { g with origins := g.origins.put origin (count + 1) })
  | none =>
      if g.maxPerOrigin ≤ 0 then (false, { g with origins := g.origins.put origin 0 })
      else (true, { g with origins := g.origins.put origin 1 })

/-- The locked step of dropping a permit; a count of zero would wrap. -/
def leave (g : SseGate) (origin : IpAddr) : Option SseGate :=
  match g.origins.get? origin with
  | some count =>
      if count = 0 then none
      else if count - 1 = 0 then some { g with origins := g.origins.erase origin }
      else some { g with origins := g.origins.put origin (count - 1) }
  | none => some g

end SseGate

end Gavel.Web
