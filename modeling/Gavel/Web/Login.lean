import Gavel.Web.Throttle

/-!
# Signing in

The steps of the sign-in handler, of any number of requests at once: each step of a request runs
undisturbed, and between two of its steps others may run. The throttle is asked with the instant a
request arrived at, and told with the same instant.
-/

namespace Gavel.Web

open Gavel.Cluster (Millis)

/-- Where a sign-in stands. -/
inductive Phase where
  /-- Let through by the throttle. -/
  | allowed
  /-- Let through by the gate. -/
  | taken
  /-- The store answered whether the user exists. -/
  | found (known : Bool)
  /-- A permit is held and the password is being verified. -/
  | hashing (known : Bool)
  /-- The password was verified and rejected; the failure is not recorded yet. -/
  | rejected
  /-- The password was verified; the session is not started yet. -/
  | accepted
  | failed
  | signedIn
  /-- Answered with another error. -/
  | refused
  deriving DecidableEq

structure Request where
  username : Text
  origin : IpAddr
  arrived : Millis
  phase : Phase
  /-- What is held against the username expired since the arrival, or since the failure was recorded. -/
  lapsed : Bool
  /-- The user signed in after the password was rejected. -/
  forgiven : Bool
  deriving DecidableEq

namespace Request

/-- The key its failures are counted under. -/
def key (r : Request) : Text := LoginThrottle.key r.username

/-- The password is not being verified yet. -/
def waits (r : Request) : Bool :=
  match r.phase with
  | .allowed | .taken | .found _ => true
  | _ => false

def hashes (r : Request) : Bool :=
  match r.phase with
  | .hashing _ => true
  | _ => false

/-- The password was verified and rejected. -/
def guessed (r : Request) : Bool :=
  match r.phase with
  | .rejected | .failed => true
  | _ => false

/-- Note whether what is held against the username expires at an instant. -/
def age (t : LoginThrottle) (now : Millis) (r : Request) : Request :=
  { r with lapsed := r.lapsed || (t.bucket r.username).any (·.expired now) }

/-- Note that a user signed in. -/
def forgive (k : Text) (r : Request) : Request :=
  { r with forgiven := r.forgiven || (decide (r.key = k) && r.guessed) }

end Request

/-- What the handler shares between requests, and the requests so far. -/
structure SignIns where
  throttle : LoginThrottle
  gate : AuthGate
  /-- When the last request arrived. -/
  clock : Millis
  requests : List Request

/-- A step of a request, with what the store and the hasher answer. -/
inductive SignInStep where
  | arrive (username : Text) (origin : IpAddr) (now : Millis)
  | take (i : Nat)
  /-- Whether the user is known, if the store can tell. -/
  | lookup (i : Nat) (answer : Option Bool)
  | tryHash (i : Nat)
  /-- Whether the password matches, if the hasher can tell. -/
  | verify (i : Nat) (answer : Option Bool)
  /-- A failure is recorded, or a session started if the store can. -/
  | settle (i : Nat) (stored : Bool)
  deriving DecidableEq

namespace SignIns

def start : SignIns := ⟨.new, .default, 0, []⟩

/-- A request gets to another phase. -/
def advance (s : SignIns) (i : Nat) (r : Request) (phase : Phase) : SignIns :=
  { s with requests := s.requests.set i { r with phase } }

def arrive (s : SignIns) (username : Text) (origin : IpAddr) (now : Millis) : SignIns :=
  let (allowed, throttle) := s.throttle.allows username now
  let r : Request := ⟨username, origin, now, if allowed then .allowed else .refused, false, false⟩
  { s with throttle, clock := now, requests := s.requests.map (.age s.throttle now) ++ [r] }

def take (s : SignIns) (i : Nat) (r : Request) : SignIns :=
  let (taken, gate) := s.gate.take r.origin r.arrived
  { s.advance i r (if taken then .taken else .refused) with gate }

def lookup (s : SignIns) (i : Nat) (r : Request) (answer : Option Bool) : SignIns :=
  s.advance i r (match answer with
    | some known => .found known
    | none => .refused)

def tryHash (s : SignIns) (i : Nat) (r : Request) (known : Bool) : SignIns :=
  match s.gate.tryHash with
  | some gate => { s.advance i r (.hashing known) with gate }
  | none => s.advance i r .refused

/-- A password that matches the hash nobody holds is rejected with the others. -/
def verify (s : SignIns) (i : Nat) (r : Request) (known : Bool) (answer : Option Bool) : SignIns :=
  { s.advance i r (match answer with
      | some verified => if verified && known then .accepted else .rejected
      | none => .refused) with gate := s.gate.release }

/-- A store that is down is not held against the user. -/
def startSession (s : SignIns) (i : Nat) (r : Request) (stored : Bool) : SignIns :=
  if stored then
    let s' := s.advance i r .signedIn
    { s' with throttle := s.throttle.succeeded r.username, requests := s'.requests.map (.forgive r.key) }
  else s.advance i r .refused

def recordFailure (s : SignIns) (i : Nat) (r : Request) : SignIns :=
  { s with
    throttle := s.throttle.failed r.username r.arrived
    requests := (s.requests.map (.age s.throttle r.arrived)).set i { r with phase := .failed, lapsed := false } }

/-- Whoever is not where the step starts from takes none. -/
def step (s : SignIns) : SignInStep → SignIns
  | .arrive username origin now => s.arrive username origin now
  | .take i =>
      match s.requests[i]? with
      | some r => if r.phase = .allowed then s.take i r else s
      | none => s
  | .lookup i answer =>
      match s.requests[i]? with
      | some r => if r.phase = .taken then s.lookup i r answer else s
      | none => s
  | .tryHash i =>
      match s.requests[i]? with
      | some r =>
          match r.phase with
          | .found known => s.tryHash i r known
          | _ => s
      | none => s
  | .verify i answer =>
      match s.requests[i]? with
      | some r =>
          match r.phase with
          | .hashing known => s.verify i r known answer
          | _ => s
      | none => s
  | .settle i stored =>
      match s.requests[i]? with
      | some r =>
          match r.phase with
          | .accepted => s.startSession i r stored
          | .rejected => s.recordFailure i r
          | _ => s
      | none => s

end SignIns

end Gavel.Web
