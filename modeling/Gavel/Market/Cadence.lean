import Gavel.Market.Basic

/-!
# When a realm is polled

Each connected realm is asked for its auctions on a schedule of its own: at the fast end after a fresh
answer, less often while nothing changes or the requests fail. What is kept of the schedule is the
interval and the next check; the settings it is bounded by may change between any two checks.
-/

namespace Gavel.Market

open Gavel.Cluster (Millis)

/-- A later instant, at most the last there is. -/
def plusMs (at' : Millis) (ms : Nat) : Millis := min (at' + ms) maxU64

/-- The settings as they are used: a minimum of at least one, and a maximum no less than it. -/
def bounds (minimumMs maximumMs : Nat) : Nat × Nat :=
  let minimumMs := max minimumMs 1
  (minimumMs, max maximumMs minimumMs)

/-- The next time one realm should be checked for a new snapshot. -/
structure RealmCadence where
  intervalMs : Nat
  nextCheckAt : Millis
  deriving DecidableEq

namespace RealmCadence

/-- Start a realm at the fast end of the schedule. -/
def new (now : Millis) (minimumMs : Nat) : RealmCadence := ⟨minimumMs, now⟩

def isDue (c : RealmCadence) (now : Millis) : Bool := c.nextCheckAt ≤ now

/-- Apply new bounds. When the last request happened is told by the next check and the interval. -/
def withinBounds (c : RealmCadence) (minimumMs maximumMs : Nat) : RealmCadence :=
  let (minimumMs, maximumMs) := bounds minimumMs maximumMs
  let previousIntervalMs := max c.intervalMs 1
  let checkedAt := c.nextCheckAt - previousIntervalMs
  let intervalMs := min (max c.intervalMs minimumMs) maximumMs
  ⟨intervalMs, plusMs checkedAt intervalMs⟩

/-- Nothing has changed: up a ladder of five and fifteen times the minimum. -/
def afterUnchanged (c : RealmCadence) (now : Millis) (minimumMs maximumMs : Nat) : RealmCadence :=
  let (minimumMs, maximumMs) := bounds minimumMs maximumMs
  let five := min (min (minimumMs * 5) maxU64) maximumMs
  let fifteen := min (min (minimumMs * 15) maxU64) maximumMs
  let intervalMs :=
    if c.intervalMs < five then five else if c.intervalMs < fifteen then fifteen else maximumMs
  ⟨intervalMs, plusMs now intervalMs⟩

/-- A fresh snapshot returns to the fast end. -/
def afterActivity (now : Millis) (minimumMs maximumMs : Nat) : RealmCadence :=
  let (minimumMs, _) := bounds minimumMs maximumMs
  ⟨minimumMs, plusMs now minimumMs⟩

/-- A failed request doubles the interval. -/
def afterFailure (c : RealmCadence) (now : Millis) (minimumMs maximumMs : Nat) : RealmCadence :=
  let (_, maximumMs) := bounds minimumMs maximumMs
  let current := c.withinBounds minimumMs maximumMs
  let intervalMs := min (min (current.intervalMs * 2) maxU64) maximumMs
  ⟨intervalMs, plusMs now intervalMs⟩

/-! ## Across restarts -/

/-- The stored form. -/
def display (c : RealmCadence) : Text := Text.decimal c.intervalMs ++ ',' :: Text.decimal c.nextCheckAt

/-- Read back a stored cadence. -/
def parse (value : Text) : Option RealmCadence := do
  let (intervalMs, nextCheckAt) ← Text.splitOnce ',' value
  let intervalMs ← Text.parseNat maxU64 intervalMs
  let nextCheckAt ← Text.parseNat maxU64 nextCheckAt
  return ⟨intervalMs, nextCheckAt⟩

/-- The cadence a cycle goes by: what was stored, under the settings of now; a realm that nothing is
stored of, or nothing that can be read, starts anew. -/
def scheduled (stored : Option Text) (now : Millis) (minimumMs maximumMs : Nat) : RealmCadence :=
  match stored.bind parse with
  | some c => c.withinBounds minimumMs maximumMs
  | none => .new now minimumMs

end RealmCadence

/-- What became of the request for one realm. -/
inductive PollOutcome where
  | collected | unchanged | failed
  deriving DecidableEq

/-- The cadence that is stored after a request. -/
def PollOutcome.next (o : PollOutcome) (c : RealmCadence) (now : Millis) (minimumMs maximumMs : Nat) :
    RealmCadence :=
  match o with
  | .collected => .afterActivity now minimumMs maximumMs
  | .unchanged => c.afterUnchanged now minimumMs maximumMs
  | .failed => c.afterFailure now minimumMs maximumMs

end Gavel.Market
