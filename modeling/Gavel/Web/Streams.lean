import Gavel.Lib.Run
import Gavel.Web.Throttle

/-!
# Calls for a slot

Any number of calls enter the gate and any permit may be dropped. A call moves by atomic steps, between
which every other one may move.
-/

namespace Gavel.Web

/-- How far a call has come. -/
inductive StreamPhase where
  /-- Counted, the total allows it. -/
  | bumped
  /-- Counted and refused, by the total or by its origin; the count is not taken back yet. -/
  | overTotal | overOrigin
  | refused
  /-- It holds a permit. -/
  | live
  /-- The permit is dropped and off the counter, its origin not told yet. -/
  | dropping
  | gone
  deriving DecidableEq

structure StreamCall where
  origin : IpAddr
  phase : StreamPhase
  deriving DecidableEq

/-- The gate, the calls in the order they came, and whether a subtraction wrapped. -/
structure Streams where
  gate : SseGate
  calls : List StreamCall
  underflow : Bool

inductive StreamStep where
  | enter (origin : IpAddr)
  | place (i : Nat)
  | rollBack (i : Nat)
  | drop (i : Nat)
  | leave (i : Nat)
  deriving DecidableEq

namespace Streams

def start (maxTotal maxPerOrigin : Nat) : Streams := ⟨.new maxTotal maxPerOrigin, [], false⟩

/-- A call in one of some phases moves to a phase and changes the gate; any other one stays. -/
def move (s : Streams) (i : Nat) (expected : List StreamPhase)
    (act : SseGate → IpAddr → Option (StreamPhase × SseGate)) : Streams :=
  match s.calls[i]? with
  | some call =>
      if call.phase ∈ expected then
        match act s.gate call.origin with
        | some (phase, gate) => { s with gate, calls := s.calls.set i { call with phase } }
        | none => { s with underflow := true }
      else s
  | none => s

/-- One atomic step. -/
def step (s : Streams) : StreamStep → Streams
  | .enter origin =>
      let (allowed, gate) := s.gate.bump
      { s with gate, calls := s.calls ++ [⟨origin, if allowed then .bumped else .overTotal⟩] }
  | .place i =>
      s.move i [.bumped] fun gate origin =>
        let (allowed, gate) := gate.place origin
        some (if allowed then .live else .overOrigin, gate)
  | .rollBack i => s.move i [.overTotal, .overOrigin] fun gate _ => gate.unbump.map (.refused, ·)
  | .drop i => s.move i [.live] fun gate _ => gate.unbump.map (.dropping, ·)
  | .leave i => s.move i [.dropping] fun gate origin => (gate.leave origin).map (.gone, ·)

end Streams

end Gavel.Web
