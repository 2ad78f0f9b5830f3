import Gavel.Lib.Run
import Gavel.Web.FragmentCache

/-!
# Concurrent calls for fragments

Any number of calls of `get_or_build` on one cache. A call looks its key up under the lock and keeps the
cell it found, whatever becomes of the entry; the cell then lets one build run at a time. Between any two
of its steps every other call may move, and a call may be dropped where it stands.
-/

namespace Gavel.Web

/-- How far a call has come. -/
inductive GetPhase (α : Type) where
  | arrived
  /-- It has a cell, and waits for its value or for leave to build. -/
  | holding (cell : Nat)
  | building (cell : Nat)
  | returned (cell : Nat) (value : α)
  /-- Its own build failed. -/
  | failed (cell : Nat)
  | dropped
  deriving DecidableEq

namespace GetPhase

variable {α : Type}

def cell : GetPhase α → Option Nat
  | .holding cell | .building cell | .returned cell _ | .failed cell => some cell
  | .arrived | .dropped => none

end GetPhase

structure GetOrBuild (α : Type) where
  key : FragmentKey
  phase : GetPhase α
  deriving DecidableEq

/-- A build that ran to its end: whose it was, the cell it was for and what it made. -/
structure Ended (α : Type) where
  call : Nat
  cell : Nat
  made : Option α
  deriving DecidableEq

/-- What the call gets of its own build. -/
def Ended.outcome {α : Type} (b : Ended α) : GetPhase α :=
  match b.made with
  | some value => .returned b.cell value
  | none => .failed b.cell

/-- The cache, the calls in the order they came and the builds in the order they ended. -/
structure Coalescing (α : Type) where
  cache : FragmentCache α
  calls : List (GetOrBuild α)
  builds : List (Ended α)
  deriving DecidableEq

inductive CoalescingStep (α : Type) where
  | getOrBuild (key : FragmentKey)
  | proceed (i : Nat)
  | finish (i : Nat) (made : Option α)
  | cancel (i : Nat)
  deriving DecidableEq

namespace Coalescing

variable {α : Type}

def start : Coalescing α := ⟨.new, [], []⟩

def advance (s : Coalescing α) (i : Nat) (call : GetOrBuild α) (phase : GetPhase α) : Coalescing α :=
  { s with calls := s.calls.set i { call with phase } }

/-- A call that has arrived finds its cell; one with a cell returns its value, or builds if no other call
does. -/
def proceed (s : Coalescing α) (i : Nat) (call : GetOrBuild α) : Coalescing α :=
  match call.phase with
  | .arrived =>
      let (cache, cell) := s.cache.cellOf call.key
      { s.advance i call (.holding cell) with cache }
  | .holding cell =>
      match s.cache.value cell with
      | some value => s.advance i call (.returned cell value)
      | none =>
          if s.cache.isFree cell then
            { s.advance i call (.building cell) with cache := s.cache.start cell i }
          else s
  | .building _ | .returned _ _ | .failed _ | .dropped => s

/-- The build of a call ends. -/
def finish (s : Coalescing α) (i : Nat) (call : GetOrBuild α) (made : Option α) : Coalescing α :=
  match call.phase with
  | .building cell =>
      let build : Ended α := ⟨i, cell, made⟩
      { s.advance i call build.outcome with
        cache := s.cache.finish cell made
        builds := s.builds ++ [build] }
  | .arrived | .holding _ | .returned _ _ | .failed _ | .dropped => s

/-- The future of a call is dropped. If its build was running the cell is free again, and still empty. -/
def cancel (s : Coalescing α) (i : Nat) (call : GetOrBuild α) : Coalescing α :=
  match call.phase with
  | .arrived | .holding _ => s.advance i call .dropped
  | .building cell => { s.advance i call .dropped with cache := s.cache.finish cell none }
  | .returned _ _ | .failed _ | .dropped => s

/-- One atomic step. -/
def step (s : Coalescing α) : CoalescingStep α → Coalescing α
  | .getOrBuild key => { s with calls := s.calls ++ [⟨key, .arrived⟩] }
  | .proceed i => s.calls[i]?.elim s (s.proceed i)
  | .finish i made => s.calls[i]?.elim s (s.finish i · made)
  | .cancel i => s.calls[i]?.elim s (s.cancel i)

end Coalescing

end Gavel.Web
