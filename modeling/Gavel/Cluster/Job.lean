import Mathlib.Algebra.Order.Ring.Nat
import Mathlib.Data.List.Basic

/-!
# Jobs, tasks and their state machines

A job is what a user submits; it splits into independent tasks that the scheduler places on nodes.
A task is run again from the beginning after a failure.
-/

namespace Gavel.Cluster

abbrev NodeId := Nat
abbrev JobId := Nat
abbrev TaskId := Nat

/-- Milliseconds since the Unix epoch. -/
abbrev Millis := Nat

/-- Values of an unsigned 16-bit field. -/
abbrev U16 := Fin 65536

instance U16.neZero : NeZero 65536 := ⟨by decide⟩

def u16Max : Nat := 65535

/-- `u16::saturating_add(1)`. -/
def satSucc (n : Nat) : Nat := min (n + 1) u16Max

/-! ## What a user asks for -/

inductive JobSpec where
  | sleep (totalMs : Nat) (tasks : U16)
  | primes (upperBound : Nat) (tasks : U16)
  | analysis (version : Nat) (algorithm : Nat) (partitions : U16)
  deriving DecidableEq, Repr

/-- One independently schedulable unit of a job. -/
inductive TaskSpec where
  | sleep (millis : Nat)
  | primes (start : Nat) (stop : Nat)
  | analysis (version : Nat) (algorithm : Nat) (part : Nat)
  deriving DecidableEq, Repr

namespace JobSpec

def taskCount : JobSpec → Nat
  | .sleep _ tasks | .primes _ tasks | .analysis _ _ tasks => max tasks.val 1

/-- Split into independent units of work. -/
def split (spec : JobSpec) : List TaskSpec :=
  let n := spec.taskCount
  match spec with
  | .sleep totalMs _ =>
      let each := totalMs / n
      let rem := totalMs % n
      (List.range n).map fun i => .sleep (each + if i < rem then 1 else 0)
  | .primes upperBound _ =>
      let chunk := upperBound / n
      (List.range n).map fun i =>
        let start := i * chunk
        .primes start (if i + 1 = n then upperBound else start + chunk)
  | .analysis version algorithm _ =>
      (List.range n).map fun i => .analysis version algorithm i

theorem split_length (spec : JobSpec) : spec.split.length = spec.taskCount := by
  cases spec <;> simp [split]

theorem taskCount_pos (spec : JobSpec) : 0 < spec.taskCount := by
  cases spec <;> simp only [taskCount] <;> omega

theorem taskCount_le (spec : JobSpec) : spec.taskCount ≤ u16Max := by
  cases spec <;> simp only [taskCount, u16Max] <;> omega

end JobSpec

def TaskSpec.describe : TaskSpec → String
  | .sleep millis => s!"sleep {millis}ms"
  | .primes start stop => s!"primes in {start}..{stop}"
  | .analysis version _ part => s!"analysis {version} partition {part}"

/-! ## State machines -/

inductive JobState where
  | queued | running | completed | failed | cancelled
  deriving DecidableEq, Repr

inductive TaskState where
  | queued | assigned | running | completed | failed
  deriving DecidableEq, Repr

namespace JobState

def isTerminal : JobState → Bool
  | .completed | .failed | .cancelled => true
  | .queued | .running => false

def canTransitionTo : JobState → JobState → Bool
  | .queued, .running | .queued, .cancelled | .queued, .failed
  | .running, .completed | .running, .failed | .running, .cancelled => true
  | _, _ => false

end JobState

namespace TaskState

def isTerminal : TaskState → Bool
  | .completed | .failed => true
  | .queued | .assigned | .running => false

/-- The three edges into `queued` put a task back after its worker died, or after a failed attempt. -/
def canTransitionTo : TaskState → TaskState → Bool
  | .queued, .assigned
  | .assigned, .running | .assigned, .failed | .assigned, .queued
  | .running, .completed | .running, .failed | .running, .queued
  | .failed, .queued => true
  | _, _ => false

/-- A node holds the task: it was handed over and has not come back. -/
def isHeld : TaskState → Bool
  | .assigned | .running => true
  | _ => false

theorem isHeld_iff {st : TaskState} : st.isHeld = true ↔ st = .assigned ∨ st = .running := by
  cases st <;> simp [isHeld]

theorem held_not_terminal {st : TaskState} (h : st.isHeld = true) : st.isTerminal = false := by
  rcases isHeld_iff.mp h with h | h <;> rw [h] <;> rfl

theorem not_terminal_iff {st : TaskState} :
    st.isTerminal = false ↔ st = .queued ∨ st = .assigned ∨ st = .running := by
  cases st <;> simp [isTerminal]

end TaskState

inductive FailureReason where
  | nodeOffline | executionError | injected | timeout | cancelled
  deriving DecidableEq, Repr

inductive StateError where
  | illegalJobTransition (source target : JobState)
  | illegalTaskTransition (source target : TaskState)
  deriving DecidableEq, Repr

/-! ## Jobs -/

structure Job where
  id : JobId
  spec : JobSpec
  state : JobState
  taskCount : Nat
  tasksCompleted : Nat
  tasksFailed : Nat
  createdAt : Millis
  finishedAt : Option Millis
  deriving DecidableEq, Repr

namespace Job

def new (id : JobId) (spec : JobSpec) (at' : Millis) : Job where
  id := id
  spec := spec
  state := .queued
  taskCount := spec.taskCount
  tasksCompleted := 0
  tasksFailed := 0
  createdAt := at'
  finishedAt := none

def transitionTo (j : Job) (next : JobState) (at' : Millis) : Except StateError Job :=
  if j.state = next then .ok j
  else if j.state.canTransitionTo next then
    .ok { j with state := next, finishedAt := if next.isTerminal then some at' else j.finishedAt }
  else .error (.illegalJobTransition j.state next)

end Job

/-! ## Tasks -/

structure Task where
  id : TaskId
  jobId : JobId
  /-- Position within the job. -/
  index : Nat
  spec : TaskSpec
  state : TaskState
  assignedTo : Option NodeId
  /-- How many times execution has been started, the current try included. -/
  attempt : Nat
  output : Option String
  updatedAt : Millis
  deriving DecidableEq, Repr

namespace Task

def new (id : TaskId) (jobId : JobId) (index : Nat) (spec : TaskSpec) (at' : Millis) : Task where
  id := id
  jobId := jobId
  index := index
  spec := spec
  state := .queued
  assignedTo := none
  attempt := 0
  output := none
  updatedAt := at'

def transitionTo (t : Task) (next : TaskState) (at' : Millis) : Except StateError Task :=
  if t.state.canTransitionTo next then .ok { t with state := next, updatedAt := at' }
  else .error (.illegalTaskTransition t.state next)

def assign (t : Task) (node : NodeId) (at' : Millis) : Except StateError Task := do
  let t ← t.transitionTo .assigned at'
  return { t with assignedTo := some node, attempt := satSucc t.attempt }

def start (t : Task) (at' : Millis) : Except StateError Task :=
  t.transitionTo .running at'

def complete (t : Task) (output : String) (at' : Millis) : Except StateError Task := do
  let t ← t.transitionTo .completed at'
  return { t with output := some output }

def fail (t : Task) (at' : Millis) : Except StateError Task :=
  t.transitionTo .failed at'

/-- Put the task back on the queue so another worker runs it from scratch. -/
def requeue (t : Task) (at' : Millis) : Except StateError Task := do
  let t ← t.transitionTo .queued at'
  return { t with assignedTo := none, output := none }

variable {t t' : Task} {n : NodeId} {now : Millis} {out : String}

variable (now) in
theorem assign_ok : t.assign n now = .ok t' ↔ t.state = .queued ∧
    t' = { t with state := .assigned, updatedAt := now, assignedTo := some n,
                  attempt := satSucc t.attempt } := by
  unfold assign transitionTo
  cases hs : t.state <;>
    simp [TaskState.canTransitionTo, bind, Except.bind, pure, Except.pure, eq_comm]

theorem start_ok : t.start now = .ok t' ↔ t.state = .assigned ∧
    t' = { t with state := .running, updatedAt := now } := by
  unfold start transitionTo
  cases hs : t.state <;> simp [TaskState.canTransitionTo, eq_comm]

theorem complete_ok : t.complete out now = .ok t' ↔ t.state = .running ∧
    t' = { t with state := .completed, updatedAt := now, output := some out } := by
  unfold complete transitionTo
  cases hs : t.state <;>
    simp [TaskState.canTransitionTo, bind, Except.bind, pure, Except.pure, eq_comm]

theorem fail_ok : t.fail now = .ok t' ↔ t.state.isHeld = true ∧
    t' = { t with state := .failed, updatedAt := now } := by
  unfold fail transitionTo
  cases hs : t.state <;> simp [TaskState.canTransitionTo, TaskState.isHeld, eq_comm]

variable (now) in
theorem requeue_ok : t.requeue now = .ok t' ↔ (t.state.isHeld = true ∨ t.state = .failed) ∧
    t' = { t with state := .queued, updatedAt := now, assignedTo := none, output := none } := by
  unfold requeue transitionTo
  cases hs : t.state <;>
    simp [TaskState.canTransitionTo, TaskState.isHeld, bind, Except.bind, pure, Except.pure, eq_comm]

end Task

/-- A recorded failure: one per failed attempt, never overwritten. -/
structure TaskAttempt where
  taskId : TaskId
  jobId : JobId
  nodeId : Option NodeId
  attempt : Nat
  at' : Millis
  reason : FailureReason
  detail : String
  deriving DecidableEq, Repr

def TaskAttempt.new (t : Task) (reason : FailureReason) (detail : String) (at' : Millis) :
    TaskAttempt where
  taskId := t.id
  jobId := t.jobId
  nodeId := t.assignedTo
  attempt := t.attempt
  at' := at'
  reason := reason
  detail := detail

/-- What a worker reports back after running a task. -/
inductive TaskOutcome where
  | completed (output : String)
  | failed (reason : FailureReason) (detail : String)
  deriving DecidableEq, Repr

end Gavel.Cluster
