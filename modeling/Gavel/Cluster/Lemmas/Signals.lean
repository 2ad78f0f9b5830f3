import Gavel.Cluster.Theorems.Reporting

/-!
# The signals of an attempt

An attempt at a task leaves signals behind it: the assignment on its way out, the work itself, the start
and the result on their way back. Here they are read off the messages and off an agent.
-/

namespace Gavel.Cluster

/-- One sign of a task between the supervisor and the worker. -/
inductive Signal where
  | ask
  | start
  | work
  | finish (failed : Bool)
  deriving DecidableEq

def TaskOutcome.isFailed : TaskOutcome → Bool
  | .completed _ => false
  | .failed _ _ => true

/-- The task an assignment on the wire hands over. -/
def SupervisorMessage.ask? : SupervisorMessage → Option TaskId
  | .assign task _ => some task
  | _ => none

def NodeMessage.signal? (x : TaskId) : NodeMessage → Option Signal
  | .taskStarted task => if task = x then some .start else none
  | .taskFinished task outcome => if task = x then some (.finish outcome.isFailed) else none
  | _ => none

/-- What a report of node `n` says about the task. -/
def NodeReport.signal? (n : NodeId) (x : TaskId) : NodeReport → Option Signal
  | .heartbeat _ => none
  | .taskStarted node task => if node = n ∧ task.id = x then some .start else none
  | .taskFinished node task outcome =>
      if node = n ∧ task.id = x then some (.finish outcome.isFailed) else none

/-- The assignments of one task among those of any. -/
def asked (x : TaskId) (ids : List TaskId) : List Signal :=
  ids.filterMap fun id => if id = x then some .ask else none

theorem asked_append (x : TaskId) (l m : List TaskId) : asked x (l ++ m) = asked x l ++ asked x m :=
  List.filterMap_append

@[simp] theorem asked_nil (x : TaskId) : asked x [] = [] := rfl

@[simp] theorem asked_self (x : TaskId) (l : List TaskId) : asked x (x :: l) = .ask :: asked x l := by
  simp [asked]

theorem asked_ne {x id : TaskId} (h : id ≠ x) (l : List TaskId) : asked x (id :: l) = asked x l := by
  simp [asked, h]

theorem asked_eq_nil {x : TaskId} {l : List TaskId} : asked x l = [] ↔ x ∉ l := by
  induction l with
  | nil => simp
  | cons id l ih =>
      by_cases h : id = x
      · subst h; simp
      · simp [asked_ne h, ih, Ne.symm h]

/-! ## The attempt under way -/

/-- The signals of an attempt, oldest first, from the assignment to the result. A task that has been
reported as started is running. -/
inductive Live : TaskState → List Signal → Prop where
  | asked (st : TaskState) : Live st [.ask]
  | begun (st : TaskState) : Live st [.start, .work]
  | reported (st : TaskState) (failed : Bool) : Live st [.start, .finish failed]
  | working : Live .running [.work]
  | finished (failed : Bool) : Live .running [.finish failed]
  | failed (st : TaskState) : Live st [.finish true]

namespace Live

variable {st : TaskState} {l l' r q : List Signal}

theorem ne_nil (h : Live st l) : l ≠ [] := by
  cases h <;> simp

/-- Whatever is legal for a task that is assigned is legal once it runs. -/
theorem running (h : Live st l) : Live .running l := by
  cases h with
  | asked => exact .asked _
  | begun => exact .begun _
  | reported st failed => exact .reported _ failed
  | working => exact .working
  | finished failed => exact .finished failed
  | failed => exact .failed _

theorem start (h : Live st (.start :: l)) : Live .running l := by
  cases h with
  | begun => exact .working
  | reported st failed => exact .finished failed

/-- The result is the last signal, and the task may take it. -/
theorem finish {failed : Bool} (h : Live st (.finish failed :: l)) :
    l = [] ∧ (st = .running ∨ failed = true) := by
  cases h with
  | finished => exact ⟨rfl, .inl rfl⟩
  | failed => exact ⟨rfl, .inr rfl⟩

theorem after_finish {failed : Bool} (h : Live st l) (hl : l = r ++ .finish failed :: q) : q = [] := by
  cases h <;> rcases r with _ | ⟨_, _ | ⟨_, r⟩⟩ <;> simp_all

theorem ask (h : Live st l) (hl : l = r ++ .ask :: q) : r = [] ∧ q = [] := by
  cases h <;> rcases r with _ | ⟨_, _ | ⟨_, r⟩⟩ <;> simp_all

theorem work (h : Live st l) (hl : l = r ++ .work :: q) (failed : Bool) :
    Live st (r ++ .finish failed :: q) := by
  cases h with
  | begun =>
      rcases r with _ | ⟨_, _ | ⟨_, r⟩⟩
      · simp at hl
      · obtain ⟨rfl, rfl⟩ : _ ∧ q = [] := by simpa using hl
        exact .reported _ failed
      · simp at hl
  | working =>
      rcases r with _ | ⟨_, r⟩
      · obtain rfl : q = [] := by simpa using hl
        exact .finished failed
      · simp at hl
  | asked | reported | finished | failed => rcases r with _ | ⟨_, _ | ⟨_, r⟩⟩ <;> simp at hl

end Live

/-- Nothing happened to the signals, or the work turned into its result. -/
def Worked (l l' : List Signal) : Prop := l' = l ∨ l = [.work] ∧ ∃ failed, l' = [.finish failed]

theorem Worked.live {st : TaskState} {l l' r q : List Signal} (hw : Worked l l')
    (h : Live st (r ++ l ++ q)) : Live st (r ++ l' ++ q) := by
  rcases hw with rfl | ⟨rfl, failed, rfl⟩
  · exact h
  · simpa using h.work (r := r) (q := q) (by simp) failed

theorem Worked.nil {l' : List Signal} (h : Worked [] l') : l' = [] := by
  rcases h with h | ⟨h, -⟩
  · exact h
  · cases h

/-! ## The agent -/

namespace Agent

variable {a : Agent} {x : TaskId} {now : Millis}

/-- The task in the agent's hands. -/
def signals (a : Agent) (x : TaskId) : List Signal := if a.open? = some x then [.work] else []

/-- What the messages among the actions say about the task. -/
def heard (x : TaskId) (actions : List AgentAction) : List Signal :=
  (sends actions).filterMap (NodeMessage.signal? x)

theorem heard_append (x : TaskId) (l m : List AgentAction) :
    heard x (l ++ m) = heard x l ++ heard x m := by
  rw [heard, sends_append, List.filterMap_append]
  rfl

theorem signals_congr {b : Agent} (h : b.open? = a.open?) : b.signals x = a.signals x := by
  rw [signals, signals, h]

/-- The agent after a call, with what it said during it. -/
def outcome (x : TaskId) (called : List AgentAction × Agent) : List Signal :=
  heard x called.1 ++ called.2.signals x

theorem finish_worked (a : Agent) (x : TaskId) (now : Millis) :
    Worked (a.signals x) (outcome x (a.finish now)) := by
  unfold finish
  cases hr : a.running with
  | none => exact .inl rfl
  | some r =>
      have hopen : a.open? = some r.id := by simp [open?, hr]
      dsimp only
      split
      · rename_i hdue
        have hclosed : ({ a with running := none } : Agent).signals x = [] := rfl
        rw [outcome, hclosed, List.append_nil, heard, sends_map_send, signals, hopen, Running.results]
        by_cases hx : r.id = x
        · rw [if_pos (congrArg some hx)]
          cases hw : r.work with
          | ready output => exact .inr ⟨rfl, false, by simp [NodeMessage.signal?, hx, TaskOutcome.isFailed]⟩
          | produced output artifact =>
              dsimp only
              split
              · exact .inr ⟨rfl, true, by simp [NodeMessage.signal?, hx, TaskOutcome.isFailed]⟩
              · exact .inr ⟨rfl, false, by
                  simp [List.filterMap_cons, NodeMessage.signal?, hx, TaskOutcome.isFailed]⟩
          | primes => simp [Running.isDue, hw] at hdue
        · rw [if_neg (by simpa using hx)]
          left
          cases r.work with
          | ready output => simp [NodeMessage.signal?, hx]
          | produced output artifact =>
              dsimp only
              split <;> simp [NodeMessage.signal?, hx]
          | primes => rfl
      · exact .inl rfl

theorem beat_outcome (a : Agent) (x : TaskId) (now : Millis) :
    outcome x (a.beat now) = a.signals x ∧ (a.beat now).2.id = a.id := by
  unfold beat
  cases h : a.id with
  | none => exact ⟨rfl, h⟩
  | some node =>
      dsimp only
      split
      · exact ⟨rfl, rfl⟩
      · exact ⟨rfl, h⟩

theorem poll_worked (a : Agent) (x : TaskId) (now : Millis) :
    Worked (a.signals x) (outcome x (a.poll now)) := by
  have hadv : ({ a with running := a.running.map Running.advanced } : Agent).open? = a.open? := by
    simp [open?, Option.map_map, Function.comp_def, Running.advanced]
  have hfin := finish_worked { a with running := a.running.map Running.advanced } x now
  rw [signals_congr hadv] at hfin
  have hbeat := (beat_outcome ({ a with running := a.running.map Running.advanced }.finish now).2 x now).1
  have hsum : outcome x (a.poll now) =
      outcome x ({ a with running := a.running.map Running.advanced }.finish now) := by
    rw [outcome, poll, heard_append, heard_append, outcome, ← hbeat, outcome]
    simp [heard]
  rw [hsum]
  exact hfin

theorem finish_id (a : Agent) (now : Millis) : (a.finish now).2.id = a.id := by
  unfold finish
  split
  · split <;> rfl
  · rfl

theorem poll_id (a : Agent) (now : Millis) : (a.poll now).2.id = a.id :=
  ((beat_outcome _ 0 now).2).trans (finish_id _ now)

theorem outcome_send (x : TaskId) (message : NodeMessage) (called : List AgentAction × Agent) :
    outcome x (.send message :: called.1, called.2) =
      (message.signal? x).toList ++ outcome x called := by
  rw [outcome, heard, sends_send, outcome, ← List.append_assoc]
  cases h : message.signal? x <;> simp [heard, h]

theorem accept_other {y : TaskId} (hy : y ≠ x) (wire : WireTaskSpec) :
    Worked (a.signals x) (outcome x (a.accept y wire now)) := by
  have hsaid (outcome : TaskOutcome) :
      (NodeMessage.taskFinished y outcome).signal? x = none := if_neg hy
  have hstart : (NodeMessage.taskStarted y).signal? x = none := if_neg hy
  unfold accept
  cases a.id with
  | none => exact .inl rfl
  | some node =>
      dsimp only
      cases hr : a.running with
      | some running =>
          dsimp only
          split
          · exact .inl rfl
          · exact .inl (by simp [outcome, heard, hsaid])
      | none =>
          have hnone : a.signals x = [] := by simp [signals, open?, hr]
          have hpoll (b : Agent) (hb : b.open? ≠ some x) : outcome x (b.poll now) = [] := by
            have hb := poll_worked b x now
            rw [signals, if_neg ‹_›] at hb
            exact hb.nil
          rw [hnone]
          dsimp only
          split
          · exact .inl (by simp [outcome, heard, hsaid, hstart, signals, open?])
          · split
            · exact .inl (by simp [outcome, heard, hsaid, hstart, hnone])
            · rw [outcome_send, hstart]
              exact .inl (hpoll _ (by simpa [open?] using hy))

/-- A task the agent is not running is started or refused. -/
theorem accept_self {st : TaskState} (hid : a.id.isSome = true) (hidle : a.signals x = [])
    (wire : WireTaskSpec) : Live st (outcome x (a.accept x wire now)) := by
  have hnot : a.open? ≠ some x := by
    intro h
    rw [signals, if_pos h] at hidle
    cases hidle
  have hrefused (reason : FailureReason) (detail : String) :
      (NodeMessage.taskFinished x (.failed reason detail)).signal? x = some (.finish true) := if_pos rfl
  have hstart : (NodeMessage.taskStarted x).signal? x = some .start := if_pos rfl
  unfold accept
  cases hnode : a.id with
  | none => rw [hnode] at hid; cases hid
  | some node =>
      dsimp only
      cases hr : a.running with
      | some running =>
          have hne : running.id ≠ x := by simpa [open?, hr] using hnot
          dsimp only
          rw [if_neg hne, outcome, hidle]
          simpa [heard, hrefused] using Live.failed st
      | none =>
          have hpoll (b : Agent) (hb : b.open? = some x) :
              Live st (.start :: outcome x (b.poll now)) := by
            have hw := poll_worked b x now
            rw [signals, if_pos hb] at hw
            simpa using hw.live (r := [.start]) (q := []) (.begun st)
          dsimp only
          split
          · simpa [outcome, heard, hrefused, hstart, signals, open?] using Live.reported st true
          · split
            · rw [outcome, hidle]
              simpa [heard, hrefused, hstart] using Live.reported st true
            · rw [outcome_send, hstart]
              exact hpoll _ (by simp [open?])

theorem accept_id (y : TaskId) (wire : WireTaskSpec) : (a.accept y wire now).2.id = a.id := by
  unfold accept
  cases h : a.id with
  | none => exact h
  | some node =>
      dsimp only
      cases a.running with
      | some running => dsimp only; split <;> exact h
      | none =>
          dsimp only
          split
          · rfl
          · split
            · exact h
            · exact poll_id _ now

theorem handle_other {message : SupervisorMessage} (h : message.ask? ≠ some x) :
    Worked (a.signals x) (outcome x (a.handle message now)) := by
  cases message with
  | assign y wire => exact accept_other (by simpa [SupervisorMessage.ask?] using h) wire
  | rejected | shutdown => exact .inl rfl
  | welcome | pauseHeartbeat | injectFailures | setDelay => exact poll_worked _ x now

/-- A worker keeps its id, and a greeting gives it one. -/
theorem handle_id (message : SupervisorMessage)
    (h : a.id.isSome = true ∨ ∃ p n i, message = .welcome p n i) :
    (a.handle message now).2.id.isSome = true := by
  cases message with
  | welcome p n i => rw [handle, poll_id]; rfl
  | assign y wire =>
      rw [handle, accept_id]
      exact h.resolve_right (by simp)
  | rejected | shutdown => exact h.resolve_right (by simp)
  | pauseHeartbeat | injectFailures | setDelay =>
      rw [handle, poll_id]
      exact h.resolve_right (by simp)

end Agent

end Gavel.Cluster
