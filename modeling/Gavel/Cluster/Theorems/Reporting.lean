import Gavel.Cluster.Agent
import Mathlib.Data.List.TakeWhile

/-!
# What a worker says

The messages of a worker about its tasks follow a grammar: a task is started, then finished, possibly
with an artifact right before the completion; a task handed to a busy worker is bounced. The agent is
related to that grammar call by call, and the shape of what it says about one task follows from it.
-/

namespace Gavel.Cluster

/-- The task a message is about. -/
def NodeMessage.task? : NodeMessage → Option TaskId
  | .taskProduced task _ | .taskStarted task | .taskFinished task _ => some task
  | .hello _ _ _ _ | .heartbeat _ => none

/-- The task an assignment hands over. -/
def AgentCall.assigned? : AgentCall → Option TaskId
  | .handle (.assign task _) _ => some task
  | _ => none

namespace Agent

variable {a : Agent} {task : TaskId}

/-! ## The grammar -/

/-- The conversations of a worker: the task it has open, the assignments it was given and what it has
said. -/
inductive Told : Option TaskId → List TaskId → List NodeMessage → Prop where
  | nil : Told none [] []
  | beat {o given said} (hb : Heartbeat) : Told o given said → Told o given (said ++ [.heartbeat hb])
  | ignored {o given said} (task : TaskId) : Told o given said → Told o (given ++ [task]) said
  | bounce {c given said task} (reason : FailureReason) (detail : String) (hne : c ≠ task) :
      Told (some c) given said →
        Told (some c) (given ++ [task]) (said ++ [.taskFinished task (.failed reason detail)])
  | start {given said} (task : TaskId) : Told none given said →
      Told (some task) (given ++ [task]) (said ++ [.taskStarted task])
  | finish {task given said} (outcome : TaskOutcome) : Told (some task) given said →
      Told none given (said ++ [.taskFinished task outcome])
  | produce {task given said} (artifact : Artifact) (output : String) : Told (some task) given said →
      Told none given
        (said ++ [.taskProduced task artifact] ++ [.taskFinished task (.completed output)])

/-- The task a worker is running. -/
def open? (a : Agent) : Option TaskId := a.running.map Running.id

/-! ## The agent keeps to it -/

section Steps

variable {given : List TaskId} {said : List NodeMessage}

theorem sends_append (l m : List AgentAction) : sends (l ++ m) = sends l ++ sends m :=
  List.filterMap_append

@[simp] theorem sends_nil : sends [] = [] := rfl

@[simp] theorem sends_send (message : NodeMessage) (l : List AgentAction) :
    sends (.send message :: l) = message :: sends l := rfl

@[simp] theorem sends_wakeIn (wake : Option Nat) : sends (wake.map AgentAction.wakeIn).toList = [] := by
  cases wake <;> rfl

@[simp] theorem sends_map_send (l : List NodeMessage) : sends (l.map .send) = l := by
  induction l with
  | nil => rfl
  | cons message l ih => simp [ih]

theorem finish_told (now : Millis) (h : Told a.open? given said) :
    Told (a.finish now).2.open? given (said ++ sends (a.finish now).1) := by
  unfold finish
  cases hr : a.running with
  | none => simpa using h
  | some r =>
      have hopen : a.open? = some r.id := by simp [open?, hr]
      dsimp only
      split
      · rename_i hdue
        rw [hopen] at h
        simp only [sends_map_send, open?, Option.map_none, Running.results]
        cases hw : r.work with
        | ready output => exact .finish _ h
        | produced output artifact =>
            dsimp only
            split
            · exact .finish _ h
            · simpa using Told.produce (Artifact.new artifact) output h
        | primes => simp [Running.isDue, hw] at hdue
      · simpa using h

theorem beat_told (now : Millis) (h : Told a.open? given said) :
    Told (a.beat now).2.open? given (said ++ sends (a.beat now).1) := by
  unfold beat
  cases a.id with
  | none => simpa using h
  | some node =>
      dsimp only
      split
      · exact .beat _ h
      · simpa using h

theorem poll_told (now : Millis) (h : Told a.open? given said) :
    Told (a.poll now).2.open? given (said ++ sends (a.poll now).1) := by
  have hadv : Told { a with running := a.running.map Running.advanced }.open? given said := by
    have : { a with running := a.running.map Running.advanced }.open? = a.open? := by
      simp [open?, Option.map_map, Function.comp_def, Running.advanced]
    rwa [this]
  have h₁ := finish_told now hadv
  have h₂ := beat_told now h₁
  simpa only [poll, sends_append, sends_wakeIn, List.append_nil, List.append_assoc] using h₂

theorem accept_told (wire : WireTaskSpec) (now : Millis) (h : Told a.open? given said) :
    Told (a.accept task wire now).2.open? (given ++ [task])
      (said ++ sends (a.accept task wire now).1) := by
  unfold accept
  cases a.id with
  | none => simpa using h.ignored task
  | some node =>
      dsimp only
      cases hr : a.running with
      | some running =>
          have hopen : a.open? = some running.id := by simp [open?, hr]
          dsimp only
          split
          · simpa using h.ignored task
          · rename_i hne
            rw [hopen] at h ⊢
            exact .bounce _ _ hne h
      | none =>
          have hopen : a.open? = none := by simp [open?, hr]
          rw [hopen] at h
          have hstart := h.start task
          dsimp only
          split
          · simpa [open?, hr] using hstart.finish (.failed .injected injectedDetail)
          · split
            · simpa [open?, hr] using hstart.finish
                (.failed .executionError ("this worker cannot run " ++ wire.toTaskSpec.describe))
            · rename_i waitMs work _
              have hpoll := poll_told (a := { a with
                id := some node
                running := some ⟨task, satAdd now (satAdd waitMs a.extraDelayMs), work⟩ }) now hstart
              rw [List.append_assoc] at hpoll
              exact hpoll

/-- One call. -/
theorem call_told (c : AgentCall) (h : Told a.open? given said) :
    Told (a.call c).2.open? (given ++ c.assigned?.toList) (said ++ sends (a.call c).1) := by
  cases c with
  | setFreeMemory bytes => simpa [call, setFreeMemory, open?, AgentCall.assigned?] using h
  | poll now => simpa [call, AgentCall.assigned?] using poll_told now h
  | handle message now =>
      cases message with
      | assign task wire => exact accept_told wire now h
      | rejected | shutdown =>
          simpa [call, handle, AgentCall.assigned?, sends] using h
      | welcome | pauseHeartbeat | injectFailures | setDelay =>
          simp only [call, handle, AgentCall.assigned?, Option.toList_none, List.append_nil]
          exact poll_told now h

theorem converse_told (calls : List AgentCall) (h : Told a.open? given said) :
    Told (a.converse calls).2.open? (given ++ calls.filterMap AgentCall.assigned?)
      (said ++ (a.converse calls).1) := by
  induction calls generalizing a given said with
  | nil => simpa [converse] using h
  | cons c calls ih =>
      have hc := ih (call_told c h)
      have hgiven : (c :: calls).filterMap AgentCall.assigned? =
          c.assigned?.toList ++ calls.filterMap AgentCall.assigned? := by
        cases hc : c.assigned? <;> simp [hc]
      rw [hgiven]
      simpa [converse] using hc

end Steps

/-! ## What is said about one task -/

/-- The messages about a task. -/
def about (task : TaskId) (said : List NodeMessage) : List NodeMessage :=
  said.filter (·.task? = some task)

/-- One complete report of a task. -/
inductive IsBlock (task : TaskId) : List NodeMessage → Prop where
  | run (outcome : TaskOutcome) : IsBlock task [.taskStarted task, .taskFinished task outcome]
  | produced (artifact : Artifact) (output : String) : IsBlock task
      [.taskStarted task, .taskProduced task artifact, .taskFinished task (.completed output)]
  | bounced (reason : FailureReason) (detail : String) :
      IsBlock task [.taskFinished task (.failed reason detail)]

/-- Complete reports of the task, then possibly one cut off after its start; no more of them than the
task was assigned. -/
def InBlocks (task : TaskId) (given : List TaskId) (said : List NodeMessage) : Prop :=
  ∃ (blocks : List (List NodeMessage)) (cut : List NodeMessage),
    (∀ b ∈ blocks, IsBlock task b) ∧ (cut = [] ∨ cut = [.taskStarted task]) ∧
    about task said = blocks.flatten ++ cut ∧ blocks.length + cut.length ≤ given.count task

/-- Every start of the task is followed by its end. -/
def Closed (task : TaskId) (said : List NodeMessage) : Prop :=
  ∀ pre mid, said = pre ++ .taskStarted task :: mid → ∃ outcome, .taskFinished task outcome ∈ mid

/-- How a worker reports its tasks, given these assignments. -/
structure ReportsInBlocks (given : List TaskId) (said : List NodeMessage) : Prop where
  blocks : ∀ task, InBlocks task given said
  /-- An artifact is followed by the completion, with nothing between them. -/
  adjacent : ∀ pre task artifact, pre ++ [.taskProduced task artifact] <+: said →
    ∃ output, pre ++ [.taskProduced task artifact] ++ [.taskFinished task (.completed output)] <+: said
  /-- When a task is started, every task started before has been finished. -/
  apart : ∀ pre task, pre ++ [.taskStarted task] <+: said → ∀ other, Closed other pre

section Shape

variable {o : Option TaskId} {given : List TaskId} {said : List NodeMessage}

@[simp] theorem about_append (task : TaskId) (l m : List NodeMessage) :
    about task (l ++ m) = about task l ++ about task m := List.filter_append ..

theorem about_other {m : NodeMessage} (h : m.task? ≠ some task) : about task [m] = [] := by
  simp [about, h]

theorem about_same {m : NodeMessage} (h : m.task? = some task) : about task [m] = [m] := by
  simp [about, h]

/-- The complete reports, with the start of the open task after them. -/
def Split (task : TaskId) (o : Option TaskId) (given : List TaskId) (said : List NodeMessage) : Prop :=
  ∃ blocks : List (List NodeMessage), (∀ b ∈ blocks, IsBlock task b) ∧
    about task said = blocks.flatten ++ (if o = some task then [.taskStarted task] else []) ∧
    blocks.length + (if o = some task then 1 else 0) ≤ given.count task

theorem Split.other {m : NodeMessage} (h : Split task o given said) (hm : m.task? ≠ some task) :
    Split task o given (said ++ [m]) := by
  obtain ⟨blocks, hb, hsaid, hlen⟩ := h
  exact ⟨blocks, hb, by simp [hsaid, about_other hm], hlen⟩

theorem Split.assign (h : Split task o given said) (more : List TaskId) :
    Split task o (given ++ more) said := by
  obtain ⟨blocks, hb, hsaid, hlen⟩ := h
  exact ⟨blocks, hb, hsaid, by rw [List.count_append]; omega⟩

theorem Split.move {u : Option TaskId} (h : Split task o given said) (ho : o ≠ some task)
    (hu : u ≠ some task) : Split task u given said := by
  obtain ⟨blocks, hb, hsaid, hlen⟩ := h
  rw [if_neg ho] at hsaid hlen
  exact ⟨blocks, hb, by rw [if_neg hu]; exact hsaid, by rw [if_neg hu]; exact hlen⟩

theorem Split.close (h : Split task (some task) given said) {rest : List NodeMessage}
    (hblock : IsBlock task (.taskStarted task :: rest)) (hrest : about task rest = rest) :
    Split task none given (said ++ rest) := by
  obtain ⟨blocks, hb, hsaid, hlen⟩ := h
  refine ⟨blocks ++ [.taskStarted task :: rest], ?_, ?_, by simpa using hlen⟩
  · intro b hmem
    rcases List.mem_append.mp hmem with hmem | hmem
    · exact hb b hmem
    · exact List.mem_singleton.mp hmem ▸ hblock
  · simp [hsaid, hrest]

theorem Split.inBlocks (h : Split task o given said) : InBlocks task given said := by
  obtain ⟨blocks, hb, hsaid, hlen⟩ := h
  refine ⟨blocks, _, hb, ?_, hsaid, ?_⟩
  · split <;> simp
  · split <;> simp_all

theorem Told.split (h : Told o given said) (task : TaskId) : Split task o given said := by
  induction h with
  | nil => exact ⟨[], by simp, by simp [about], by simp⟩
  | beat hb _ ih => exact ih.other (by simp [NodeMessage.task?])
  | ignored other _ ih => exact ih.assign [other]
  | @bounce c given said other reason detail hne _ ih =>
      by_cases ht : other = task
      · subst ht
        obtain ⟨blocks, hb, hsaid, hlen⟩ := ih
        have hc : (some c : Option TaskId) ≠ some other := by simpa using hne
        rw [if_neg hc] at hsaid hlen
        refine ⟨blocks ++ [[.taskFinished other (.failed reason detail)]], ?_, ?_, ?_⟩
        · intro b hmem
          rcases List.mem_append.mp hmem with hmem | hmem
          · exact hb b hmem
          · exact List.mem_singleton.mp hmem ▸ .bounced reason detail
        · simpa [hsaid, hne] using about_same rfl
        · rw [if_neg hc, List.count_append, List.count_singleton_self, List.length_append]
          exact Nat.add_le_add_right hlen 1
      · exact (ih.assign [other]).other (by simpa [NodeMessage.task?] using ht)
  | @start given said other _ ih =>
      by_cases ht : other = task
      · subst ht
        obtain ⟨blocks, hb, hsaid, hlen⟩ := ih
        refine ⟨blocks, hb, by simpa [hsaid] using about_same rfl, ?_⟩
        rw [if_pos rfl, List.count_append, List.count_singleton_self]
        exact Nat.add_le_add_right hlen 1
      · have hother := (ih.assign [other]).other (m := .taskStarted other)
          (by simpa [NodeMessage.task?] using ht)
        exact hother.move (by simp) (by simpa using ht)
  | @finish other given said outcome _ ih =>
      by_cases ht : other = task
      · subst ht
        exact ih.close (.run outcome) (about_same rfl)
      · have hother := ih.other (m := .taskFinished other outcome)
          (by simpa [NodeMessage.task?] using ht)
        exact hother.move (by simpa using ht) (by simp)
  | @produce other given said artifact output _ ih =>
      by_cases ht : other = task
      · subst ht
        rw [List.append_assoc]
        exact ih.close (.produced artifact output) (by simp [about, NodeMessage.task?])
      · have hartifact := ih.other (m := .taskProduced other artifact)
          (by simpa [NodeMessage.task?] using ht)
        have hother := hartifact.other (m := .taskFinished other (.completed output))
          (by simpa [NodeMessage.task?] using ht)
        exact hother.move (by simpa using ht) (by simp)

/-- A message that is not an artifact keeps every artifact next to its completion. -/
theorem adjacent_append {m : NodeMessage} (hm : ∀ task artifact, m ≠ .taskProduced task artifact)
    (h : ∀ pre task artifact, pre ++ [.taskProduced task artifact] <+: said →
      ∃ output, pre ++ [.taskProduced task artifact] ++ [.taskFinished task (.completed output)] <+: said)
    (pre : List NodeMessage) (artifact : Artifact)
    (hpre : pre ++ [.taskProduced task artifact] <+: said ++ [m]) :
    ∃ output, pre ++ [.taskProduced task artifact] ++ [.taskFinished task (.completed output)] <+:
      said ++ [m] := by
  rcases List.prefix_concat_iff.mp hpre with heq | hpre
  · exact absurd (List.append_inj_right' heq rfl) (by simpa using (hm task artifact).symm)
  · obtain ⟨output, hnext⟩ := h pre task artifact hpre
    exact ⟨output, hnext.trans (List.prefix_append ..)⟩

theorem Told.adjacent (h : Told o given said) : ∀ pre task artifact,
    pre ++ [.taskProduced task artifact] <+: said →
    ∃ output, pre ++ [.taskProduced task artifact] ++ [.taskFinished task (.completed output)] <+: said := by
  induction h with
  | nil => simp
  | ignored _ _ ih => exact ih
  | beat _ _ ih => exact fun pre _ artifact => adjacent_append (by simp) ih pre artifact
  | bounce _ _ _ _ ih => exact fun pre _ artifact => adjacent_append (by simp) ih pre artifact
  | start _ _ ih => exact fun pre _ artifact => adjacent_append (by simp) ih pre artifact
  | finish _ _ ih => exact fun pre _ artifact => adjacent_append (by simp) ih pre artifact
  | @produce other given said artifact output _ ih =>
      intro pre task bytes hpre
      rcases List.prefix_concat_iff.mp hpre with heq | hpre
      · exact absurd (List.append_inj_right' heq rfl) (by simp)
      · rcases List.prefix_concat_iff.mp hpre with heq | hpre
        · obtain ⟨rfl, hlast⟩ := List.append_inj' heq rfl
          cases hlast
          exact ⟨output, List.prefix_refl _⟩
        · obtain ⟨next, hnext⟩ := ih pre task bytes hpre
          exact ⟨next, hnext.trans ((List.prefix_append ..).trans (List.prefix_append ..))⟩

theorem Closed.append {m : NodeMessage} (h : Closed task said) (hm : m ≠ .taskStarted task) :
    Closed task (said ++ [m]) := by
  intro pre mid heq
  rcases List.eq_nil_or_concat mid with rfl | ⟨mid, last, rfl⟩
  · exact absurd (List.append_inj_right' heq rfl) (by simpa using hm)
  · rw [List.concat_eq_append, ← List.cons_append, ← List.append_assoc] at heq
    obtain ⟨hsaid, -⟩ := List.append_inj' heq rfl
    obtain ⟨outcome, hmem⟩ := h pre mid hsaid
    exact ⟨outcome, by simp [hmem]⟩

theorem closed_finished (said : List NodeMessage) (task : TaskId) (outcome : TaskOutcome) :
    Closed task (said ++ [.taskFinished task outcome]) := by
  intro pre mid heq
  rcases List.eq_nil_or_concat mid with rfl | ⟨mid, last, rfl⟩
  · exact absurd (List.append_inj_right' heq rfl) (by simp)
  · rw [List.concat_eq_append, ← List.cons_append, ← List.append_assoc] at heq
    obtain ⟨-, hlast⟩ := List.append_inj' heq rfl
    cases hlast
    exact ⟨outcome, by simp⟩

theorem Told.closed (h : Told o given said) : ∀ task, o ≠ some task → Closed task said := by
  induction h with
  | nil =>
      intro task _ pre mid heq
      simp at heq
  | beat _ _ ih => exact fun task ho => (ih task ho).append (by simp)
  | ignored _ _ ih => exact ih
  | bounce _ _ _ _ ih => exact fun task ho => (ih task ho).append (by simp)
  | start other _ ih =>
      intro task ho
      exact (ih task (by simp)).append (by simpa using ho)
  | @finish other given said outcome _ ih =>
      intro task _
      by_cases ht : other = task
      · exact ht ▸ closed_finished said other outcome
      · exact (ih task (by simpa using ht)).append (by simp)
  | @produce other given said artifact output _ ih =>
      intro task _
      by_cases ht : other = task
      · exact ht ▸ closed_finished _ other _
      · exact ((ih task (by simpa using ht)).append (by simp)).append (by simp)

/-- A message that does not start a task keeps the tasks apart. -/
theorem apart_append {m : NodeMessage} (hm : ∀ task, m ≠ .taskStarted task)
    (h : ∀ pre task, pre ++ [.taskStarted task] <+: said → ∀ other, Closed other pre)
    (pre : List NodeMessage) (hpre : pre ++ [.taskStarted task] <+: said ++ [m]) (other : TaskId) :
    Closed other pre := by
  rcases List.prefix_concat_iff.mp hpre with heq | hpre
  · exact absurd (List.append_inj_right' heq rfl) (by simpa using (hm task).symm)
  · exact h pre task hpre other

theorem Told.apart (h : Told o given said) :
    ∀ pre task, pre ++ [.taskStarted task] <+: said → ∀ other, Closed other pre := by
  induction h with
  | nil => simp
  | ignored _ _ ih => exact ih
  | beat _ _ ih => exact fun pre _ => apart_append (by simp) ih pre
  | bounce _ _ _ _ ih => exact fun pre _ => apart_append (by simp) ih pre
  | finish _ _ ih => exact fun pre _ => apart_append (by simp) ih pre
  | produce _ _ _ ih =>
      exact fun pre _ => apart_append (by simp) (fun pre _ => apart_append (by simp) ih pre) pre
  | @start given said next hold ih =>
      intro pre task hpre other
      rcases List.prefix_concat_iff.mp hpre with heq | hpre
      · obtain ⟨rfl, -⟩ := List.append_inj' heq rfl
        exact hold.closed other (by simp)
      · exact ih pre task hpre other

end Shape

/-! ## Reporting -/

/-- Whatever a worker is told and whenever it is polled, it reports its tasks in blocks. -/
theorem reports_in_blocks (id : Option NodeId) (capabilities : NodeCapabilities) (interval : Nat)
    (token : Option String) (workload : Option Workload) (calls : List AgentCall) :
    ReportsInBlocks (calls.filterMap AgentCall.assigned?)
      ({ Agent.new id capabilities interval with token, workload }.converse calls).1 := by
  have htold := converse_told (a := { Agent.new id capabilities interval with token, workload })
    calls (show Told none [] [] from .nil)
  exact ⟨fun task => (htold.split task).inBlocks, htold.adjacent, htold.apart⟩

/-! ## Before the welcome -/

end Agent

/-- The supervisor's greeting. -/
def AgentCall.isWelcome : AgentCall → Bool
  | .handle (.welcome _ _ _) _ => true
  | _ => false

/-- The calls before the first greeting. -/
def AgentCall.unwelcomed (calls : List AgentCall) : List AgentCall :=
  calls.takeWhile fun c => !c.isWelcome

namespace Agent

variable {a : Agent} {calls : List AgentCall}

/-- Nothing is sent and no task is accepted before the first greeting. -/
def SilentUntilWelcome (a : Agent) (calls : List AgentCall) : Prop :=
  ∀ pre, pre <+: AgentCall.unwelcomed calls →
    (a.converse pre).1 = [] ∧ (a.converse pre).2.running = none

/-- A worker that has neither been greeted nor accepted a task. -/
structure Unjoined (a : Agent) (id : Option NodeId) : Prop where
  id : a.id = id
  joined : a.joined = false
  running : a.running = none

theorem poll_unjoined {id : Option NodeId} (h : a.Unjoined id) (now : Millis) :
    sends (a.poll now).1 = [] ∧ (a.poll now).2.Unjoined id := by
  have hadv : { a with running := a.running.map Running.advanced } = a := by
    cases a
    cases h.running
    rfl
  have hfinish : a.finish now = ([], a) := by simp [finish, h.running]
  have hbeat : a.beat now = ([], a) := by
    unfold beat
    split <;> simp [h.joined]
  simp only [poll, hadv, hfinish, hbeat, sends_append, sends_wakeIn, sends_nil, List.append_nil,
    true_and]
  exact h

/-- Nothing but an assignment to a worker that has an id, or a greeting, makes it speak. -/
theorem call_unjoined {id : Option NodeId} (h : a.Unjoined id) {c : AgentCall}
    (hw : c.isWelcome = false) (hassign : id = none ∨ c.assigned? = none) :
    sends (a.call c).1 = [] ∧ (a.call c).2.Unjoined id := by
  cases c with
  | setFreeMemory bytes => exact ⟨rfl, h.id, h.joined, h.running⟩
  | poll now => exact poll_unjoined h now
  | handle message now =>
      cases message with
      | welcome => simp [AgentCall.isWelcome] at hw
      | rejected | shutdown => exact ⟨rfl, h⟩
      | pauseHeartbeat | injectFailures | setDelay =>
          apply poll_unjoined
          exact ⟨h.id, h.joined, h.running⟩
      | assign task wire =>
          rcases hassign with rfl | hnone
          · simp only [call, handle, accept, h.id, sends_nil, true_and]
            exact h
          · simp [AgentCall.assigned?] at hnone

theorem converse_unjoined {id : Option NodeId} (h : a.Unjoined id)
    (hw : ∀ c ∈ calls, c.isWelcome = false)
    (hassign : id = none ∨ ∀ c ∈ calls, c.assigned? = none) :
    (a.converse calls).1 = [] ∧ (a.converse calls).2.Unjoined id := by
  induction calls generalizing a with
  | nil => exact ⟨rfl, h⟩
  | cons c calls ih =>
      have hc := call_unjoined h (hw c (by simp)) (hassign.imp_right fun hall => hall c (by simp))
      have hrest := ih hc.2 (fun c hc => hw c (by simp [hc]))
        (hassign.imp_right fun hall c hc => hall c (by simp [hc]))
      exact ⟨by simp [converse, hc.1, hrest.1], hrest.2⟩

/-- A worker that has an id answers an assignment, greeted or not. -/
theorem assigned_unjoined {n : NodeId} (h : a.Unjoined (some n)) {c : AgentCall} {task : TaskId}
    (hc : c.assigned? = some task) : sends (a.call c).1 ≠ [] := by
  cases c with
  | poll | setFreeMemory => simp [AgentCall.assigned?] at hc
  | handle message now =>
      cases message with
      | assign task wire =>
          simp only [call, handle, accept, h.id, h.running]
          split
          · simp
          · split <;> simp
      | _ => simp [AgentCall.assigned?] at hc

theorem converse_assigned {n : NodeId} (h : a.Unjoined (some n))
    (hw : ∀ c ∈ calls, c.isWelcome = false) (hassign : ∃ c ∈ calls, c.assigned? ≠ none) :
    (a.converse calls).1 ≠ [] := by
  induction calls generalizing a with
  | nil => simp at hassign
  | cons c calls ih =>
      simp only [converse, ne_eq, List.append_eq_nil_iff, not_and]
      intro hnil
      cases hc : c.assigned? with
      | some task => exact absurd hnil (assigned_unjoined h hc)
      | none =>
          obtain ⟨d, hd, hne⟩ := hassign
          rcases List.mem_cons.mp hd with rfl | hd
          · exact absurd hc hne
          · have hnext := (call_unjoined h (hw c (by simp)) (.inr hc)).2
            exact ih hnext (fun c hc => hw c (by simp [hc])) ⟨d, hd, hne⟩

/-- A worker is silent until it is greeted exactly when it started anonymous or is assigned nothing
before the greeting. -/
theorem silent_until_welcome_iff (id : Option NodeId) (capabilities : NodeCapabilities)
    (interval : Nat) (token : Option String) (workload : Option Workload) (calls : List AgentCall) :
    { Agent.new id capabilities interval with token, workload }.SilentUntilWelcome calls ↔
      id = none ∨ ∀ c ∈ AgentCall.unwelcomed calls, c.assigned? = none := by
  have hnew : { Agent.new id capabilities interval with token, workload }.Unjoined id :=
    ⟨rfl, rfl, rfl⟩
  have hw : ∀ c ∈ AgentCall.unwelcomed calls, c.isWelcome = false := by
    intro c hc
    simpa using List.mem_takeWhile_imp hc
  constructor
  · intro hsilent
    cases id with
    | none => exact .inl rfl
    | some n =>
        right
        by_contra hassign
        simp only [not_forall] at hassign
        obtain ⟨c, hc, hne⟩ := hassign
        exact converse_assigned hnew hw ⟨c, hc, hne⟩ (hsilent _ (List.prefix_refl _)).1
  · intro hassign pre hpre
    have hpre' := converse_unjoined hnew (fun c hc => hw c (hpre.subset hc))
      (hassign.imp_right fun hall c hc => hall c (hpre.subset hc))
    exact ⟨hpre'.1, hpre'.2.running⟩

/-- A worker with an id of its own is assigned a task before it is greeted. -/
theorem speaks_before_welcome :
    ¬ (Agent.withId 5 ⟨4, 8⟩ 1000).SilentUntilWelcome [.handle (.assign 1 (.sleep 0)) 0] := by
  intro h
  exact absurd (h _ (List.prefix_refl _)).1 (by decide)

end Agent

end Gavel.Cluster
