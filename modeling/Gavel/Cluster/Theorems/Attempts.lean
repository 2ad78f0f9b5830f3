import Gavel.Cluster.Theorems.Accounting

/-!
# Attempt accounting

A task's attempt number is raised when it is assigned; a failed attempt is recorded when it fails. The
two stay in step as long as no assignment is refused: a refused one raises the number and records
nothing.
-/

namespace Gavel.Cluster

/-- An attempt is under way or was the last. -/
def TaskState.inAttempt : TaskState → Bool
  | .assigned | .running | .completed => true
  | .queued | .failed => false

/-- The number of the failed attempt an operation records for a task. -/
def DurableOp.failureOf (id : TaskId) : DurableOp → Option Nat
  | .queued (.failure a) => if a.taskId = id then some a.attempt else none
  | _ => none

/-- The failed attempts among some operations, by number. -/
def failuresIn (id : TaskId) (ops : List DurableOp) : List Nat :=
  ops.filterMap (DurableOp.failureOf id)

/-- A task agrees with its recorded failures, under a limit on the attempts. -/
structure Attempted (limit : Nat) (failures : List Nat) (t : Task) : Prop where
  numbers : failures = List.range' 1 failures.length
  attempt : t.attempt = failures.length + if t.state.inAttempt then 1 else 0
  bound : if t.state = .failed then failures.length = max limit 1 else failures.length < max limit 1

namespace Attempted

variable {limit : Nat} {failures : List Nat} {t t' : Task}

theorem congr (h : Attempted limit failures t) (ha : t'.attempt = t.attempt)
    (hin : t'.state.inAttempt = t.state.inAttempt) (hf : t'.state = .failed ↔ t.state = .failed) :
    Attempted limit failures t' where
  numbers := h.numbers
  attempt := by rw [ha, hin]; exact h.attempt
  bound := by
    have hb := h.bound
    by_cases hs : t.state = .failed
    · rw [if_pos hs] at hb; rw [if_pos (hf.mpr hs)]; exact hb
    · rw [if_neg hs] at hb; rw [if_neg (mt hf.mp hs)]; exact hb

theorem assigned (h : Attempted limit failures t) (hq : t.state = .queued) (hl : limit ≤ u16Max)
    (n : NodeId) (now : Millis) : Attempted limit failures (t.assignedOn n now) := by
  have ha := h.attempt
  have hb := h.bound
  simp only [hq, TaskState.inAttempt, reduceCtorEq, if_false] at ha hb
  refine ⟨h.numbers, ?_, hb⟩
  simp only [Task.assignedOn, TaskState.inAttempt, if_true, satSucc]
  unfold u16Max at hl ⊢
  omega

/-- The failed attempt is recorded under the current number. -/
theorem recorded (h : Attempted limit failures t) (hheld : t.state.isHeld = true) :
    failures ++ [t.attempt] = List.range' 1 (failures ++ [t.attempt]).length ∧
      t.attempt = (failures ++ [t.attempt]).length ∧ failures.length < max limit 1 := by
  have hin : t.state.inAttempt = true := by
    rcases TaskState.isHeld_iff.mp hheld with h | h <;> rw [h] <;> rfl
  have hnf : t.state ≠ .failed := by intro hf; rw [hf] at hheld; cases hheld
  have ha := h.attempt
  have hb := h.bound
  rw [hin, if_pos rfl] at ha
  rw [if_neg hnf] at hb
  refine ⟨?_, ?_, hb⟩
  · rw [List.length_append, List.length_singleton, List.range'_concat, ← h.numbers, ha]
    simp [Nat.add_comm]
  · simpa using ha

end Attempted

namespace Supervisor

variable {s s' : Supervisor} {now : Millis}

/-- The recorded failures of a task, by attempt number. -/
def failedAttempts (s : Supervisor) (id : TaskId) : List Nat := failuresIn id s.ops

/-! ## One step -/

structure Counted (s : Supervisor) : Prop where
  memory : ∀ (id : TaskId) t, s.tasks[id]? = some t →
    Attempted s.config.maxTaskAttempts.val (s.failedAttempts id) t
  ahead : ∀ id, s.taskSeq < id → s.failedAttempts id = []

theorem failedAttempts_append {ops : List DurableOp} (h : s'.ops = s.ops ++ ops) (id : TaskId) :
    s'.failedAttempts id = s.failedAttempts id ++ failuresIn id ops := by
  simp [failedAttempts, failuresIn, h]

@[simp] theorem failuresIn_startOps (id : TaskId) (j : Option Job) :
    failuresIn id (startOps j) = [] := by
  cases j with
  | none => rfl
  | some j => simp only [startOps]; split <;> rfl

@[simp] theorem failuresIn_updateOps (id : TaskId) (f : Job → Job) (j : Option Job) :
    failuresIn id (updateOps f j) = [] := by
  cases j <;> rfl

@[simp] theorem failuresIn_settleOps (id : TaskId) (a : JobId) (seq : Nat) (j : Option Job) :
    failuresIn id (settleOps now a seq j) = [] := by
  cases j with
  | none => rfl
  | some j => simp only [settleOps]; split <;> rfl

theorem failuresIn_append (id : TaskId) (a b : List DurableOp) :
    failuresIn id (a ++ b) = failuresIn id a ++ failuresIn id b := List.filterMap_append

theorem failuresIn_cons_other {id : TaskId} {o : DurableOp} {ops : List DurableOp}
    (h : o.failureOf id = none) : failuresIn id (o :: ops) = failuresIn id ops :=
  List.filterMap_cons_none h

namespace Counted

/-- No failure is recorded, and every row still agrees. -/
theorem update (h : s.Counted) {l : List DurableOp} (hops : s'.ops = s.ops ++ l)
    (hnone : ∀ id, failuresIn id l = []) (hconfig : s'.config = s.config)
    (htasks : ∀ (id : TaskId) t, s'.tasks[id]? = some t → ∃ t₀, s.tasks[id]? = some t₀ ∧
      ∀ fs, Attempted s.config.maxTaskAttempts.val fs t₀ →
        Attempted s.config.maxTaskAttempts.val fs t)
    (hseq : s.taskSeq ≤ s'.taskSeq) : s'.Counted where
  memory := by
    intro id t ht
    obtain ⟨t₀, ht₀, hkeep⟩ := htasks id t ht
    rw [failedAttempts_append hops, hnone, List.append_nil, hconfig]
    exact hkeep _ (h.memory id t₀ ht₀)
  ahead := by
    intro id hid
    rw [failedAttempts_append hops, hnone, List.append_nil]
    exact h.ahead id (Nat.lt_of_le_of_lt hseq hid)

theorem insert (h : s.Counted) {t₀ t : Task} {ops : List DurableOp} (hops : s'.ops = s.ops ++ ops)
    (hnone : ∀ id, failuresIn id ops = []) (hconfig : s'.config = s.config)
    (ht : s.tasks[t.id]? = some t₀) (htasks : s'.tasks = s.tasks.insert t.id t)
    (hkeep : ∀ fs, Attempted s.config.maxTaskAttempts.val fs t₀ →
      Attempted s.config.maxTaskAttempts.val fs t)
    (hseq : s'.taskSeq = s.taskSeq) : s'.Counted := by
  refine h.update hops hnone hconfig ?_ (Nat.le_of_eq hseq.symm)
  intro id u hu
  rw [htasks, Table.get_insert] at hu
  split at hu
  · subst id; cases hu; exact ⟨t₀, ht, hkeep⟩
  · exact ⟨u, hu, fun _ hu => hu⟩

theorem fail (h : s.Counted) (hn : s.Numbered) {t₀ t : Task} {ops : List DurableOp}
    (hops : s'.ops = s.ops ++ ops)
    (hfail : ∀ id, failuresIn id ops = if t.id = id then [t₀.attempt] else [])
    (hconfig : s'.config = s.config) (ht : s.tasks[t.id]? = some t₀)
    (htasks : s'.tasks = s.tasks.insert t.id t)
    (hkeep : ∀ fs, Attempted s.config.maxTaskAttempts.val fs t₀ →
      Attempted s.config.maxTaskAttempts.val (fs ++ [t₀.attempt]) t)
    (hseq : s'.taskSeq = s.taskSeq) : s'.Counted where
  memory := by
    intro id u hu
    rw [htasks, Table.get_insert] at hu
    rw [failedAttempts_append hops, hfail, hconfig]
    split at hu
    · subst id; cases hu
      rw [if_pos rfl]
      exact hkeep _ (h.memory _ t₀ ht)
    · rename_i hne
      rw [if_neg hne, List.append_nil]
      exact h.memory id u hu
  ahead := by
    intro id hid
    rw [hseq] at hid
    have hne : t.id ≠ id := by
      rintro rfl
      exact absurd (hn.task _ t₀ ht) (Nat.not_le.mpr hid)
    rw [failedAttempts_append hops, hfail, if_neg hne, List.append_nil]
    exact h.ahead id hid

end Counted

theorem Move.counted (hn : s.Numbered) (h : s.Counted) (hm : Move now s s') : s'.Counted := by
  have same (id : TaskId) (t : Task) (ht : s.tasks[id]? = some t) : ∃ t₀, s.tasks[id]? = some t₀ ∧
      ∀ fs, Attempted s.config.maxTaskAttempts.val fs t₀ →
        Attempted s.config.maxTaskAttempts.val fs t := ⟨t, ht, fun _ h => h⟩
  have hlimit : s.config.maxTaskAttempts.val ≤ u16Max := Nat.le_of_lt_succ s.config.maxTaskAttempts.isLt
  cases hm with
  | drop => exact h.update (l := []) (by simp [ops]) (fun _ => rfl) rfl same (Nat.le_refl _)
  | @place t rest n e c m hq ht hst =>
      have hf := place_frame s now rest (t.assignedOn n now) n c m
      refine h.insert (place_ops ..) ?_ hf.config (t := t.assignedOn n now) ht hf.tasks
        (fun fs hfs => hfs.assigned hst hlimit n now) hf.taskSeq
      intro id
      rw [List.cons_append, failuresIn_cons_other rfl, failuresIn_append, failuresIn_startOps]
      rfl
  | @start t n ht hst =>
      exact h.insert markStarted_ops (fun _ => rfl) rfl (t := t.startedAt now) ht rfl
        (fun fs hfs => hfs.congr rfl (by rw [hst]; rfl) (by simp [hst, Task.startedAt])) rfl
  | @complete t n output ht hst =>
      have hf := markCompleted_frame s now n (t.completedAt output now)
      refine h.insert markCompleted_ops ?_ hf.config (t := t.completedAt output now) ht hf.tasks
        (fun fs hfs => hfs.congr rfl (by rw [hst]; rfl) (by simp [hst, Task.completedAt])) hf.taskSeq
      intro id
      rw [failuresIn_cons_other rfl, failuresIn_cons_other rfl, failuresIn_append,
        failuresIn_updateOps, failuresIn_settleOps]
      rfl
  | @retry t n reason detail ht hheld hnode hlt =>
      have hf := retry_frame s now n t (t.requeuedAt now) reason detail
      have hops := putBack_ops (s := s.noteFailure now n t reason detail) now
        (t := t.requeuedAt now)
      rw [noteFailure_ops, List.append_assoc] at hops
      refine h.fail hn (t := t.requeuedAt now) hops ?_ hf.config ht hf.tasks ?_ hf.taskSeq
      · intro id
        by_cases hid : t.id = id <;>
          simp [failuresIn, List.filterMap_cons, DurableOp.failureOf, TaskAttempt.new,
            Task.requeuedAt, hid]
      · intro fs hfs
        obtain ⟨hnum, hatt, -⟩ := hfs.recorded hheld
        refine ⟨hnum, by simpa [Task.requeuedAt, TaskState.inAttempt] using hatt, ?_⟩
        simp only [Task.requeuedAt, reduceCtorEq, if_false, ← hatt]
        omega
  | @giveUp t n reason detail ht hheld hnode hge =>
      have hf := giveUp_frame s now n t (t.failedAt now) reason detail
      have hops := markFailed_ops (s := s.noteFailure now n t reason detail) now
        (t := t.failedAt now)
      rw [noteFailure_jobs, noteFailure_ops, List.append_assoc] at hops
      refine h.fail hn (t := t.failedAt now) hops ?_ hf.config ht hf.tasks ?_ hf.taskSeq
      · intro id
        rw [failuresIn_append, failuresIn_cons_other (o := .queued (.task _)) rfl,
          failuresIn_append, failuresIn_updateOps, failuresIn_settleOps]
        by_cases hid : t.id = id <;>
          simp [failuresIn, List.filterMap_cons, DurableOp.failureOf, TaskAttempt.new,
            Task.failedAt, hid]
      · intro fs hfs
        obtain ⟨hnum, hatt, hlt⟩ := hfs.recorded hheld
        refine ⟨hnum, by simpa [Task.failedAt, TaskState.inAttempt] using hatt, ?_⟩
        simp only [Task.failedAt, if_true, ← hatt]
        simp only [List.length_append, List.length_singleton] at hatt
        omega
  | reserveJob => exact h.update (issue_ops _) (fun _ => rfl) rfl same (Nat.le_refl _)
  | reserveTasks count =>
      exact h.update (issue_ops _) (fun _ => rfl) rfl same (Nat.le_add_right _ _)
  | enrol spec =>
      have hf := enrol_frame s now spec
      have hfs (id : TaskId) : (s.enrol now spec).failedAttempts id = s.failedAttempts id := by
        rw [failedAttempts_append (enrol_ops s now spec)]
        exact List.append_nil _
      refine ⟨?_, ?_⟩
      · intro id t ht
        rw [hf.tasks] at ht
        rw [hfs, hf.config]
        rcases Table.get_insertAll_some ht with ⟨hm, rfl⟩ | ⟨hold, _⟩
        · obtain ⟨i, sp, -, rfl⟩ := mem_newTasks hm
          have hnone : s.failedAttempts (s.taskSeq + 1 + i) = [] :=
            h.ahead _ (Nat.lt_add_right i (Nat.lt_succ_self _))
          change Attempted _ (s.failedAttempts (s.taskSeq + 1 + i)) _
          rw [hnone]
          refine ⟨rfl, rfl, ?_⟩
          simp [Task.new]
        · exact h.memory id t hold
      · intro id hid
        rw [hf.taskSeq] at hid
        rw [hfs]
        exact h.ahead id (Nat.lt_of_le_of_lt (Nat.le_add_right _ _) hid)
  | prune =>
      have hf := prune_frame s
      refine h.update (l := []) (by simp [ops, prune_journal]) (fun _ => rfl) hf.config ?_
        (Nat.le_of_eq hf.taskSeq.symm)
      intro id t ht
      rw [prune_tasks] at ht
      exact ⟨t, (Option.filter_eq_some_iff.mp ht).1, fun _ h => h⟩

theorem Quiet.counted (h : s.Counted) (hq : Quiet s s') : s'.Counted := by
  obtain ⟨ws, hws, hj⟩ := hq.journal
  refine h.update (l := ws.map .queued) (by simp [ops, hj]) ?_ hq.config ?_
    (Nat.le_of_eq hq.taskSeq.symm)
  · intro id
    refine List.filterMap_eq_nil_iff.mpr ?_
    intro op hop
    obtain ⟨w, hw, rfl⟩ := List.mem_map.mp hop
    have hquiet := hws w hw
    cases w with
    | failure a => cases hquiet
    | _ => rfl
  · rw [hq.tasks]
    exact fun id t ht => ⟨t, ht, fun _ h => h⟩

/-! ## Every run -/

/-- A task's attempt number against its recorded failures. -/
structure AttemptsMatch (s : Supervisor) (t : Task) : Prop where
  count : t.attempt = (s.failedAttempts t.id).length + if t.state.inAttempt then 1 else 0
  numbers : s.failedAttempts t.id = List.range' 1 (s.failedAttempts t.id).length
  last : 1 ≤ s.config.maxTaskAttempts.val → (t.state = .failed ↔
    (s.failedAttempts t.id).length = s.config.maxTaskAttempts.val)

theorem Counted.attemptsMatch (h : s.Counted) (hw : s.Wf) {id : TaskId} {t : Task}
    (ht : s.tasks[id]? = some t) : s.AttemptsMatch t := by
  have ha := h.memory id t ht
  rw [← hw.taskKey id t ht] at ha
  refine ⟨ha.attempt, ha.numbers, ?_⟩
  intro hmax
  have hb := ha.bound
  rw [Nat.max_eq_left hmax] at hb
  by_cases hs : t.state = .failed
  · rw [if_pos hs] at hb; exact ⟨fun _ => hb, fun _ => hs⟩
  · rw [if_neg hs] at hb
    exact ⟨fun h => absurd h hs, fun h => absurd h (Nat.ne_of_lt hb)⟩

theorem Smooths.counted (ha : s.Accounts) (h : s.Counted) (hs : Smooths now s s') :
    s'.Accounts ∧ s'.Counted := by
  induction hs with
  | refl => exact ⟨ha, h⟩
  | tail _ hstep ih =>
      refine ⟨(Change.accounts ih.1 (.smooth hstep)).1, ?_⟩
      rcases hstep with hm | hq
      · exact hm.counted ih.1.numbered ih.2
      · exact hq.counted ih.2

/-- A refused assignment raises the attempt number of a task that failed nowhere. -/
theorem Bounce.miscounted (h : s.Counted) (hb : Bounce now s s') :
    ∃ (id : TaskId) (t : Task), s'.tasks[id]? = some t ∧ t.state.isTerminal = false ∧
      ¬ s'.AttemptsMatch t := by
  cases hb with
  | @intro t rest n e c hq ht hst =>
      refine ⟨t.id, (t.assignedOn n now).requeuedAt now, Table.get_insert_self, rfl, ?_⟩
      intro hmatch
      have hc := hmatch.count
      have ha := h.memory t.id t ht
      have hbound := ha.bound
      have hattempt := ha.attempt
      have hlimit := s.config.maxTaskAttempts.isLt
      rw [failedAttempts_append (bounce_ops rest)] at hc
      simp only [hst, TaskState.inAttempt, reduceCtorEq, if_false] at hbound hattempt
      have hnone : failuresIn t.id [.saveTask ((t.assignedOn n now).requeuedAt now)] = [] := rfl
      simp only [Task.requeuedAt, Task.assignedOn, TaskState.inAttempt, if_false, Nat.add_zero,
        Bool.false_eq_true] at hc
      change satSucc t.attempt = (s.failedAttempts t.id ++ []).length at hc
      simp only [List.append_nil, satSucc, u16Max] at hc
      omega

theorem prune_keeps_open (hw : s.Wf) (hl : Ledger s.jobs s.tasks) {id : TaskId} {t : Task}
    (ht : s.tasks[id]? = some t) (hopen : t.state.isTerminal = false) :
    s.pruneMemory.tasks[id]? = some t := by
  rw [prune_tasks, ht]
  refine Option.filter_eq_some_iff.mpr ⟨rfl, ?_⟩
  simp only [List.contains_eq_mem, Bool.not_eq_true', decide_eq_false_iff_not]
  intro hm
  obtain ⟨k, j, hj, hid, hterm⟩ := removable_terminal hm
  rw [hw.jobKey k j hj] at hid
  subst hid
  rw [(hl.balanced _ j hj).open_not_terminal ht rfl hopen] at hterm
  cases hterm

variable (config : LocalClusterConfig) (scheduler : Scheduler) (elector : Elector)

theorem bootstrap_empty_counted : (bootstrap config scheduler elector .empty now).Counted := by
  obtain ⟨-, ht, -, ho⟩ := loadedState_empty now config scheduler elector
  have hregistered : (registered config scheduler elector .empty now).Counted := by
    refine ⟨?_, fun id _ => rfl⟩
    intro id t ht
    simp [registered, new] at ht
  have hlaunched := (launched_quiet config scheduler elector .empty now).counted hregistered
  have hloaded : (loadedState config scheduler elector .empty now).Counted := by
    refine ⟨by simp [ht], ?_⟩
    intro id hid
    rw [(loadedState_fields _ config scheduler elector .empty).1.taskSeq] at hid
    have hnone := hlaunched.ahead id hid
    simpa [failedAttempts, ho] using hnone
  exact (Quiet.refreshLeadership _ now).counted hloaded

/-- Over an empty store, every task of every state of a run agrees with its recorded failures exactly
when no step of the run has an assignment refused. -/
theorem attempts_match_iff (boot : Millis) (turns : List Turn) :
    (∀ s ∈ session config scheduler elector .empty boot turns,
      ∀ (id : TaskId) t, s.tasks[id]? = some t → s.AttemptsMatch t) ↔
    Run.AllSteps step (fun s turn => s.accepted turn.1 turn.2 = true)
      (bootstrap config scheduler elector .empty boot) turns := by
  refine Run.forall_visited_iff (I := fun s => s.Wf ∧ s.Accounts ∧ s.Counted) ?_ ?_ ?_
    ⟨bootstrap_empty_wf .., bootstrap_empty_accounts .., bootstrap_empty_counted ..⟩
  · rintro s ⟨hw, -, hc⟩ id t ht
    exact hc.attemptsMatch hw ht
  · rintro s ⟨now, i⟩ ⟨hw, ha, hc⟩ hok
    exact ⟨handle_wf _ hw i, Smooths.counted ha hc (handle_smooths hw hok)⟩
  · rintro s ⟨now, i⟩ ⟨hw, ha, hc⟩ hno hall
    cases hd : s.atDispatch now i with
    | none => simp [accepted, hd] at hno
    | some d =>
        have hr : d.refusal now = true := by simpa [accepted, hd] using hno
        obtain ⟨hsmooth, hwd⟩ := atDispatch_evolves hd hw
        have hsteps := dispatch_steps now hwd
        rw [hr] at hsteps
        obtain ⟨b, hmoves, hb⟩ := hsteps
        have hwb := hmoves.wf hwd
        obtain ⟨hab, hcb⟩ := Smooths.counted ha hc (hsmooth.trans hmoves.smooths)
        obtain ⟨id, t, ht, hopen, hbad⟩ := hb.miscounted hcb
        rcases handle_after_dispatch hd with heq | heq
        · have hmatch := hall id t (by rw [step, heq]; exact ht)
          rw [step, heq] at hmatch
          exact hbad hmatch
        · have hkept := prune_keeps_open (hb.wf hwb) (hb.ledger hab.ledger) ht hopen
          have hmatch := hall id t (by rw [step, heq]; exact hkept)
          rw [step, heq] at hmatch
          refine hbad ⟨?_, ?_, ?_⟩
          · simpa [failedAttempts, ops, prune_journal] using hmatch.count
          · simpa [failedAttempts, ops, prune_journal] using hmatch.numbers
          · simpa [failedAttempts, ops, prune_journal, (prune_frame _).config] using hmatch.last

/-- A worker whose connection has ended but is not detached yet: its inbox is closed, so the first
assignment bounces and the task stands at attempt 1 with no failure recorded. -/
def closedInboxTurns : List Turn :=
  [(0, .attachRemote (some 5) ⟨4, 8⟩), (1, .close 0), (2, .submitJob (.sleep 100 1) none)]

set_option maxRecDepth 10000 in
theorem attempts_mismatch_closed_inbox :
    ¬ ∀ s ∈ session (.oneWorker 5 ⟨4, 8⟩) leastLoaded lowestHealthyId .empty 0 closedInboxTurns,
      ∀ (id : TaskId) t, s.tasks[id]? = some t → s.AttemptsMatch t := by
  intro h
  have hlast := h _ (Run.final_mem_visited _ closedInboxTurns) 1
  have hrow : ∃ t ∈ (Run.final step (bootstrap (.oneWorker 5 ⟨4, 8⟩) leastLoaded lowestHealthyId
      .empty 0) closedInboxTurns).tasks[1]?, t.id = 1 ∧ t.attempt = 1 ∧ t.state = .queued := by
    decide
  have hnone : (Run.final step (bootstrap (.oneWorker 5 ⟨4, 8⟩) leastLoaded lowestHealthyId .empty 0)
      closedInboxTurns).failedAttempts 1 = [] := by decide
  obtain ⟨t, ht, hid, hattempt, hstate⟩ := hrow
  have hcount := (hlast t ht).count
  rw [hid, hnone, hattempt, hstate] at hcount
  cases hcount

end Supervisor

end Gavel.Cluster
