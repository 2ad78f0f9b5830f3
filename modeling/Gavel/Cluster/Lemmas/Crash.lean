import Gavel.Cluster.Lemmas.Mirror
import Mathlib.Data.List.Induction

/-!
# Between two writes

The end of a task is written in up to three steps: the task, the counters of its job, and the end of the job
if that was its last task. `Stage` says how far the writes about a job have got, and a job is `Behind` when
a process stopped in between.
-/

namespace Gavel.Cluster

variable {st : Store} {t t₀ : Task} {j j₀ : Job} {id : JobId} {ops : List DurableOp}

/-! ## Stages -/

/-- How far the writes about a job have got. -/
inductive Stage where
  | whole
  /-- A task has ended and its job has not counted it. -/
  | uncounted
  /-- Every task is counted and the job has not ended. -/
  | unsettled
  deriving DecidableEq, Repr

def Job.counted (j : Job) : Nat := j.tasksCompleted + j.tasksFailed

/-- The counters cover every task of a job that has not ended. -/
def Job.isOverdue (j : Job) : Bool := decide (j.taskCount ≤ j.counted) && !j.state.isTerminal

/-- What an operation does to the stage of the job. -/
def Stage.next (id : JobId) (p : Stage) : DurableOp → Stage
  | .queued (.task t) => if t.jobId = id ∧ t.state.isTerminal = true then .uncounted else p
  | .queued (.job j) => if j.id = id then (if j.isOverdue then .unsettled else .whole) else p
  | _ => p

def advance (ph : JobId → Stage) (op : DurableOp) : JobId → Stage := fun id => (ph id).next id op

/-- The stage of every job after a process has written this much. -/
def stages (ops : List DurableOp) : JobId → Stage := ops.foldl advance fun _ => .whole

theorem stages_concat (ops : List DurableOp) (op : DurableOp) :
    stages (ops ++ [op]) = advance (stages ops) op := by
  simp [stages]

/-- The operation is neither the end of a task nor about a job. -/
def DurableOp.isMild : DurableOp → Bool
  | .queued (.job _) => false
  | .queued (.task t) => !t.state.isTerminal
  | _ => true

theorem DurableOp.isMild_aside {w : Write} (h : w.isAside = true) : (DurableOp.queued w).isMild = true := by
  cases w <;> first | rfl | cases h

theorem advance_mild {op : DurableOp} (h : op.isMild = true) (ph : JobId → Stage) : advance ph op = ph := by
  funext id
  cases op with
  | queued w =>
      cases w with
      | task t =>
          simp only [DurableOp.isMild, Bool.not_eq_true'] at h
          simp [advance, Stage.next, h]
      | job j => cases h
      | _ => rfl
  | _ => rfl

/-! ## Writes in order -/

/-- A task ends when its job owes nothing. A job is started, then counts one task that has ended, then
ends. -/
def InOrder (st : Store) (ph : JobId → Stage) : DurableOp → Prop
  | .queued (.task t) => t.state.isTerminal = true → ph t.jobId = .whole
  | .queued (.job j) => ∀ j₀, st.jobs[j.id]? = some j₀ →
      match ph j.id with
      | .whole => j.counted = j₀.counted ∧ j.counted < j.taskCount ∧ j.state.isTerminal = false
      | .uncounted => j.counted = j₀.counted + 1 ∧ j.state = j₀.state
      | .unsettled => j.counted = j₀.counted ∧ j.state.isTerminal = true
  | _ => True

def Orderly (st : Store) (ph : JobId → Stage) : List DurableOp → Prop
  | [] => True
  | op :: ops => InOrder st ph op ∧ Orderly (st.perform op) (advance ph op) ops

theorem orderly_append {st : Store} {ph : JobId → Stage} {a b : List DurableOp} :
    Orderly st ph (a ++ b) ↔ Orderly st ph a ∧ Orderly (st.replay a) (a.foldl advance ph) b := by
  induction a generalizing st ph with
  | nil => simp [Orderly, Store.replay]
  | cons op a ih =>
      simp only [List.cons_append, Orderly, ih, and_assoc]
      rfl

theorem InOrder.mild {op : DurableOp} (h : op.isMild = true) (st : Store) (ph : JobId → Stage) :
    InOrder st ph op := by
  cases op with
  | queued w =>
      cases w with
      | task t =>
          simp only [DurableOp.isMild, Bool.not_eq_true'] at h
          intro ht
          rw [h] at ht
          cases ht
      | job j => cases h
      | _ => trivial
  | _ => trivial

theorem foldl_mild (h : ∀ op ∈ ops, op.isMild = true) (ph : JobId → Stage) : ops.foldl advance ph = ph := by
  induction ops with
  | nil => rfl
  | cons op ops ih =>
      rw [List.foldl_cons, advance_mild (h op List.mem_cons_self)]
      exact ih fun o ho => h o (List.mem_cons_of_mem _ ho)

theorem Orderly.mild {ph : JobId → Stage} (h : ∀ op ∈ ops, op.isMild = true) : Orderly st ph ops := by
  induction ops generalizing st with
  | nil => trivial
  | cons op ops ih =>
      have hop := h op List.mem_cons_self
      refine ⟨.mild hop _ _, ?_⟩
      rw [advance_mild hop]
      exact ih fun o ho => h o (List.mem_cons_of_mem _ ho)

/-- The operations are in order and leave every job whole. -/
structure Passes (st : Store) (ops : List DurableOp) : Prop where
  orderly : Orderly st (fun _ => .whole) ops
  whole : stages ops = fun _ => .whole

namespace Passes

theorem nil (st : Store) : Passes st [] := ⟨trivial, rfl⟩

theorem append {a b : List DurableOp} (ha : Passes st a) (hb : Passes (st.replay a) b) :
    Passes st (a ++ b) := by
  have hwhole : a.foldl advance (fun _ => .whole) = fun _ => Stage.whole := ha.whole
  refine ⟨orderly_append.mpr ⟨ha.orderly, ?_⟩, ?_⟩
  · rw [hwhole]; exact hb.orderly
  · rw [stages, List.foldl_append, hwhole]; exact hb.whole

theorem mild (h : ∀ op ∈ ops, op.isMild = true) : Passes st ops := ⟨.mild h, foldl_mild h _⟩

theorem start (hj : st.jobs[j.id]? = some j) (hlt : j.counted < j.taskCount) :
    Passes st [.queued (.job j.startedAt)] := by
  have hover : j.startedAt.isOverdue = false := by
    have hnot : ¬ j.startedAt.taskCount ≤ j.startedAt.counted := Nat.not_le.mpr hlt
    simp [Job.isOverdue, hnot]
  refine ⟨⟨?_, trivial⟩, ?_⟩
  · intro j₀ hj₀
    change st.jobs[j.id]? = some j₀ at hj₀
    rw [hj] at hj₀
    cases hj₀
    exact ⟨rfl, hlt, rfl⟩
  · funext id
    simp [stages, advance, Stage.next, hover]

/-- The job counts a task that has ended, and ends if it was the last one. -/
theorem count (now : Millis) (seq : Nat) (hj : st.jobs[j.id]? = some j₀) (ho : j.SameOrigin j₀)
    (hcount : j.counted = j₀.counted + 1) (hrun : j.state = .running) (hrun₀ : j₀.state = .running) :
    let ph := Function.update (fun _ => Stage.whole) j.id .uncounted
    let ops := .queued (.job j) :: Supervisor.settleOps now j.id seq (some j)
    Orderly st ph ops ∧ ops.foldl advance ph = fun _ => .whole := by
  intro ph ops
  have hfirst : InOrder st ph (.queued (.job j)) := by
    intro j' hj'
    rw [hj] at hj'
    cases hj'
    simp only [ph, Function.update_self]
    exact ⟨hcount, hrun.trans hrun₀.symm⟩
  have hother (id : JobId) (hid : j.id ≠ id) : ph id = .whole :=
    Function.update_of_ne (Ne.symm hid) _ _
  by_cases hs : j.settles = true
  · -- The counters cover every task, so the next write ends the job.
    have hover : j.isOverdue = true := by
      simp only [Job.settles, Bool.and_eq_true, decide_eq_true_eq] at hs
      simp [Job.isOverdue, Job.counted, hs.1, hrun, JobState.isTerminal]
    have hterm : (j.settledAt now).state.isTerminal = true := j.verdict_terminal
    have hops : ops = [.queued (.job j), .queued (.job (j.settledAt now)),
        .queued (.event ⟨seq + 1, now, Supervisor.settledEvent j.id j⟩)] := by
      simp [ops, Supervisor.settleOps, hs]
    rw [hops]
    refine ⟨⟨hfirst, ?_, trivial, trivial⟩, ?_⟩
    · intro j' hj'
      have hrow := (Store.get_saveJob hj ho j.id).trans (if_pos rfl)
      change (st.saveJob j).jobs[j.id]? = some j' at hj'
      rw [hrow] at hj'
      cases hj'
      have hstage : advance ph (.queued (.job j)) (j.settledAt now).id = .unsettled := by
        simp [advance, Stage.next, hover, Job.settledAt]
      rw [hstage]
      exact ⟨rfl, hterm⟩
    · funext id
      simp only [List.foldl_cons, List.foldl_nil, advance, Stage.next]
      by_cases hid : j.id = id
      · simp [Job.settledAt, hid, Job.isOverdue, Job.verdict_terminal]
      · simp [Job.settledAt, hid, hother id hid]
  · have hover : j.isOverdue = false := by
      have htr : j.state.canTransitionTo j.verdict = true := by
        rw [hrun]
        rcases j.verdict_cases with h | h <;> rw [h] <;> rfl
      have hlt : ¬ j.taskCount ≤ j.counted := fun hle =>
        hs (by simp only [Job.settles, htr, Bool.and_true, decide_eq_true_eq]; exact hle)
      simp [Job.isOverdue, hlt]
    have hops : ops = [.queued (.job j)] := by
      simp [ops, Supervisor.settleOps, hs]
    rw [hops]
    refine ⟨⟨hfirst, trivial⟩, ?_⟩
    funext id
    simp only [List.foldl_cons, List.foldl_nil, advance, Stage.next]
    by_cases hid : j.id = id
    · simp [hid, hover]
    · simp [hid, hother id hid]

theorem finish (now : Millis) (seq : Nat) {ws : List Write} (hws : ∀ w ∈ ws, w.isAside = true)
    (hterm : t.state.isTerminal = true) (hid : j.id = t.jobId) (hj : st.jobs[j.id]? = some j₀)
    (ho : j.SameOrigin j₀) (hcount : j.counted = j₀.counted + 1) (hrun : j.state = .running)
    (hrun₀ : j₀.state = .running) :
    Passes st (.queued (.task t) :: (ws.map .queued ++
      (.queued (.job j) :: Supervisor.settleOps now j.id seq (some j)))) := by
  have hstage : advance (fun _ => .whole) (.queued (.task t)) =
      Function.update (fun _ => Stage.whole) j.id .uncounted := by
    funext id
    by_cases he : t.jobId = id
    · simp [advance, Stage.next, he, hterm, hid]
    · rw [Function.update_of_ne (by rw [hid]; exact Ne.symm he)]
      simp [advance, Stage.next, he]
  have haside : ∀ op ∈ ws.map DurableOp.queued, op.isMild = true := by
    intro op hop
    obtain ⟨w, hw, rfl⟩ := List.mem_map.mp hop
    exact DurableOp.isMild_aside (hws w hw)
  have hrow : ((st.saveTask t).replay (ws.map .queued)).jobs[j.id]? = some j₀ := by
    rw [(Store.replay_aside ws hws).1]; exact hj
  obtain ⟨horder, hfold⟩ := count now seq hrow ho hcount hrun hrun₀
  refine ⟨⟨fun _ => rfl, ?_⟩, ?_⟩
  · rw [hstage]
    refine orderly_append.mpr ⟨.mild haside, ?_⟩
    rw [foldl_mild haside]
    exact horder
  · rw [stages, List.foldl_cons, hstage, List.foldl_append, foldl_mild haside]
    exact hfold

end Passes

theorem Weak.counted_lt {tasks : Table Task} {k : TaskId} (h : Weak tasks id j) (ht : tasks[k]? = some t)
    (hid : t.jobId = id) (hopen : t.state.isTerminal = false) : j.counted < j.taskCount := by
  have hpos := openTasks_pos_iff.mpr ⟨k, t, ht, hid, hopen⟩
  have hpop := population_eq tasks id
  have htotal := h.total
  have hc := h.completed
  have hf := h.failed
  unfold Job.counted
  omega

/-! ## The supervisor's writes -/

namespace Supervisor

variable {s s' : Supervisor} {now : Millis} {st₀ : Store}

/-- Between two moves the store owes nothing to any job. A task in memory has its job there, and a job
some node works for has started. -/
structure Tidy (st₀ : Store) (s : Supervisor) : Prop where
  passes : Passes st₀ s.ops
  owned : ∀ (k : TaskId) t, s.tasks[k]? = some t → ∃ j, s.jobs[t.jobId]? = some j
  started : ∀ (k : TaskId) t j, s.tasks[k]? = some t → t.state.isHeld = true →
    s.jobs[t.jobId]? = some j → j.state ≠ .queued

namespace Tidy

theorem extend (h : s.Tidy st₀) {l : List DurableOp} (hops : s'.ops = s.ops ++ l)
    (hnew : Passes (s.durable st₀) l) : Passes st₀ s'.ops := by
  rw [hops]
  exact h.passes.append hnew

/-- The work stays and only mild operations were issued. -/
theorem frame (h : s.Tidy st₀) {l : List DurableOp} (hops : s'.ops = s.ops ++ l)
    (hnew : ∀ op ∈ l, op.isMild = true) (hjobs : s'.jobs = s.jobs) (htasks : s'.tasks = s.tasks) :
    s'.Tidy st₀ := by
  refine ⟨h.extend hops (.mild hnew), ?_, ?_⟩
  · rw [htasks, hjobs]; exact h.owned
  · rw [htasks, hjobs]; exact h.started

theorem update (h : s.Tidy st₀) {l : List DurableOp} {f : Job → Job} (hops : s'.ops = s.ops ++ l)
    (hnew : Passes (s.durable st₀) l) (ht : s.tasks[t.id]? = some t₀) (hid : t.jobId = t₀.jobId)
    (htasks : s'.tasks = s.tasks.insert t.id t)
    (hjobs : ∀ b : JobId, s'.jobs[b]? = if t.jobId = b then s.jobs[b]?.map f else s.jobs[b]?)
    (hf : ∀ j, j.state ≠ .queued → (f j).state ≠ .queued)
    (hheld : t.state.isHeld = true → ∀ j, s.jobs[t.jobId]? = some j → (f j).state ≠ .queued) :
    s'.Tidy st₀ := by
  have hkept (k : TaskId) (u : Task) (hu : s.tasks[k]? = some u) : ∃ j, s'.jobs[u.jobId]? = some j := by
    obtain ⟨j, hj⟩ := h.owned k u hu
    rw [hjobs]
    split
    · exact ⟨f j, by rw [hj]; rfl⟩
    · exact ⟨j, hj⟩
  refine ⟨h.extend hops hnew, ?_, ?_⟩
  · intro k u hu
    rw [htasks, Table.get_insert] at hu
    split at hu
    · cases hu
      rw [hid]
      exact hkept _ _ ht
    · exact hkept k u hu
  · intro k u j hu hst hj
    rw [htasks, Table.get_insert] at hu
    rw [hjobs] at hj
    split at hu
    · cases hu
      rw [if_pos rfl] at hj
      obtain ⟨j₁, hj₁, rfl⟩ := Option.map_eq_some_iff.mp hj
      exact hheld hst j₁ hj₁
    · split at hj
      · obtain ⟨j₁, hj₁, rfl⟩ := Option.map_eq_some_iff.mp hj
        exact hf j₁ (h.started k u j₁ hu hst hj₁)
      · exact h.started k u j hu hst hj

theorem updateTask (h : s.Tidy st₀) {l : List DurableOp} (hops : s'.ops = s.ops ++ l)
    (hnew : ∀ op ∈ l, op.isMild = true) (ht : s.tasks[t.id]? = some t₀) (hid : t.jobId = t₀.jobId)
    (htasks : s'.tasks = s.tasks.insert t.id t) (hjobs : s'.jobs = s.jobs)
    (hheld : t.state.isHeld = true → t₀.state.isHeld = true) : s'.Tidy st₀ := by
  refine h.update (f := fun j => j) hops (.mild hnew) ht hid htasks ?_ (fun _ hq => hq) ?_
  · intro b
    rw [hjobs]
    simp
  · intro hst j hj
    rw [hid] at hj
    exact h.started _ _ j ht (hheld hst) hj

end Tidy

theorem settle_state_ne {j : Job} (h : j.state ≠ .queued) : (j.settle now).state ≠ .queued := by
  unfold Job.settle
  split
  · intro hc
    have hv := j.verdict_terminal
    rw [show j.verdict = .queued from hc] at hv
    cases hv
  · exact h

theorem start_state_ne (j : Job) : j.start.state ≠ .queued := by
  unfold Job.start
  split
  · simp [Job.startedAt]
  · assumption

theorem countCompleted_counted {j : Job} (hlt : j.counted < j.taskCount) (hsmall : j.taskCount ≤ u16Max) :
    j.countCompleted.counted = j.counted + 1 := by
  unfold Job.counted at hlt
  simp only [Job.counted, Job.countCompleted, satSucc]
  omega

theorem countFailed_counted {j : Job} (hlt : j.counted < j.taskCount) (hsmall : j.taskCount ≤ u16Max) :
    j.countFailed.counted = j.counted + 1 := by
  unfold Job.counted at hlt
  simp only [Job.counted, Job.countFailed, satSucc]
  omega

theorem Tidy.owner (h : s.Tidy st₀) (hf : s.Tracks st₀) {k : TaskId} (ht : s.tasks[k]? = some t)
    (hheld : t.state.isHeld = true) : ∃ j, s.jobs[t.jobId]? = some j ∧ j.id = t.jobId ∧
      (s.durable st₀).jobs[j.id]? = some j ∧ j.state = .running ∧ j.counted < j.taskCount ∧
      j.taskCount ≤ u16Max := by
  obtain ⟨j, hj⟩ := h.owned k t ht
  have hopen := TaskState.held_not_terminal hheld
  have hid := hf.jobKey _ j hj
  have hrow := hf.holds.job _ j hj
  have hweak := hf.stored.weak _ j hrow
  refine ⟨j, hj, hid, hid ▸ hrow, ?_, hweak.counted_lt (hf.holds.task _ _ ht) rfl hopen, hweak.small⟩
  have hnq := h.started k t j ht hheld hj
  have hnt := hf.owner_open ht hopen hj
  cases hs : j.state with
  | running => rfl
  | queued => exact absurd hs hnq
  | _ => rw [hs] at hnt; cases hnt

theorem Move.tidy (hf : s.Tracks st₀) (h : s.Tidy st₀) (hm : Move now s s') : s'.Tidy st₀ := by
  cases hm with
  | drop => exact h.frame (l := []) (by simp [ops]) (by simp) rfl rfl
  | @place t rest n e c m hq ht hst =>
      have hfr := place_frame s now rest (t.assignedOn n now) n c m
      refine h.update (t := t.assignedOn n now) (place_ops ..) ?_ ht rfl hfr.tasks
        (place_jobs s now rest (t.assignedOn n now) n c m) (fun j _ => start_state_ne j)
        (fun _ j _ => start_state_ne j)
      have hstart : Passes ((s.durable st₀).saveTask (t.assignedOn n now)) (startOps s.jobs[t.jobId]?) := by
        cases hj : s.jobs[t.jobId]? with
        | none => exact .nil _
        | some j =>
            rw [startOps]
            split
            · have hrow := hf.holds.job _ j hj
              have hlt := (hf.stored.weak _ j hrow).counted_lt (hf.holds.task _ _ ht) rfl (by rw [hst]; rfl)
              rw [← hf.jobKey _ j hj] at hrow
              exact .start hrow hlt
            · exact .nil _
      have hfirst : Passes (s.durable st₀) [.queued (.task (t.assignedOn n now))] :=
        .mild (by simp [DurableOp.isMild, Task.assignedOn, TaskState.isTerminal])
      exact (hfirst.append hstart).append (.mild (by simp [DurableOp.isMild]))
  | @start t n ht hst =>
      have hfr := markStarted_frame s (t.startedAt now)
      exact h.updateTask (t := t.startedAt now) markStarted_ops
        (by simp [DurableOp.isMild, Task.startedAt, TaskState.isTerminal]) ht rfl hfr.tasks rfl
        fun _ => by rw [hst]; rfl
  | @complete t n output ht hst =>
      have hheld : t.state.isHeld = true := by rw [hst]; rfl
      obtain ⟨j, hj, hid, hrow, hrun, hlt, hsmall⟩ := h.owner hf ht hheld
      have hfr := markCompleted_frame s now n (t.completedAt output now)
      refine h.update (t := t.completedAt output now) markCompleted_ops ?_ ht rfl hfr.tasks
        (markCompleted_jobs s now n (t.completedAt output now)) (fun j hq => settle_state_ne hq)
        (by intro hc; cases hc)
      have haside : ∀ w ∈ [Write.event ⟨s.eventSeq + 1, now, .taskCompleted t.id n⟩], w.isAside = true := by
        simp [Write.isAside]
      have hpass := Passes.finish now (s.eventSeq + 1) haside (t := t.completedAt output now)
        (j := j.countCompleted) rfl hid hrow ⟨rfl, rfl, rfl, rfl⟩ (countCompleted_counted hlt hsmall) hrun hrun
      have hjob : s.jobs[(t.completedAt output now).jobId]? = some j := hj
      rw [hjob]
      change Passes _ (_ :: ([_] ++ (_ :: settleOps now t.jobId _ _)))
      rw [← hid]
      exact hpass
  | @retry t n reason detail ht hheld =>
      have hfr := retry_frame s now n t (t.requeuedAt now) reason detail
      have hops := putBack_ops (s := s.noteFailure now n t reason detail) now (t := t.requeuedAt now)
      rw [noteFailure_ops, List.append_assoc] at hops
      refine h.updateTask (t := t.requeuedAt now) hops ?_ ht rfl hfr.tasks ?_ (by intro hc; cases hc)
      · simp [DurableOp.isMild, Task.requeuedAt, TaskState.isTerminal]
      · rw [putBack_jobs, noteFailure_jobs]
  | @giveUp t n reason detail ht hheld =>
      obtain ⟨j, hj, hid, hrow, hrun, hlt, hsmall⟩ := h.owner hf ht hheld
      have hnote : (s.noteFailure now n t reason detail).Tidy st₀ :=
        h.frame (noteFailure_ops reason detail) (by simp [DurableOp.isMild])
          (noteFailure_jobs s now n t reason detail) (noteFailure_frame s now n t reason detail).tasks
      have hfr := markFailed_frame (s.noteFailure now n t reason detail) now (t.failedAt now)
      have ht' : (s.noteFailure now n t reason detail).tasks[t.id]? = some t := by
        rw [(noteFailure_frame s now n t reason detail).tasks]; exact ht
      have hd : ((s.noteFailure now n t reason detail).durable st₀).jobs = (s.durable st₀).jobs := by
        rw [durable, noteFailure_ops, Store.replay_append]
        exact (Store.replay_aside [.failure _, .event _] (by simp [Write.isAside])).1
      refine hnote.update (t := t.failedAt now) (markFailed_ops _) ?_ ht' rfl hfr.tasks
        (markFailed_jobs _ now (t.failedAt now)) (fun j hq => settle_state_ne hq) (by intro hc; cases hc)
      have hrow' : ((s.noteFailure now n t reason detail).durable st₀).jobs[j.id]? = some j := by
        rw [hd]; exact hrow
      have haside : ∀ w ∈ ([] : List Write), w.isAside = true := by simp
      have hpass := Passes.finish now (s.noteFailure now n t reason detail).eventSeq haside
        (t := t.failedAt now) (j := j.countFailed) rfl hid hrow' ⟨rfl, rfl, rfl, rfl⟩
        (countFailed_counted hlt hsmall) hrun hrun
      have hjob : (s.noteFailure now n t reason detail).jobs[(t.failedAt now).jobId]? = some j := by
        rw [noteFailure_jobs]; exact hj
      rw [hjob]
      change Passes _ (_ :: (_ :: settleOps now t.jobId _ _))
      rw [← hid]
      exact hpass
  | reserveJob =>
      exact h.frame (l := [.reserveJob]) (by simp [ops]) (by simp [DurableOp.isMild]) rfl rfl
  | reserveTasks count =>
      exact h.frame (l := [.reserveTasks count]) (by simp [ops]) (by simp [DurableOp.isMild]) rfl rfl
  | enrol spec =>
      have hfr := enrol_frame s now spec
      refine ⟨h.extend (enrol_ops s now spec) (.mild (by simp [DurableOp.isMild])), ?_, ?_⟩
      · intro k t ht
        rw [hfr.tasks] at ht
        rw [enrol_jobs, Table.get_insert]
        split
        · exact ⟨_, rfl⟩
        · rename_i hne
          rcases Table.get_insertAll_some ht with ⟨hmem, -⟩ | ⟨hold, -⟩
          · obtain ⟨i, sp, -, rfl⟩ := mem_newTasks hmem
            exact absurd rfl hne
          · exact h.owned k t hold
      · intro k t j ht hheld hj
        rw [hfr.tasks] at ht
        rw [enrol_jobs, Table.get_insert] at hj
        rcases Table.get_insertAll_some ht with ⟨hmem, -⟩ | ⟨hold, -⟩
        · obtain ⟨i, sp, -, rfl⟩ := mem_newTasks hmem
          cases hheld
        · split at hj
          · rename_i hid
            obtain ⟨j₀, hj₀⟩ := h.owned k t hold
            have hle := hf.stored.job_le _ j₀ (hf.holds.job _ j₀ hj₀)
            rw [hf.jobSeq, ← hid] at hle
            exact absurd hle (Nat.not_succ_le_self _)
          · exact h.started k t j hold hheld hj
  | prune =>
      refine ⟨?_, ?_, ?_⟩
      · rw [ops, prune_journal]; exact h.passes
      · intro k t ht
        rw [prune_tasks] at ht
        obtain ⟨hold, hkeep⟩ := Option.filter_eq_some_iff.mp ht
        obtain ⟨j, hj⟩ := h.owned k t hold
        exact ⟨j, by rw [prune_jobs, if_neg (by simpa using hkeep)]; exact hj⟩
      · intro k t j ht hheld hj
        rw [prune_tasks] at ht
        rw [prune_jobs] at hj
        split at hj
        · cases hj
        · exact h.started k t j (Option.filter_eq_some_iff.mp ht).1 hheld hj

theorem Quiet.tidy (h : s.Tidy st₀) (hq : Quiet s s') : s'.Tidy st₀ := by
  obtain ⟨ws, hws, hj⟩ := hq.journal
  refine h.frame (l := ws.map .queued) (by simp [ops, hj]) ?_ hq.jobs hq.tasks
  intro op hop
  obtain ⟨w, hw, rfl⟩ := List.mem_map.mp hop
  exact DurableOp.isMild_aside (Write.isQuiet_aside (hws w hw))

theorem Bounce.tidy (h : s.Tidy st₀) (hb : Bounce now s s') : s'.Tidy st₀ := by
  cases hb with
  | @intro t rest n e c hq ht =>
      have hfr := bounce_frame s rest ((t.assignedOn n now).requeuedAt now)
      exact h.updateTask (t := (t.assignedOn n now).requeuedAt now) (bounce_ops rest)
        (by simp [DurableOp.isMild]) ht rfl hfr.tasks rfl (by intro hc; cases hc)

theorem Changes.tidy (hf : s.Tracks st₀) (h : s.Tidy st₀) (hc : Changes now s s') : s'.Tidy st₀ := by
  induction hc with
  | refl => exact h
  | tail hbefore hstep ih =>
      rcases hstep with (hm | hq) | hb
      · exact hm.tidy (Changes.tracks hf hbefore) ih
      · exact hq.tidy ih
      · exact hb.tidy ih

theorem handle_tidy (hw : s.Wf) (hf : s.Tracks st₀) (h : s.Tidy st₀) (i : Input) :
    (s.handle now i).Tidy st₀ := Changes.tidy hf h (handle_changes _ hw i)

section Boot

variable (config : LocalClusterConfig) (scheduler : Scheduler) (elector : Elector) {store : Store}

theorem bootstrap_tidy (h : store.Stored) : (bootstrap config scheduler elector store now).Tidy store := by
  have hlaunched : ∀ op ∈ (launched config scheduler elector store now).ops, op.isMild = true := by
    obtain ⟨ws, hws, hj⟩ := (launched_quiet config scheduler elector store now).journal
    intro op hop
    simp only [ops, hj, registered, new, List.nil_append, List.map_map, List.mem_map] at hop
    obtain ⟨w, hw, rfl⟩ := hop
    exact DurableOp.isMild_aside (Write.isQuiet_aside (hws w hw))
  refine Quiet.tidy (s := loadedState config scheduler elector store now) ⟨?_, ?_, ?_⟩
    (Quiet.refreshLeadership _ now)
  · rw [(loadedState_fields _ config scheduler elector store).2.2.2.2]
    refine .mild ?_
    intro op hop
    rcases List.mem_append.mp hop with hop | hop
    · exact hlaunched op hop
    · obtain ⟨r, -, hop⟩ := List.mem_flatMap.mp hop
      obtain ⟨t, -, rfl⟩ := List.mem_map.mp hop
      rfl
  · intro k t ht
    obtain ⟨t₀, j, -, rfl, hj⟩ := (loadedState_task config scheduler elector h.keyed).mp ht
    rw [Task.loadedAs_jobId]
    exact ⟨j, hj⟩
  · -- A task is loaded as held only under a job that has ended.
    intro k t j ht hheld hj
    obtain ⟨t₀, j₀, -, rfl, hj₀⟩ := (loadedState_task config scheduler elector h.keyed).mp ht
    rw [Task.loadedAs_jobId, hj₀] at hj
    cases hj
    unfold Task.loadedAs at hheld
    split at hheld
    · cases hheld
    · rename_i hreset
      intro hq
      simp [Task.isReset, hq, JobState.isTerminal, TaskState.held_not_terminal hheld] at hreset

end Boot

end Supervisor

/-! ## What a cut leaves -/

/-- The tasks of a job that have ended. -/
def endedTasks (tasks : Table Task) (id : JobId) : Nat := tally tasks id .completed + tally tasks id .failed

/-- Every task has ended and the job has not. -/
def Job.IsStuck (ended : Nat) (j : Job) : Prop := j.state.isTerminal = false ∧ j.taskCount ≤ ended

/-- Where a job stands with so many ended tasks, if it was `lag` behind them when the process started. -/
def Standing (lag : Nat) (stuck : Prop) (ended : Nat) (j : Job) : Stage → Prop
  | .whole => ended = j.counted + lag ∧ (lag = 0 → (j.IsStuck ended ↔ stuck))
  | .uncounted => ended = j.counted + 1 + lag ∧ j.state.isTerminal = false ∧ (lag = 0 → ¬ stuck)
  | .unsettled => ended = j.counted + lag ∧ j.isOverdue = true ∧ (lag = 0 → ¬ stuck)

/-- The job counts fewer tasks than have ended, or it missed its own end. -/
def Store.Behind (st : Store) (id : JobId) : Prop :=
  ∃ j, st.jobs[id]? = some j ∧
    (j.counted < endedTasks st.tasks id ∨ j.IsStuck (endedTasks st.tasks id))

theorem Standing.behind_iff {lag ended : Nat} {stuck : Prop} {ph : Stage} (h : Standing lag stuck ended j ph)
    : (j.counted < ended ∨ j.IsStuck ended) ↔ (0 < lag ∨ stuck) ∨ ph ≠ .whole := by
  cases ph with
  | whole =>
      obtain ⟨he, hs⟩ := h
      rcases Nat.eq_zero_or_pos lag with hz | hpos
      · have hnot : ¬ j.counted < ended := by omega
        simp [hnot, hs hz, hz]
      · have hlt : j.counted < ended := by omega
        simp [hlt, hpos]
  | uncounted =>
      have hlt : j.counted < ended := by have := h.1; omega
      simp [hlt]
  | unsettled =>
      obtain ⟨he, hover, -⟩ := h
      simp only [Job.isOverdue, Bool.and_eq_true, decide_eq_true_eq, Bool.not_eq_true'] at hover
      have hstuck : j.IsStuck ended := ⟨hover.2, by omega⟩
      simp [hstuck]

/-- How many ended tasks the job has not counted. -/
def Store.lag (st : Store) (id : JobId) : Nat :=
  match st.jobs[id]? with
  | some j => endedTasks st.tasks id - j.counted
  | none => 0

def Store.Stuck (st : Store) (id : JobId) : Prop :=
  ∃ j, st.jobs[id]? = some j ∧ j.IsStuck (endedTasks st.tasks id)

theorem Store.behind_iff : st.Behind id ↔ 0 < st.lag id ∨ st.Stuck id := by
  unfold Behind lag Stuck
  cases st.jobs[id]? with
  | none => simp
  | some j =>
      have hlag : 0 < endedTasks st.tasks id - j.counted ↔ j.counted < endedTasks st.tasks id := by omega
      simp [hlag]

theorem endedTasks_insert {tasks : Table Task} {k : TaskId} (ht : tasks[k]? = some t₀)
    (hj : t.jobId = t₀.jobId) (hopen : t₀.state.isTerminal = false) (id : JobId) :
    endedTasks (tasks.insert k t) id =
      endedTasks tasks id + if t.jobId = id ∧ t.state.isTerminal = true then 1 else 0 := by
  unfold endedTasks
  rw [tally_insert_open ht hj hopen rfl, tally_insert_open ht hj hopen rfl]
  cases hs : t.state <;> simp [TaskState.isTerminal] <;> omega

theorem SameTasks.endedTasks {tasks tasks' : Table Task} (h : SameTasks tasks tasks' id) :
    endedTasks tasks id = endedTasks tasks' id := by
  unfold Gavel.Cluster.endedTasks
  rw [h.tally, h.tally]

theorem Weak.ended_lt {tasks : Table Task} {k : TaskId} (h : Weak tasks id j) (ht : tasks[k]? = some t)
    (hid : t.jobId = id) (hopen : t.state.isTerminal = false) : endedTasks tasks id < j.taskCount := by
  have hpos := openTasks_pos_iff.mpr ⟨k, t, ht, hid, hopen⟩
  have hpop := population_eq tasks id
  have htotal := h.total
  unfold endedTasks
  omega

/-- Every job stands where its stage and the store the process started on say. -/
structure Accountable (base st : Store) (ph : JobId → Stage) : Prop where
  known : ∀ (id : JobId) j, st.jobs[id]? = some j →
    Standing (base.lag id) (base.Stuck id) (endedTasks st.tasks id) j (ph id)
  unknown : ∀ id : JobId, st.jobs[id]? = none → ph id = .whole ∧ base.jobs[id]? = none

namespace Accountable

variable {base : Store} {ph : JobId → Stage}

theorem refl (h : base.Stored) : Accountable base base fun _ => .whole where
  known := by
    intro id j hj
    have hweak := h.weak id j hj
    have hle : j.counted ≤ endedTasks base.tasks id := Nat.add_le_add hweak.completed hweak.failed
    have hlag : base.lag id = endedTasks base.tasks id - j.counted := by simp [Store.lag, hj]
    refine ⟨by omega, fun _ => ?_⟩
    simp [Store.Stuck, hj]
  unknown := fun _ hj => ⟨rfl, hj⟩

theorem behind_iff (h : Accountable base st ph) (id : JobId) :
    st.Behind id ↔ base.Behind id ∨ ph id ≠ .whole := by
  have hbase : base.Behind id ↔ 0 < base.lag id ∨ base.Stuck id := Store.behind_iff
  rw [hbase]
  cases hj : st.jobs[id]? with
  | none =>
      obtain ⟨hph, hbase⟩ := h.unknown id hj
      simp [Store.Behind, Store.lag, Store.Stuck, hj, hbase, hph]
  | some j =>
      rw [← (h.known id j hj).behind_iff]
      simp [Store.Behind, hj]

theorem saveTask (h : Accountable base st ph) (hs : st.Stored) (ht : st.tasks[t.id]? = some t₀)
    (ho : t.SameOrigin t₀) (hopen : t₀.state.isTerminal = false)
    (hin : t.state.isTerminal = true → ph t.jobId = .whole) :
    Accountable base (st.saveTask t) (advance ph (.queued (.task t))) := by
  have hended (id : JobId) : endedTasks (st.saveTask t).tasks id =
      endedTasks st.tasks id + if t.jobId = id ∧ t.state.isTerminal = true then 1 else 0 := by
    rw [← (Store.saveTask_sameTasks ht ho id).endedTasks, endedTasks_insert ht ho.jobId hopen]
  refine ⟨?_, ?_⟩
  · intro id j hj
    have hstand := h.known id j hj
    rw [hended]
    by_cases hc : t.jobId = id ∧ t.state.isTerminal = true
    · -- The job of the task is one further behind.
      have hweak := hs.weak id j hj
      have hlt := hweak.ended_lt ht (ho.jobId ▸ hc.1) hopen
      rw [← hc.1, hin hc.2] at hstand
      obtain ⟨he, hstuck⟩ := hstand
      have hph : advance ph (.queued (.task t)) id = .uncounted := by simp [advance, Stage.next, hc]
      rw [hph, if_pos hc, ← hc.1]
      refine ⟨by omega, ?_, ?_⟩
      · by_contra hterm
        have hend := hweak.ended (by simpa using hterm) _ _ ht (ho.jobId ▸ hc.1)
        rw [hopen] at hend
        cases hend
      · intro hz hst
        have hle := ((hstuck hz).mpr hst).2
        rw [hc.1] at hle
        omega
    · have hph : advance ph (.queued (.task t)) id = ph id := by simp [advance, Stage.next, hc]
      rw [hph, if_neg hc]
      exact hstand
  · intro id hj
    have hne : t.jobId ≠ id := by
      rintro rfl
      obtain ⟨j, hj'⟩ := hs.owned _ _ ht
      rw [← ho.jobId] at hj'
      rw [show st.jobs[t.jobId]? = none from hj] at hj'
      cases hj'
    have hph : advance ph (.queued (.task t)) id = ph id := by simp [advance, Stage.next, hne]
    rw [hph]
    exact h.unknown id hj

theorem saveJob (h : Accountable base st ph) (hj₀ : st.jobs[j.id]? = some j₀) (ho : j.SameOrigin j₀)
    (hopen : j₀.state.isTerminal = false) (hin : InOrder st ph (.queued (.job j))) :
    Accountable base (st.saveJob j) (advance ph (.queued (.job j))) := by
  have hget := Store.get_saveJob hj₀ ho
  refine ⟨?_, ?_⟩
  · intro id k hk
    rw [hget] at hk
    by_cases hid : j.id = id
    · rw [if_pos hid] at hk
      subst hid
      cases hk
      have hstand := h.known _ _ hj₀
      have horder := hin j₀ hj₀
      have hph : advance ph (.queued (.job j)) j.id = if j.isOverdue then .unsettled else .whole := by
        simp [advance, Stage.next]
      rw [hph]
      change Standing _ _ (endedTasks st.tasks j.id) _ _
      cases hp : ph j.id with
      | whole =>
          rw [hp] at hstand horder
          obtain ⟨hc, hlt, hnt⟩ := horder
          obtain ⟨he, hstuck⟩ := hstand
          have hover : j.isOverdue = false := by simp [Job.isOverdue, Nat.not_le.mpr hlt]
          rw [hover]
          refine ⟨by omega, fun hz => ?_⟩
          rw [← hstuck hz]
          simp [Job.IsStuck, hnt, hopen, ho.taskCount]
      | uncounted =>
          rw [hp] at hstand horder
          obtain ⟨hc, hst⟩ := horder
          obtain ⟨he, hnt, hstuck⟩ := hstand
          cases hover : j.isOverdue with
          | true => exact ⟨by omega, hover, hstuck⟩
          | false =>
              refine ⟨by omega, fun hz => iff_of_false ?_ (hstuck hz)⟩
              rintro ⟨hopen', hle⟩
              have hle' : j.taskCount ≤ j.counted := by omega
              simp [Job.isOverdue, hle', hopen'] at hover
      | unsettled =>
          rw [hp] at hstand horder
          obtain ⟨hc, hterm⟩ := horder
          obtain ⟨he, -, hstuck⟩ := hstand
          have hover : j.isOverdue = false := by simp [Job.isOverdue, hterm]
          rw [hover]
          refine ⟨by omega, fun hz => iff_of_false ?_ (hstuck hz)⟩
          rintro ⟨hopen', -⟩
          rw [hterm] at hopen'
          cases hopen'
    · rw [if_neg hid] at hk
      have hph : advance ph (.queued (.job j)) id = ph id := by simp [advance, Stage.next, hid]
      rw [hph]
      exact h.known id k hk
  · intro id hk
    rw [hget] at hk
    split at hk
    · cases hk
    · rename_i hid
      have hph : advance ph (.queued (.job j)) id = ph id := by simp [advance, Stage.next, hid]
      rw [hph]
      exact h.unknown id hk

theorem withJob (h : Accountable base st ph) (hs : st.Stored) {spec : JobSpec} {new first : Nat}
    {now : Millis} (hjob : st.jobs[new]? = none) (hnew : ∀ i, st.tasks[first + i]? = none) :
    Accountable base (st.withJob (Job.new new spec now) (Supervisor.newTasks spec new first now)) ph := by
  refine ⟨?_, ?_⟩
  · intro id j hj
    rw [Store.withJob, Table.get_insert] at hj
    split at hj
    · rename_i hid
      cases hj
      change new = id at hid
      subst hid
      obtain ⟨hph, hbase⟩ := h.unknown new hjob
      have hb : Balanced (st.tasks.insertAll Task.id (Supervisor.newTasks spec new first now)) new
          (Job.new new spec now) := by
        refine .new ?_ hnew
        rintro k t ht rfl
        obtain ⟨j, hj⟩ := hs.owned k t ht
        rw [hjob] at hj
        cases hj
      have hzero : endedTasks (st.withJob (Job.new new spec now)
          (Supervisor.newTasks spec new first now)).tasks new = 0 := by
        unfold endedTasks
        exact congrArg₂ (· + ·) hb.completed hb.failed
      have hpos : 0 < (Job.new new spec now).taskCount := hb.nonempty
      rw [hph, hzero]
      refine ⟨by simp [Store.lag, hbase, Job.counted, Job.new], fun _ => iff_of_false ?_ ?_⟩
      · rintro ⟨-, hle⟩
        omega
      · simp [Store.Stuck, hbase]
    · rename_i hne
      have hsame : SameTasks st.tasks (st.tasks.insertAll Task.id (Supervisor.newTasks spec new first now)) id :=
        sameTasks_insertAll now hne hnew
      change Standing _ _ (endedTasks (st.tasks.insertAll Task.id _) id) j _
      rw [← hsame.endedTasks]
      exact h.known id j hj
  · intro id hj
    rw [Store.withJob, Table.get_insert] at hj
    split at hj
    · cases hj
    · exact h.unknown id hj

theorem perform (h : Accountable base st ph) (hs : st.Stored) {op : DurableOp} (happ : st.Applies op)
    (hin : InOrder st ph op) : Accountable base (st.perform op) (advance ph op) := by
  cases op with
  | reserveJob => exact ⟨h.known, h.unknown⟩
  | reserveTasks count => exact ⟨h.known, h.unknown⟩
  | createJob j ts =>
      obtain ⟨spec, id, first, now, rfl, rfl, hjob, hnew⟩ := happ
      rw [Store.createJob_eq hjob (Supervisor.newTasks_nodup ..)]
      · exact h.withJob hs hjob hnew
      · intro t ht
        obtain ⟨i, sp, -, rfl⟩ := Supervisor.mem_newTasks ht
        exact hnew i
  | saveTask t =>
      obtain ⟨hnt, t₀, ht, ho, hopen, -⟩ := happ
      have hsaved := h.saveTask hs ht ho hopen (by rw [hnt]; intro hc; cases hc)
      rw [advance_mild (by simp [DurableOp.isMild, hnt])] at hsaved
      exact hsaved
  | queued w =>
      cases w with
      | task t =>
          obtain ⟨t₀, ht, ho, hopen, -⟩ := happ
          exact h.saveTask hs ht ho hopen hin
      | job j =>
          obtain ⟨j₀, hj₀, ho, hopen⟩ := happ
          exact h.saveJob hj₀ ho hopen hin
      | _ => exact ⟨h.known, h.unknown⟩

theorem cut {journal : List JournalEntry} (hs : base.Stored) (hf : Supervisor.Followed base journal)
    (ho : Orderly base (fun _ => .whole) (journal.map JournalEntry.op)) {p : List DurableOp}
    (hp : p <+: journal.map JournalEntry.op) : Accountable base (base.replay p) (stages p) := by
  induction p using List.reverseRecOn with
  | nil => exact refl hs
  | append_singleton p op ih =>
      have hprev := (List.prefix_append p [op]).trans hp
      obtain ⟨rest, hrest⟩ := hp
      rw [List.append_assoc, List.singleton_append] at hrest
      rw [← hrest, orderly_append] at ho
      rw [Store.replay_concat, stages_concat]
      refine (ih hprev).perform (hf.stored hs hprev) (hf.applies hrest.symm).1 ?_
      exact ho.2.1

end Accountable

end Gavel.Cluster
