import Gavel.Cluster.Lemmas.Registry
import Gavel.Cluster.Supervisor
import Gavel.Cluster.Theorems.Placement

/-!
# Following the events

A reader that takes the tables once and follows the events from then on stays right about where every task
and job stands, about the status of every node, and about the roles of all nodes but the workers that were
given their id: in any run from any store a process may find.
-/

namespace Gavel.Cluster

/-!
## The picture a reader of the events has

The event stream is what a page that is open on the cluster follows. A reader keeps, for every id, where
the task, the job or the node stands, and changes it with each event.
-/

/-- Where a task stands, as far as the events tell: they do not say when a node starts on it. -/
inductive TaskStanding where
  | queued
  | held (node : Option NodeId)
  | completed (node : Option NodeId)
  | failed
  deriving DecidableEq, Repr

/-- Where a job stands: its start is not announced. -/
inductive JobStanding where
  | unfinished | completed | failed | cancelled
  deriving DecidableEq, Repr

def Task.standing (t : Task) : TaskStanding :=
  match t.state with
  | .queued => .queued
  | .assigned | .running => .held t.assignedTo
  | .completed => .completed t.assignedTo
  | .failed => .failed

def JobState.standing : JobState → JobStanding
  | .queued | .running => .unfinished
  | .completed => .completed
  | .failed => .failed
  | .cancelled => .cancelled

structure Picture where
  task : TaskId → TaskStanding
  job : JobId → JobStanding
  status : NodeId → NodeStatus
  roles : NodeId → RoleSet

namespace Picture

/-- What one event changes. -/
def note (p : Picture) : ClusterEvent → Picture
  | .nodeJoined n => { p with status := Function.update p.status n .healthy }
  | .nodeLeft n => { p with status := Function.update p.status n .offline }
  | .nodeUnhealthy n => { p with status := Function.update p.status n .suspect }
  | .nodeRecovered n => { p with status := Function.update p.status n .healthy }
  | .roleAssigned n role => { p with roles := Function.update p.roles n ((p.roles n).insert role) }
  | .roleRemoved n role => { p with roles := Function.update p.roles n ((p.roles n).remove role) }
  | .leaderElected _ | .leaderLost _ => p
  | .jobCreated j => { p with job := Function.update p.job j .unfinished }
  | .jobCompleted j => { p with job := Function.update p.job j .completed }
  | .jobFailed j => { p with job := Function.update p.job j .failed }
  | .taskAssigned t n => { p with task := Function.update p.task t (.held (some n)) }
  | .taskCompleted t n => { p with task := Function.update p.task t (.completed (some n)) }
  | .taskFailed t _ _ => { p with task := Function.update p.task t .failed }
  | .taskRequeued t => { p with task := Function.update p.task t .queued }

/-- The picture after some events. -/
def follow (p : Picture) (events : List ClusterEvent) : Picture := events.foldl note p

end Picture

/-- The picture a reader takes from the tables themselves. What is in none of them is yet to come. -/
def Supervisor.picture (s : Supervisor) : Picture where
  task id := (s.tasks[id]?).elim .queued Task.standing
  job id := (s.jobs[id]?).elim .unfinished fun j => j.state.standing
  status n := (s.nodes[n]?).elim .offline fun e => e.node.status
  roles n := (s.nodes[n]?).elim .empty fun e => e.node.roles

/-- The picture is right about what is in memory, but for the roles of a worker that was given its id: it is
announced without the one it has. -/
structure Picture.Shows (p : Picture) (s : Supervisor) : Prop where
  task : ∀ (id : TaskId) t, s.tasks[id]? = some t → p.task id = t.standing
  job : ∀ (id : JobId) j, s.jobs[id]? = some j → p.job id = j.state.standing
  status : ∀ (n : NodeId) e, s.nodes[n]? = some e → p.status n = e.node.status
  roles : ∀ (n : NodeId) e, s.nodes[n]? = some e → e.kind ≠ .remote false → p.roles n = e.node.roles

open Picture (note follow)

/-! ## Pictures -/

namespace Picture

variable {p p' : Picture} {s s' : Supervisor} {now : Millis} {t t₀ : Task}

/-- The picture is right about the work, and ids that were not handed out are still to come. -/
structure Work (p : Picture) (s : Supervisor) : Prop where
  task : ∀ (id : TaskId) t, s.tasks[id]? = some t → p.task id = t.standing
  job : ∀ (id : JobId) j, s.jobs[id]? = some j → p.job id = j.state.standing
  ahead : ∀ id, s.taskSeq < id → p.task id = .queued

/-- The picture is right about the registry, apart from some nodes whose status is yet to be told. -/
structure Registry (late : List NodeId) (p : Picture) (s : Supervisor) : Prop where
  status : ∀ (n : NodeId) e, s.nodes[n]? = some e → n ∉ late → p.status n = e.node.status
  roles : ∀ (n : NodeId) e, s.nodes[n]? = some e → e.kind ≠ .remote false → p.roles n = e.node.roles

/-- Nothing about the nodes was noted. -/
structure SameNodes (p p' : Picture) : Prop where
  status : p'.status = p.status
  roles : p'.roles = p.roles

theorem SameNodes.registry (h : SameNodes p p') {late : List NodeId} (hr : p.Registry late s)
    (hnodes : s'.nodes = s.nodes) : p'.Registry late s' where
  status := by rw [hnodes, h.status]; exact hr.status
  roles := by rw [hnodes, h.roles]; exact hr.roles

theorem Work.shows (h : p.Work s) (hr : p.Registry [] s) : p.Shows s :=
  ⟨h.task, h.job, fun n e he => hr.status n e he List.not_mem_nil, hr.roles⟩

theorem follow_append (p : Picture) (l l' : List ClusterEvent) :
    p.follow (l ++ l') = (p.follow l).follow l' := List.foldl_append

@[simp] theorem follow_nil (p : Picture) : p.follow [] = p := rfl

@[simp] theorem follow_cons (p : Picture) (ev : ClusterEvent) (l : List ClusterEvent) :
    p.follow (ev :: l) = (p.note ev).follow l := rfl

/-- One task row is written back, and the jobs are told apart. -/
theorem Work.row (h : p.Work s) (hn : s.Numbered) (ht : s.tasks[t.id]? = some t₀)
    (htasks : s'.tasks = s.tasks.insert t.id t) (hseq : s'.taskSeq = s.taskSeq)
    (htask : p'.task = Function.update p.task t.id t.standing)
    (hjob : ∀ (id : JobId) j, s'.jobs[id]? = some j → p'.job id = j.state.standing) : p'.Work s' where
  task := by
    intro id u hu
    rw [htasks, Table.get_insert] at hu
    rw [htask]
    split at hu
    · cases hu
      subst id
      exact Function.update_self _ _ _
    · rename_i hne
      rw [Function.update_of_ne (Ne.symm hne)]
      exact h.task id u hu
  job := hjob
  ahead := by
    intro id hid
    rw [hseq] at hid
    have hle := hn.task t.id t₀ ht
    have hne : id ≠ t.id := Nat.ne_of_gt (Nat.lt_of_le_of_lt hle hid)
    rw [htask, Function.update_of_ne hne]
    exact h.ahead id hid

/-- The tables keep what they have, or forget it. -/
theorem Work.shrink (h : p.Work s)
    (htasks : ∀ (id : TaskId) t, s'.tasks[id]? = some t → s.tasks[id]? = some t)
    (hjobs : ∀ (id : JobId) j, s'.jobs[id]? = some j → s.jobs[id]? = some j)
    (hseq : s.taskSeq ≤ s'.taskSeq) : p.Work s' where
  task id t ht := h.task id t (htasks id t ht)
  job id j hj := h.job id j (hjobs id j hj)
  ahead id hid := h.ahead id (Nat.lt_of_le_of_lt hseq hid)

theorem Work.same (h : p.Work s) (hq : Supervisor.Quiet s s') (htask : p'.task = p.task)
    (hjob : p'.job = p.job) : p'.Work s' where
  task := by rw [hq.tasks, htask]; exact h.task
  job := by rw [hq.jobs, hjob]; exact h.job
  ahead := by rw [hq.taskSeq, htask]; exact h.ahead

/-- The registry changed at one node, and its status is told. -/
theorem Registry.entry {late left : List NodeId} (h : p.Registry late s) {n : NodeId} {e : NodeEntry}
    (hleft : ∀ m, m ≠ n → m ∉ left → m ∉ late)
    (hnodes : ∀ m : NodeId, s'.nodes[m]? = if n = m then some e else s.nodes[m]?)
    (hstatus : p'.status = Function.update p.status n e.node.status)
    (hroles : ∀ m, m ≠ n → p'.roles m = p.roles m)
    (hself : e.kind ≠ .remote false → p'.roles n = e.node.roles) : p'.Registry left s' where
  status := by
    intro m x hx hl
    rw [hnodes] at hx
    rw [hstatus]
    split at hx
    · cases hx
      subst m
      exact Function.update_self _ _ _
    · rename_i hne
      rw [Function.update_of_ne (Ne.symm hne)]
      exact h.status m x hx (hleft m (Ne.symm hne) hl)
  roles := by
    intro m x hx hk
    rw [hnodes] at hx
    split at hx
    · cases hx
      subst m
      exact hself hk
    · rename_i hne
      rw [hroles m (Ne.symm hne)]
      exact h.roles m x hx hk

/-! ## The end of a job -/

/-- The events of the operations that settle a job. -/
theorem settled_events (now : Millis) (id : JobId) (seq : Nat) (j : Option Job) :
    (Supervisor.settleOps now id seq j).filterMap DurableOp.event? =
      j.elim [] fun j => if j.settles then [Supervisor.settledEvent id j] else [] := by
  cases j with
  | none => rfl
  | some j =>
      by_cases hs : j.settles = true
      · simp only [Supervisor.settleOps, hs, if_true, Option.elim_some]
        rfl
      · simp only [Supervisor.settleOps, hs, Option.elim_some]
        rfl

theorem note_settled (p : Picture) (id : JobId) (j : Job) (now : Millis) :
    p.note (Supervisor.settledEvent id j) =
      { p with job := Function.update p.job id (j.settledAt now).state.standing } := by
  unfold Supervisor.settledEvent Job.settledAt
  rcases j.verdict_cases with hv | hv <;> simp [hv, note, JobState.standing]

/-- Settling is announced: the picture of the jobs is right afterwards, the rest of it is the same. -/
theorem follow_settled (p : Picture) (now : Millis) (a : JobId) (seq : Nat) {f : Job → Job}
    (hf : ∀ j, (f j).state = j.state) {jobs : Table Job}
    (h : ∀ (id : JobId) j, jobs[id]? = some j → p.job id = j.state.standing) :
    let p' := p.follow ((Supervisor.settleOps now a seq (jobs[a]?.map f)).filterMap DurableOp.event?)
    p'.task = p.task ∧ SameNodes p p' ∧
      ∀ (id : JobId) j,
        (if a = id then jobs[id]?.map (fun j => (f j).settle now) else jobs[id]?) = some j →
        p'.job id = j.state.standing := by
  dsimp only
  rw [settled_events]
  cases hj : jobs[a]? with
  | none =>
      refine ⟨rfl, ⟨rfl, rfl⟩, ?_⟩
      intro id j hsome
      split at hsome
      · subst id
        rw [hj] at hsome
        cases hsome
      · exact h id j hsome
  | some j₀ =>
      rw [Option.map_some, Option.elim_some]
      by_cases hs : (f j₀).settles = true
      · rw [if_pos hs, follow_cons, follow_nil, note_settled p a (f j₀) now]
        refine ⟨rfl, ⟨rfl, rfl⟩, ?_⟩
        intro id j hsome
        dsimp only
        split at hsome
        · subst id
          rw [hj] at hsome
          cases hsome
          rw [Function.update_self]
          simp only [Job.settle, hs, if_true]
        · rename_i hne
          rw [Function.update_of_ne (Ne.symm hne)]
          exact h id j hsome
      · rw [if_neg hs]
        refine ⟨rfl, ⟨rfl, rfl⟩, ?_⟩
        intro id j hsome
        split at hsome
        · subst id
          rw [hj] at hsome
          cases hsome
          have hkept : (f j₀).settle now = f j₀ := if_neg hs
          show p.job a = ((f j₀).settle now).state.standing
          rw [hkept, hf]
          exact h a j₀ hj
        · exact h id j hsome

end Picture

namespace Supervisor

variable {s s' s'' : Supervisor} {now : Millis} {n : NodeId} {e : NodeEntry}

/-! ## Told -/

/-- What changed of the work was announced, and nothing else. -/
def Reported (s s' : Supervisor) : Prop :=
  ∃ evs, s'.emitted = s.emitted ++ evs ∧
    ∀ p : Picture, p.Work s → (p.follow evs).Work s' ∧ p.SameNodes (p.follow evs)

namespace Reported

theorem refl (s : Supervisor) : Reported s s := ⟨[], by simp, fun _ h => ⟨h, rfl, rfl⟩⟩

theorem trans (h : Reported s s') (h' : Reported s' s'') : Reported s s'' := by
  obtain ⟨evs, he, hp⟩ := h
  obtain ⟨evs', he', hp'⟩ := h'
  refine ⟨evs ++ evs', by rw [he', he, List.append_assoc], ?_⟩
  intro p hw
  rw [Picture.follow_append]
  obtain ⟨hmid, hsame⟩ := hp p hw
  obtain ⟨hend, hsame'⟩ := hp' _ hmid
  exact ⟨hend, hsame'.status.trans hsame.status, hsame'.roles.trans hsame.roles⟩

theorem of_ops {l : List DurableOp} (hops : s'.ops = s.ops ++ l)
    (h : ∀ p : Picture, p.Work s → (p.follow (l.filterMap DurableOp.event?)).Work s' ∧
      p.SameNodes (p.follow (l.filterMap DurableOp.event?))) : Reported s s' :=
  ⟨_, by rw [emitted, hops, List.filterMap_append]; rfl, h⟩

/-- Nothing is announced, and nothing a reader sees has changed. -/
theorem silent {l : List DurableOp} (hops : s'.ops = s.ops ++ l)
    (hnone : l.filterMap DurableOp.event? = []) (h : ∀ p : Picture, p.Work s → p.Work s') :
    Reported s s' := by
  refine of_ops hops fun p hw => ?_
  rw [hnone]
  exact ⟨h p hw, rfl, rfl⟩

end Reported

/-! ## The work -/

theorem event_first (r : EventRecord) (ops : List DurableOp) :
    (.queued (.event r) :: ops : List DurableOp).filterMap DurableOp.event? =
      r.event :: ops.filterMap DurableOp.event? := rfl

theorem startOps_silent (j : Option Job) : (startOps j).filterMap DurableOp.event? = [] := by
  cases j with
  | none => rfl
  | some j =>
      by_cases hq : j.state = .queued
      · simp only [startOps, hq, if_true]
        rfl
      · simp only [startOps, hq, if_false]
        rfl

theorem updateOps_silent (f : Job → Job) (j : Option Job) :
    (updateOps f j).filterMap DurableOp.event? = [] := by
  cases j <;> rfl

theorem start_standing (j : Job) : j.start.state.standing = j.state.standing := by
  unfold Job.start
  split
  · rename_i hq
    rw [hq]
    rfl
  · rfl

theorem Move.reported (hn : s.Numbered) (hm : Move now s s') : Reported s s' := by
  cases hm with
  | drop hq ht =>
      refine .silent (l := []) (by simp [ops]) rfl fun p h => ?_
      exact h.shrink (fun _ _ h => h) (fun _ _ h => h) (Nat.le_refl _)
  | @place t rest n e c m hq ht =>
      have hf := place_frame s now rest (t.assignedOn n now) n c m
      refine .of_ops (place_ops ..) fun p h => ?_
      rw [List.cons_append, List.filterMap_cons_none rfl, List.filterMap_append, startOps_silent]
      refine ⟨h.row hn (t := t.assignedOn n now) ht hf.tasks hf.taskSeq rfl ?_, rfl, rfl⟩
      intro id j hj
      rw [place_jobs] at hj
      split at hj
      · obtain ⟨j₀, hj₀, rfl⟩ := Option.map_eq_some_iff.mp hj
        rw [start_standing]
        exact h.job id j₀ hj₀
      · exact h.job id j hj
  | @start t n ht hst =>
      have hf := markStarted_frame s (t.startedAt now)
      refine .silent markStarted_ops rfl fun p h => ?_
      refine h.row hn (t := t.startedAt now) ht hf.tasks hf.taskSeq ?_ h.job
      have hsame : p.task t.id = (t.startedAt now).standing := by
        rw [h.task t.id t ht]
        simp only [Task.standing, Task.startedAt, hst]
      rw [← hsame]
      exact (Function.update_eq_self _ _).symm
  | @complete t n output ht hst hto =>
      have hf := markCompleted_frame s now n (t.completedAt output now)
      refine .of_ops markCompleted_ops fun p h => ?_
      rw [List.filterMap_cons_none rfl, event_first, List.filterMap_append, updateOps_silent,
        List.nil_append, Picture.follow_cons]
      obtain ⟨htask, hsame, hjob⟩ := Picture.follow_settled
        (p.note (.taskCompleted t.id n)) now t.jobId (s.eventSeq + 1) (f := Job.countCompleted)
        (fun _ => rfl) h.job
      refine ⟨h.row hn (t := t.completedAt output now) ht hf.tasks hf.taskSeq ?_ ?_, hsame.status, hsame.roles⟩
      · refine htask.trans ?_
        simp only [note, Task.standing, Task.completedAt, hto]
      · intro id j hj
        rw [markCompleted_jobs] at hj
        exact hjob id j hj
  | @retry t n reason detail ht hst hto =>
      have hf := retry_frame s now n t (t.requeuedAt now) reason detail
      have hops := putBack_ops (s := s.noteFailure now n t reason detail) now (t := t.requeuedAt now)
      rw [noteFailure_ops, List.append_assoc] at hops
      refine .of_ops hops fun p h => ?_
      refine ⟨h.row hn (t := t.requeuedAt now) ht hf.tasks hf.taskSeq ?_ ?_, rfl, rfl⟩
      · exact Function.update_idem _ _ _
      · intro id j hj
        rw [putBack_jobs, noteFailure_jobs] at hj
        exact h.job id j hj
  | @giveUp t n reason detail ht =>
      have hf := giveUp_frame s now n t (t.failedAt now) reason detail
      have hj := markFailed_jobs (s.noteFailure now n t reason detail) now (t.failedAt now)
      have hops := markFailed_ops (s := s.noteFailure now n t reason detail) now (t := t.failedAt now)
      rw [noteFailure_jobs] at hj hops
      rw [noteFailure_ops, List.append_assoc] at hops
      refine .of_ops hops fun p h => ?_
      rw [List.filterMap_append, List.filterMap_cons_none rfl, event_first, List.filterMap_nil,
        List.filterMap_cons_none rfl, List.filterMap_append, updateOps_silent, List.nil_append,
        List.cons_append, List.nil_append, Picture.follow_cons]
      obtain ⟨htask, hsame, hjob⟩ := Picture.follow_settled
        (p.note (.taskFailed t.id (some n) reason)) now t.jobId
        (s.noteFailure now n t reason detail).eventSeq (f := Job.countFailed) (fun _ => rfl) h.job
      refine ⟨h.row hn (t := t.failedAt now) ht hf.tasks hf.taskSeq htask ?_, hsame.status,
        hsame.roles⟩
      intro id j hsome
      rw [hj] at hsome
      exact hjob id j hsome
  | reserveJob =>
      refine .silent (issue_ops _) rfl fun p h => ?_
      exact h.shrink (fun _ _ h => h) (fun _ _ h => h) (Nat.le_refl _)
  | reserveTasks count =>
      refine .silent (issue_ops _) rfl fun p h => ?_
      exact h.shrink (fun _ _ h => h) (fun _ _ h => h) (Nat.le_add_right _ _)
  | enrol spec =>
      have hf := enrol_frame s now spec
      refine .of_ops (enrol_ops s now spec) fun p h => ?_
      refine ⟨⟨?_, ?_, ?_⟩, rfl, rfl⟩
      · intro id t ht
        rw [hf.tasks] at ht
        rcases Table.get_insertAll_some ht with ⟨hmem, hk⟩ | ⟨hold, -⟩
        · obtain ⟨i, sp, -, rfl⟩ := mem_newTasks hmem
          refine h.ahead id ?_
          rw [← hk]
          show s.taskSeq < s.taskSeq + 1 + i
          omega
        · exact h.task id t hold
      · intro id j hj
        rw [enrol_jobs, Table.get_insert] at hj
        show Function.update p.job (s.jobSeq + 1) .unfinished id = _
        split at hj
        · cases hj
          subst id
          exact Function.update_self _ _ _
        · rename_i hne
          rw [Function.update_of_ne (Ne.symm hne)]
          exact h.job id j hj
      · intro id hid
        rw [hf.taskSeq] at hid
        refine h.ahead id ?_
        exact Nat.lt_of_le_of_lt (Nat.le_add_right _ _) hid
  | prune =>
      refine .silent (l := []) (by simp [ops, prune_journal]) rfl fun p h => ?_
      refine h.shrink ?_ ?_ (Nat.le_of_eq (prune_frame s).taskSeq.symm)
      · intro id t ht
        rw [prune_tasks] at ht
        exact (Option.filter_eq_some_iff.mp ht).1
      · intro id j hj
        rw [prune_jobs] at hj
        split at hj
        · cases hj
        · exact hj

theorem Bounce.reported (hn : s.Numbered) (hb : Bounce now s s') : Reported s s' := by
  cases hb with
  | @intro t rest n e c hq ht hst =>
      refine .silent (bounce_ops _) rfl fun p h => ?_
      refine h.row hn (t := (t.assignedOn n now).requeuedAt now) ht rfl rfl ?_ h.job
      have hsame : p.task t.id = ((t.assignedOn n now).requeuedAt now).standing := by
        rw [h.task t.id t ht]
        simp only [Task.standing, Task.requeuedAt, hst]
      rw [← hsame]
      exact (Function.update_eq_self _ _).symm

theorem Moves.reported (hn : s.Numbered) (hm : Moves now s s') : Reported s s' := by
  suffices h : Reported s s' ∧ s'.Numbered from h.1
  induction hm with
  | refl => exact ⟨.refl s, hn⟩
  | tail _ hm ih => exact ⟨ih.1.trans (hm.reported ih.2), hm.numbered ih.2⟩

theorem Smooths.numbered (hn : s.Numbered) (hm : Smooths now s s') : s'.Numbered := by
  induction hm with
  | refl => exact hn
  | tail _ hm ih =>
      cases hm with
      | move h => exact h.numbered ih
      | quiet h => exact h.numbered ih

theorem Moves.numbered (hn : s.Numbered) (hm : Moves now s s') : s'.Numbered := by
  induction hm with
  | refl => exact hn
  | tail _ hm ih => exact hm.numbered ih

/-- The work of a dispatch is reported, and no id beyond the sequences appears. -/
theorem Dispatched.reported {refused : Bool} (hn : s.Numbered) (h : Dispatched now refused s s') :
    Reported s s' ∧ s'.Numbered := by
  cases refused with
  | false => exact ⟨Moves.reported hn h, Moves.numbered hn h⟩
  | true =>
      obtain ⟨d, hm, hb⟩ := h
      have hd := Moves.numbered hn hm
      exact ⟨(Moves.reported hn hm).trans (hb.reported hd), hb.numbered hd⟩

/-! ## The registry -/

/-- What changed was announced: a reader that was late about some nodes is late about those left. -/
def Told (late left : List NodeId) (s s' : Supervisor) : Prop :=
  ∃ evs, s'.emitted = s.emitted ++ evs ∧ ∀ p : Picture, p.Work s → p.Registry late s →
    (p.follow evs).Work s' ∧ (p.follow evs).Registry left s'

namespace Told

variable {late left rest : List NodeId}

theorem trans (h : Told late left s s') (h' : Told left rest s' s'') : Told late rest s s'' := by
  obtain ⟨evs, he, hp⟩ := h
  obtain ⟨evs', he', hp'⟩ := h'
  refine ⟨evs ++ evs', by rw [he', he, List.append_assoc], ?_⟩
  intro p hw hr
  rw [Picture.follow_append]
  obtain ⟨hwork, hreg⟩ := hp p hw hr
  exact hp' _ hwork hreg

theorem of_reported (h : Reported s s') (hnodes : s'.nodes = s.nodes) : Told late late s s' := by
  obtain ⟨evs, he, hp⟩ := h
  refine ⟨evs, he, ?_⟩
  intro p hw hr
  obtain ⟨hwork, hsame⟩ := hp p hw
  exact ⟨hwork, hsame.registry hr hnodes⟩

theorem refl (s : Supervisor) : Told late late s s := of_reported (.refl s) rfl

/-- A quiet change without an event. -/
theorem unsaid {l : List DurableOp} (hq : Quiet s s') (hops : s'.ops = s.ops ++ l)
    (hnone : l.filterMap DurableOp.event? = [])
    (h : ∀ p : Picture, p.Registry late s → p.Registry left s') : Told late left s s' := by
  refine ⟨[], by rw [emitted, hops, List.filterMap_append, hnone]; rfl, ?_⟩
  exact fun p hw hr => ⟨hw.same hq rfl rfl, h p hr⟩

/-- A quiet change and the one event that tells it. -/
theorem said {l : List DurableOp} {ev : ClusterEvent} (hq : Quiet s s')
    (hops : s'.ops = s.ops ++ l) (hev : l.filterMap DurableOp.event? = [ev])
    (htask : ∀ p : Picture, (p.note ev).task = p.task) (hjob : ∀ p : Picture, (p.note ev).job = p.job)
    (h : ∀ p : Picture, p.Registry late s → (p.note ev).Registry left s') : Told late left s s' := by
  refine ⟨[ev], by rw [emitted, hops, List.filterMap_append, hev]; rfl, ?_⟩
  exact fun p hw hr => ⟨hw.same hq (htask p) (hjob p), h p hr⟩

end Told

theorem follow_leadership {evs : List ClusterEvent} (h : ∀ ev ∈ evs, ev.isLeadership = true)
    (p : Picture) : p.follow evs = p := by
  induction evs generalizing p with
  | nil => rfl
  | cons ev evs ih =>
      have hev := h ev List.mem_cons_self
      have hsame : p.note ev = p := by
        cases ev <;> first | rfl | cases hev
      rw [Picture.follow_cons, hsame]
      exact ih (fun ev' hev' => h ev' (List.mem_cons_of_mem _ hev')) p

theorem emitIf_emitted (s : Supervisor) (now : Millis) (ev : Option ClusterEvent) :
    (s.emitIf now ev).emitted = s.emitted ++ ev.toList := by
  cases ev with
  | none => simp [emitIf]
  | some ev => simp [emitIf, emitted, List.filterMap_append, DurableOp.event?]

variable (now) in
theorem refreshLeadership_told (s : Supervisor) : Told [] [] s (s.refreshLeadership now) := by
  obtain ⟨evs, he, hl⟩ : ∃ evs, (s.refreshLeadership now).emitted = s.emitted ++ evs ∧
      ∀ ev ∈ evs, ev.isLeadership = true := by
    unfold refreshLeadership
    split
    · refine ⟨(s.leader.map .leaderLost).toList ++ (s.elected.map .leaderElected).toList, ?_, ?_⟩
      · show (s.changeLeader now s.elected).emitted = _
        unfold changeLeader
        rw [← List.append_assoc, ← emitIf_emitted s now, ← emitIf_emitted _ now]
        rfl
      · intro ev hev
        rcases List.mem_append.mp hev with hev | hev <;>
          obtain ⟨n, -, rfl⟩ := Option.map_eq_some_iff.mp (Option.mem_toList.mp hev) <;> rfl
    · exact ⟨[], by simp [emitted, ops], by simp⟩
  refine ⟨evs, he, ?_⟩
  intro p hw hr
  rw [follow_leadership hl]
  refine ⟨hw.same (Quiet.refreshLeadership s now) rfl rfl, ?_⟩
  exact Picture.SameNodes.registry ⟨rfl, rfl⟩ hr (refreshLeadership_nodes s now)

/-- A node's work is put back once its departure was told. -/
theorem requeue_told {late left : List NodeId} (h : Told late left s s') (hw : s'.Wf) (hn : s'.Numbered)
    (n : NodeId) : Told late left s (s'.requeueTasksOf now n) :=
  h.trans (.of_reported (Moves.reported hn (requeueTasksOf_moves now hw n))
    (Moves.registry (requeueTasksOf_moves now hw n)).nodes)

theorem lose_told (hw : s.Wf) (hn : s.Numbered) (he : s.nodes[n]? = some e) :
    Told [] [] s (s.lose now n e) := by
  have hput : Quiet s ((s.putNode n (lostEntry e)).emit now (.nodeLeft n)) :=
    (Quiet.putNode s n _).trans (Quiet.emit _ now rfl)
  have hid : (lostEntry e).node.id = n := hw.nodeKey n e he
  have hmid : Evolves now s ((s.putNode n (lostEntry e)).emit now (.nodeLeft n)) :=
    .emit (.putNode (.refl s) hid) rfl
  refine requeue_told ?_ (hmid hw).2 (hput.numbered hn) n
  refine .said hput (l := [_]) (emit_ops _) rfl (fun _ => rfl) (fun _ => rfl) fun p hr => ?_
  exact hr.entry (e := lostEntry e) (fun _ _ h => h) (fun _ => Table.get_insert) rfl (fun _ _ => rfl)
    fun hk => hr.roles n e he hk

variable (now) in
theorem forget_told (s : Supervisor) (n : NodeId) : Told [] [] s (s.forget now n) := by
  refine .unsaid (l := [.queued (.roles n .empty now)]) ?_ (by simp [forget, ops]) rfl fun p hr => ?_
  · have herase : Quiet s { s with nodes := s.nodes.erase n } :=
      ⟨rfl, rfl, rfl, rfl, rfl, rfl, [], by simp, by simp⟩
    exact herase.trans (Quiet.persistRoles _ now n .empty)
  · have hkept (m : NodeId) (x : NodeEntry) (hx : (s.forget now n).nodes[m]? = some x) :
        s.nodes[m]? = some x := by
      rw [forget_nodes, Table.get_erase] at hx
      split at hx
      · cases hx
      · exact hx
    exact ⟨fun m x hx => hr.status m x (hkept m x hx), fun m x hx => hr.roles m x (hkept m x hx)⟩

/-- A worker that connects is announced; what it may do is known, or it was given its id. -/
theorem connect_told {late : List NodeId} (capabilities : NodeCapabilities)
    (he : s.nodes[n]? = some e ∨ e.kind = .remote false) (hlate : ∀ m ∈ late, m = n) :
    Told late [] s (s.connect now n capabilities e) := by
  have hq : Quiet s (s.connect now n capabilities e) := by
    have hput : Quiet s { s.putNode n (connectedEntry now capabilities s.nextChannel e) with
        nextChannel := s.nextChannel + 1 } :=
      ⟨rfl, rfl, rfl, rfl, rfl, rfl, [], by simp, by simp⟩
    exact (hput.trans (Quiet.persistRoles _ now n _)).trans (Quiet.emit _ now rfl)
  refine .said hq (l := [.queued (.roles n e.node.roles now),
    .queued (.event ⟨s.eventSeq + 1, now, .nodeJoined n⟩)]) (by simp [connect, connectedEntry, ops]) rfl
    (fun _ => rfl) (fun _ => rfl) fun p hr => ?_
  refine hr.entry (e := connectedEntry now capabilities s.nextChannel e)
    (fun m hm _ hl => hm (hlate m hl)) (fun m => ?_) rfl (fun _ _ => rfl) fun hk => ?_
  · rw [connect_nodes]
    exact Table.get_insert
  · rcases he with he | he
    · exact hr.roles n e he hk
    · exact absurd he hk

theorem rejoin_told (he : s.nodes[n]? = some e) : Told [] [] s (s.rejoin now n) := by
  have hlaunch : s.launchNode now n =
      { s.putNode n (launchedEntry now s.nextChannel e) with nextChannel := s.nextChannel + 1 } := by
    simp only [launchNode, he]
    rfl
  have hq : Quiet s (s.rejoin now n) := by
    unfold rejoin
    rw [hlaunch]
    refine Quiet.trans ?_ (Quiet.emit _ now rfl)
    exact ⟨rfl, rfl, rfl, rfl, rfl, rfl, [], by simp, by simp⟩
  refine .said hq (l := [.queued (.event ⟨s.eventSeq + 1, now, .nodeJoined n⟩)])
    (by simp [rejoin, hlaunch, ops]) rfl (fun _ => rfl) (fun _ => rfl) fun p hr => ?_
  refine hr.entry (e := launchedEntry now s.nextChannel e) (fun _ _ h => h) (fun m => ?_) rfl (fun _ _ => rfl)
    fun hk => hr.roles n e he hk
  rw [rejoin_nodes he]
  exact Table.get_insert

/-! ## Roles -/

theorem changeRole_told {role : Role} {enabled : Bool} (he : s.nodes[n]? = some e) :
    Told [] [] s (s.changeRole now n e role enabled) := by
  have hq : Quiet s (s.changeRole now n e role enabled) := by
    refine ((Quiet.putNode s n _).trans (Quiet.persistRoles _ now n _)).trans (Quiet.emit _ now ?_)
    cases enabled <;> rfl
  refine .said hq (l := [.queued (.roles n (withRole e role enabled).node.roles now),
    .queued (.event ⟨s.eventSeq + 1, now, if enabled then .roleAssigned n role else .roleRemoved n role⟩)])
    (by simp [changeRole, ops]) rfl (fun _ => by cases enabled <;> rfl)
    (fun _ => by cases enabled <;> rfl) fun p hr => ?_
  refine ⟨?_, ?_⟩
  · intro m x hx hl
    have hsame : (p.note (if enabled then .roleAssigned n role else .roleRemoved n role)).status =
        p.status := by cases enabled <;> rfl
    rw [hsame]
    rw [show (s.changeRole now n e role enabled).nodes =
      s.nodes.insert n (withRole e role enabled) from rfl, Table.get_insert] at hx
    split at hx
    · cases hx
      subst m
      exact hr.status n e he hl
    · exact hr.status m x hx hl
  · intro m x hx hk
    rw [show (s.changeRole now n e role enabled).nodes =
      s.nodes.insert n (withRole e role enabled) from rfl, Table.get_insert] at hx
    split at hx
    · cases hx
      subst m
      have hold := hr.roles n e he hk
      cases enabled <;> simp [note, withRole, hold]
    · rename_i hne
      have hold := hr.roles m x hx hk
      cases enabled <;> simp [note, Function.update_of_ne (Ne.symm hne), hold]

/-- An entry is replaced by one a reader cannot tell apart. -/
theorem putNode_told {e' : NodeEntry} (he : s.nodes[n]? = some e) (hstatus : e'.node.status = e.node.status)
    (hroles : e'.node.roles = e.node.roles) (hkind : e'.kind = e.kind) : Told [] [] s (s.putNode n e') := by
  refine .unsaid (Quiet.putNode s n e') (l := []) (by simp [ops]) rfl fun p hr => ?_
  refine ⟨?_, ?_⟩
  · intro m x hx hl
    rw [putNode_nodes, Table.get_insert] at hx
    split at hx
    · cases hx
      subst m
      rw [hstatus]
      exact hr.status n e he hl
    · exact hr.status m x hx hl
  · intro m x hx hk
    rw [putNode_nodes, Table.get_insert] at hx
    split at hx
    · cases hx
      subst m
      rw [hroles]
      exact hr.roles n e he (hkind ▸ hk)
    · exact hr.roles m x hx hk

theorem withRole_kept {role : Role} {enabled : Bool} (hr : e.node.roles.contains role = enabled) :
    (withRole e role enabled).node.roles = e.node.roles := by
  have key : ∀ b : BitVec 8, ∀ i < 6, (b &&& 1#8 <<< i != 0#8) = true → b ||| 1#8 <<< i = b := by decide
  have key' : ∀ b : BitVec 8, ∀ i < 6, (b &&& 1#8 <<< i != 0#8) = false → b &&& ~~~(1#8 <<< i) = b := by
    decide
  have hlt : role.index < 6 := by cases role <;> decide
  cases enabled with
  | true => exact congrArg RoleSet.mk (key _ _ hlt hr)
  | false => exact congrArg RoleSet.mk (key' _ _ hlt hr)

/-! ## The health sweep -/

theorem classifyEntry_known {health : HealthPolicy} (h : classifyEntry health now e ≠ e.node.status) :
    classifyEntry health now e ≠ .starting := by
  unfold classifyEntry at h ⊢
  split
  · rename_i hnone
    rw [if_pos hnone] at h
    exact absurd rfl h
  · unfold HealthPolicy.classify
    dsimp only
    split
    · simp
    · split <;> simp

/-- An event about the status of one node, which the registry records already. -/
theorem status_told {late : List NodeId} {st : NodeStatus} {ev : ClusterEvent}
    (hrecorded : ∀ e, s.nodes[n]? = some e → e.node.status = st)
    (hq : (Write.event ⟨s.eventSeq + 1, now, ev⟩).isQuiet = true)
    (hnote : ∀ p : Picture, p.note ev = { p with status := Function.update p.status n st }) :
    Told (n :: late) late s (s.emit now ev) := by
  refine .said (Quiet.emit s now hq) (emit_ops ev) rfl (fun p => by rw [hnote]) (fun p => by rw [hnote])
    fun p hr => ?_
  rw [hnote]
  refine ⟨?_, hr.roles⟩
  intro m x hx hl
  by_cases hm : m = n
  · subst hm
    rw [hrecorded x hx]
    exact Function.update_self _ _ _
  · refine (Function.update_of_ne hm _ _).trans (hr.status m x hx ?_)
    simp [hm, hl]

theorem noteTransition_told {late : List NodeId} {tr : NodeId × NodeStatus} (hw : s.Wf) (hn : s.Numbered)
    (hknown : tr.2 ≠ .starting) (hrecorded : ∀ e, s.nodes[tr.1]? = some e → e.node.status = tr.2) :
    Told (tr.1 :: late) late s (noteTransition now s tr) := by
  obtain ⟨n, st⟩ := tr
  cases st with
  | starting => exact absurd rfl hknown
  | healthy => exact status_told hrecorded rfl fun _ => rfl
  | suspect => exact status_told hrecorded rfl fun _ => rfl
  | offline =>
      have hq : Quiet s (s.emit now (.nodeLeft n)) := Quiet.emit s now rfl
      exact requeue_told (status_told hrecorded rfl fun _ => rfl) (hq.wf hw hw.nodeKey) (hq.numbered hn) n

/-- The transitions of a sweep are told one after another; the statuses are all recorded already. -/
theorem noteTransitions_told (trs : List (NodeId × NodeStatus)) (hw : s.Wf) (hn : s.Numbered)
    (hknown : ∀ tr ∈ trs, tr.2 ≠ .starting)
    (hrecorded : ∀ tr ∈ trs, ∀ e, s.nodes[tr.1]? = some e → e.node.status = tr.2) :
    Told (trs.map Prod.fst) [] s (trs.foldl (noteTransition now) s) := by
  induction trs generalizing s with
  | nil => exact .refl s
  | cons tr trs ih =>
      have hev : Evolves now s (noteTransition now s tr) := noteTransition_evolves tr
      obtain ⟨hsmooth, hw'⟩ := hev hw
      have hhead : Told (tr.1 :: trs.map Prod.fst) (trs.map Prod.fst) s (noteTransition now s tr) :=
        noteTransition_told hw hn (hknown tr List.mem_cons_self) (hrecorded tr List.mem_cons_self)
      have hnodes : (noteTransition now s tr).nodes = s.nodes :=
        (Working.noteTransitions now [tr] (Working.refl s)).nodes
      refine hhead.trans ?_
      refine ih hw' (hsmooth.numbered hn) (fun tr' h => hknown tr' (List.mem_cons_of_mem _ h)) ?_
      intro tr' h e he
      rw [hnodes] at he
      exact hrecorded tr' (List.mem_cons_of_mem _ h) e he

theorem sweepHealth_told (hw : s.Wf) (hn : s.Numbered) : Told [] [] s (s.sweepHealth now) := by
  have hq : Quiet s (s.swept now) := ⟨rfl, rfl, rfl, rfl, rfl, rfl, [], by simp, by simp [swept]⟩
  have hentry (n : NodeId) (e : NodeEntry) (he : (s.swept now).nodes[n]? = some e) :
      ∃ e₀, s.nodes[n]? = some e₀ ∧ e = sweptEntry s.config.health now e₀ := by
    simp only [swept, Std.TreeMap.getElem?_map] at he
    obtain ⟨e₀, he₀, rfl⟩ := Option.map_eq_some_iff.mp he
    exact ⟨e₀, he₀, rfl⟩
  have hw' : (s.swept now).Wf := by
    refine hq.wf hw fun n e he => ?_
    obtain ⟨e₀, he₀, rfl⟩ := hentry n e he
    exact hw.nodeKey n e₀ he₀
  have hmem (tr : NodeId × NodeStatus) (h : tr ∈ (s.nodes.rows.filter fun e =>
      classifyEntry s.config.health now e ≠ e.node.status).map
        fun e => (e.node.id, classifyEntry s.config.health now e)) :
      ∃ e₀, s.nodes[tr.1]? = some e₀ ∧ classifyEntry s.config.health now e₀ ≠ e₀.node.status ∧
        tr.2 = classifyEntry s.config.health now e₀ := by
    obtain ⟨e₀, he₀, rfl⟩ := List.mem_map.mp h
    obtain ⟨hrow, hne⟩ := List.mem_filter.mp he₀
    obtain ⟨k, hk⟩ := Table.mem_rows.mp hrow
    have hkey := hw.nodeKey k e₀ hk
    subst hkey
    exact ⟨e₀, hk, by simpa using hne, rfl⟩
  refine Told.trans ?_ (noteTransitions_told _ hw' (hq.numbered hn) ?_ ?_)
  · -- whoever is not in the list of transitions has the status it had
    refine .unsaid hq (l := []) (by simp [ops]) rfl fun p hr => ⟨?_, ?_⟩
    · intro n e he hl
      obtain ⟨e₀, he₀, rfl⟩ := hentry n e he
      rw [hr.status n e₀ he₀ (by simp)]
      by_contra hne
      refine hl (List.mem_map.mpr ⟨(e₀.node.id, classifyEntry s.config.health now e₀), ?_, hw.nodeKey n e₀ he₀⟩)
      refine List.mem_map.mpr ⟨e₀, List.mem_filter.mpr ⟨Table.mem_rows.mpr ⟨n, he₀⟩, ?_⟩, rfl⟩
      simpa using fun heq => hne heq.symm
    · intro n e he hk
      obtain ⟨e₀, he₀, rfl⟩ := hentry n e he
      exact hr.roles n e₀ he₀ hk
  · intro tr h
    obtain ⟨e₀, -, hne, heq⟩ := hmem tr h
    rw [heq]
    exact classifyEntry_known hne
  · intro tr h e he
    obtain ⟨e₀, he₀, -, heq⟩ := hmem tr h
    obtain ⟨e₁, he₁, rfl⟩ := hentry tr.1 e he
    cases he₀.symm.trans he₁
    exact heq.symm

/-! ## Every input -/

theorem atDispatch_told (hw : s.Wf) (hn : s.Numbered) {i : Input} {d : Supervisor}
    (h : s.atDispatch now i = some d) : Told [] [] s d := by
  have hd := handled s now i
  rw [h] at hd
  generalize s.handle now i = s' at hd
  cases hd with
  | admitted spec =>
      exact .of_reported (Move.reported hn (.enrol spec)) (enrol_frame s now spec).nodes
  | stopped he hh hd => exact hd ▸ (lose_told hw hn he).trans (refreshLeadership_told now _)
  | started he hh hk hd => exact hd ▸ (rejoin_told he).trans (refreshLeadership_told now _)
  | @joined n capabilities hfree e he _ hd =>
      -- the entry is new: its status is told by the event of its connection
      have hkind : e.kind = .remote false := by rw [he]; rfl
      have hput : Told [] [n] s (s.putNode n e) := by
        refine .unsaid (Quiet.putNode s n e) (l := []) (by simp [ops]) rfl fun p hr => ⟨?_, ?_⟩
        · intro m x hx hl
          rw [putNode_nodes, Table.get_insert_ne fun h => hl (by simp [h])] at hx
          exact hr.status m x hx (by simp)
        · intro m x hx hk
          rw [putNode_nodes, Table.get_insert] at hx
          split at hx
          · cases hx
            exact absurd hkind hk
          · exact hr.roles m x hx hk
      have hconnect : Told [n] [] (s.putNode n e) ((s.putNode n e).connect now n capabilities e) :=
        connect_told capabilities (.inr hkind) fun m hm => List.mem_singleton.mp hm
      exact hd ▸ (hput.trans hconnect).trans (refreshLeadership_told now _)
  | @attached n e capabilities he ha _ hd =>
      have hconnect : Told [] [] s (s.connect now n capabilities e) :=
        connect_told capabilities (.inl he) fun m hm => absurd hm List.not_mem_nil
      exact hd ▸ hconnect.trans (refreshLeadership_told now _)
  | detached he hh hk hd => exact hd ▸ (lose_told hw hn he).trans (refreshLeadership_told now _)
  | forgotten he hh hk hd =>
      exact hd ▸ ((lose_told hw hn he).trans (forget_told now _ _)).trans (refreshLeadership_told now _)
  | taskFinished n t outcome hd =>
      have hm : Moves now s (s.finishTask now n t.id outcome) := finishTask_moves hw n t.id outcome
      exact hd ▸ .of_reported (Moves.reported hn hm) (Moves.registry hm).nodes
  | ticked hd => exact hd ▸ (sweepHealth_told hw hn).trans (refreshLeadership_told now _)

theorem deliver_told (c : ChannelId) (m : Mailbox) : Told [] [] s (s.deliver c m) := by
  have hq : Quiet s (s.deliver c m) :=
    ⟨rfl, rfl, rfl, rfl, rfl, rfl, [], by simp, by simp [Supervisor.deliver]⟩
  exact .unsaid hq (l := []) (by simp [Supervisor.deliver, ops]) rfl fun p hr => ⟨hr.status, hr.roles⟩

variable (now) in
theorem handle_told (hw : s.Wf) (hn : s.Numbered) (i : Input) :
    Told [] [] s (s.handle now i) ∧ (s.handle now i).Numbered := by
  cases hd : s.atDispatch now i with
  | some d =>
      have hstart := atDispatch_told hw hn hd
      obtain ⟨hsmooth, hwd⟩ := atDispatch_evolves hd hw
      obtain ⟨hrep, hnum⟩ := (dispatch_steps now hwd).reported (hsmooth.numbered hn)
      have hdispatch : Told [] [] d (d.dispatch now) := .of_reported hrep (dispatch_nodes d now)
      rcases handle_after_dispatch hd with heq | heq
      · rw [heq]
        exact ⟨hstart.trans hdispatch, hnum⟩
      · have hprune : Move now (d.dispatch now) (d.dispatch now).pruneMemory := .prune
        rw [heq]
        refine ⟨(hstart.trans hdispatch).trans ?_, hprune.numbered hnum⟩
        exact .of_reported (hprune.reported hnum) (prune_nodes _)
  | none =>
      have hnum : (s.handle now i).Numbered := (handle_evolves hd hw).1.numbered hn
      refine ⟨?_, hnum⟩
      have hh := handled s now i
      rw [hd] at hh
      generalize s.handle now i = s' at hh
      cases hh with
      | ignored => exact .refl s
      | reservedJob spec detail =>
          have hm : Move now s s.reserveJob := .reserveJob
          exact .of_reported (hm.reported hn) rfl
      | reservedTasks spec detail =>
          have hm : Move now s s.reserveJob := .reserveJob
          have hm' : Move now s.reserveJob (s.reserveJob.reserveTasks spec.split.length) := .reserveTasks _
          exact .of_reported ((hm.reported hn).trans (hm'.reported (hm.numbered hn))) rfl
      | roleKept role enabled he hr => exact putNode_told he rfl (withRole_kept hr) rfl
      | roleChanged role enabled he hr => exact (changeRole_told he).trans (refreshLeadership_told now _)
      | paused paused he hh hm => exact (deliver_told _ _).trans (putNode_told he rfl rfl rfl)
      | injected count he hh hm => exact deliver_told _ _
      | delayed ms he hh hm => exact deliver_told _ _
      | beat hb he => exact putNode_told he rfl rfl rfl
      | taskStarted n t =>
          have hm : Moves now s (s.handleReport now (.taskStarted n t)) := taskStarted_moves hw n t
          exact .of_reported (Moves.reported hn hm) (Moves.registry hm).nodes
      | received c => exact deliver_told _ _
      | closed c hc => exact deliver_told _ _

/-! ## Every run -/

/-- What a reader takes from the tables is right. -/
theorem picture_work (hn : s.Numbered) : s.picture.Work s where
  task id t ht := by simp [picture, ht]
  job id j hj := by simp [picture, hj]
  ahead id hid := by
    cases ht : s.tasks[id]? with
    | none => simp [picture, ht]
    | some t => exact absurd (hn.task id t ht) (Nat.not_le.mpr hid)

theorem picture_registry (s : Supervisor) : s.picture.Registry [] s where
  status n e he _ := by simp [picture, he]
  roles n e he _ := by simp [picture, he]

/-- From any store a process may find: a reader that takes the tables at any moment of a run and follows the
events from then on has the right picture at every later moment. -/
theorem events_tell_everything (config : LocalClusterConfig) (scheduler : Scheduler) (elector : Elector)
    {store : Store} (hstore : store.Reachable) (boot : Millis) (before after : List Turn) :
    let s := Run.final step (bootstrap config scheduler elector store boot) before
    let s' := Run.final step s after
    ∃ evs, s'.emitted = s.emitted ++ evs ∧ (s.picture.follow evs).Shows s' := by
  intro s s'
  have hkeep (s : Supervisor) (t : Turn) (h : s.Wf ∧ s.Numbered) : (s.step t).Wf ∧ (s.step t).Numbered :=
    ⟨handle_wf t.1 h.1 t.2, (handle_told t.1 h.1 h.2 t.2).2⟩
  have hboot : Settled (bootstrap config scheduler elector store boot) :=
    bootstrap_settled config scheduler elector hstore.stored
  have hs : s.Wf ∧ s.Numbered := Run.invariant_final hkeep before ⟨hboot.wf, hboot.numbered⟩
  have htold : Told [] [] s s' := Run.related (R := Told [] []) Told.refl (fun _ _ _ _ => Told.trans)
    (fun s t h => ⟨hkeep s t h, (handle_told t.1 h.1 h.2 t.2).1⟩) after hs
  obtain ⟨evs, he, hp⟩ := htold
  obtain ⟨hwork, hreg⟩ := hp s.picture (picture_work hs.2) (picture_registry s)
  exact ⟨evs, he, hwork.shows hreg⟩

/-- The tables are taken when a worker has joined; it then falls silent while it holds a task. -/
theorem events_tell_everything_silence :
    let s := Run.final step (bootstrap (.oneWorker 5 ⟨4, 8⟩) leastLoaded lowestHealthyId .empty 0)
      [(0, .attachRemote (some 5) ⟨4, 8⟩)]
    let s' := Run.final step s [(1, .submitJob (.sleep 100 1) none), (3500, .tick)]
    ∃ evs, s'.emitted = s.emitted ++ evs ∧ (s.picture.follow evs).Shows s' :=
  events_tell_everything (.oneWorker 5 ⟨4, 8⟩) leastLoaded lowestHealthyId .empty 0 _ _

end Supervisor

end Gavel.Cluster
