import Gavel.Cluster.Lemmas.Fields

/-!
# Dispatch

One pass over the queue is a sequence of decisions, one for each task at its head. Read that way, the
loop is a sequence of moves that may end in a bounce.
-/

namespace Gavel.Cluster

/-!
## What every move keeps

Two facts about the tables let the operations be read as moves: rows carry their own key, and a queued
task is assigned to nobody. Moves keep both, and leave the registry and the leadership alone.
-/

namespace Job

@[simp] theorem start_id (j : Job) : j.start.id = j.id := by unfold start; split <;> rfl

@[simp] theorem settle_id (j : Job) (now : Millis) : (j.settle now).id = j.id := by
  unfold settle; split <;> rfl

end Job

namespace Supervisor

variable {s s' : Supervisor} {now : Millis}

/-- Rows carry their own key, and a queued task is assigned to nobody. -/
structure Wf (s : Supervisor) : Prop where
  taskKey : ∀ (id : TaskId) t, s.tasks[id]? = some t → t.id = id
  jobKey : ∀ (id : JobId) j, s.jobs[id]? = some j → j.id = id
  nodeKey : ∀ (n : NodeId) e, s.nodes[n]? = some e → e.node.id = n
  unassigned : ∀ (id : TaskId) t, s.tasks[id]? = some t → t.state = .queued → t.assignedTo = none

/-- What no move touches. -/
structure SameRegistry (s s' : Supervisor) : Prop where
  config : s'.config = s.config
  scheduler : s'.scheduler = s.scheduler
  elector : s'.elector = s.elector
  nodes : s'.nodes = s.nodes
  leader : s'.leader = s.leader
  gateway : s'.gateway = s.gateway
  nextChannel : s'.nextChannel = s.nextChannel

theorem JobsOnly.registry (h : JobsOnly s s') : SameRegistry s s' :=
  ⟨h.config, h.scheduler, h.elector, h.nodes, h.leader, h.gateway, h.nextChannel⟩

theorem SameRegistry.refl (s : Supervisor) : SameRegistry s s := ⟨rfl, rfl, rfl, rfl, rfl, rfl, rfl⟩

theorem SameRegistry.trans {s'' : Supervisor} (h : SameRegistry s s') (h' : SameRegistry s' s'') :
    SameRegistry s s'' :=
  ⟨h'.config.trans h.config, h'.scheduler.trans h.scheduler, h'.elector.trans h.elector,
    h'.nodes.trans h.nodes, h'.leader.trans h.leader, h'.gateway.trans h.gateway,
    h'.nextChannel.trans h.nextChannel⟩

/-- A base that differs from `s` in the work only, followed by a job update. -/
theorem SameRegistry.of_frame {b : Supervisor} (h : JobsOnly b s')
    (hb : SameRegistry s b) : SameRegistry s s' := hb.trans h.registry

theorem Move.registry (h : Move now s s') : SameRegistry s s' := by
  cases h with
  | drop hq ht => exact ⟨rfl, rfl, rfl, rfl, rfl, rfl, rfl⟩
  | place => exact .of_frame (place_frame ..) ⟨rfl, rfl, rfl, rfl, rfl, rfl, rfl⟩
  | start => exact .of_frame (markStarted_frame ..) ⟨rfl, rfl, rfl, rfl, rfl, rfl, rfl⟩
  | complete => exact .of_frame (markCompleted_frame ..) ⟨rfl, rfl, rfl, rfl, rfl, rfl, rfl⟩
  | retry => exact .of_frame (retry_frame ..) ⟨rfl, rfl, rfl, rfl, rfl, rfl, rfl⟩
  | giveUp => exact .of_frame (giveUp_frame ..) ⟨rfl, rfl, rfl, rfl, rfl, rfl, rfl⟩
  | reserveJob => exact ⟨rfl, rfl, rfl, rfl, rfl, rfl, rfl⟩
  | reserveTasks => exact ⟨rfl, rfl, rfl, rfl, rfl, rfl, rfl⟩
  | enrol => exact .of_frame (enrol_frame ..) ⟨rfl, rfl, rfl, rfl, rfl, rfl, rfl⟩
  | prune => exact .of_frame (prune_frame _) ⟨rfl, rfl, rfl, rfl, rfl, rfl, rfl⟩

theorem Moves.registry (h : Moves now s s') : SameRegistry s s' := by
  induction h with
  | refl => exact .refl s
  | tail _ hm ih => exact ih.trans hm.registry

/-! ## Moves keep the tables well formed -/

theorem Wf.insert_task (h : s.Wf) {t : Task} (ht : t.state = .queued → t.assignedTo = none)
    (htasks : s'.tasks = s.tasks.insert t.id t) (hnodes : s'.nodes = s.nodes)
    (hjobs : ∀ (id : JobId) j, s'.jobs[id]? = some j → j.id = id) : s'.Wf where
  taskKey := by
    intro id u hu
    rw [htasks, Table.get_insert] at hu
    split at hu
    · cases hu; assumption
    · exact h.taskKey id u hu
  jobKey := hjobs
  nodeKey := hnodes ▸ h.nodeKey
  unassigned := by
    intro id u hu
    rw [htasks, Table.get_insert] at hu
    split at hu
    · cases hu; exact ht
    · exact h.unassigned id u hu

theorem Wf.map_job (h : s.Wf) {f : Job → Job} {k : JobId} (hf : ∀ j, (f j).id = j.id)
    (hjobs : ∀ a : JobId, s'.jobs[a]? = if k = a then s.jobs[a]?.map f else s.jobs[a]?) :
    ∀ (id : JobId) j, s'.jobs[id]? = some j → j.id = id := by
  intro id j hj
  rw [hjobs] at hj
  split at hj
  · obtain ⟨j', hj', rfl⟩ := Option.map_eq_some_iff.mp hj
    rw [hf, h.jobKey id j' hj']
  · exact h.jobKey id j hj

theorem Move.wf (h : s.Wf) (hm : Move now s s') : s'.Wf := by
  cases hm with
  | drop hq ht => exact ⟨h.taskKey, h.jobKey, h.nodeKey, h.unassigned⟩
  | @place t rest n e c m =>
      have hf := place_frame s now rest (t.assignedOn n now) n c m
      refine h.insert_task (by intro hst; cases hst) hf.tasks hf.nodes ?_
      exact h.map_job Job.start_id (place_jobs s now rest _ n c m)
  | start => exact h.insert_task (by intro hst; cases hst) rfl rfl h.jobKey
  | @complete t n output =>
      have hf := markCompleted_frame s now n (t.completedAt output now)
      refine h.insert_task (by intro hst; cases hst) hf.tasks hf.nodes ?_
      exact h.map_job (f := fun j => j.countCompleted.settle now) (by simp [Job.countCompleted])
        (markCompleted_jobs s now n _)
  | @retry t n reason detail =>
      have hf := retry_frame s now n t (t.requeuedAt now) reason detail
      refine h.insert_task (fun _ => rfl) hf.tasks hf.nodes ?_
      rw [putBack_jobs, noteFailure_jobs]
      exact h.jobKey
  | @giveUp t n reason detail =>
      have hf := giveUp_frame s now n t (t.failedAt now) reason detail
      refine h.insert_task (by intro hst; cases hst) hf.tasks hf.nodes ?_
      have hj := markFailed_jobs (s.noteFailure now n t reason detail) now (t.failedAt now)
      rw [noteFailure_jobs] at hj
      exact h.map_job (f := fun j => j.countFailed.settle now) (by simp [Job.countFailed]) hj
  | reserveJob => exact ⟨h.taskKey, h.jobKey, h.nodeKey, h.unassigned⟩
  | reserveTasks => exact ⟨h.taskKey, h.jobKey, h.nodeKey, h.unassigned⟩
  | enrol spec =>
      have hf := enrol_frame s now spec
      refine ⟨?_, ?_, hf.nodes ▸ h.nodeKey, ?_⟩
      · intro id t ht
        rw [hf.tasks] at ht
        rcases Table.get_insertAll_some ht with ⟨_, hk⟩ | ⟨hm, _⟩
        · exact hk
        · exact h.taskKey id t hm
      · intro id j hj
        rw [enrol_jobs, Table.get_insert] at hj
        split at hj
        · cases hj; assumption
        · exact h.jobKey id j hj
      · intro id t ht
        rw [hf.tasks] at ht
        rcases Table.get_insertAll_some ht with ⟨hmem, _⟩ | ⟨hm, _⟩
        · obtain ⟨i, sp, _, rfl⟩ := mem_newTasks hmem
          exact fun _ => rfl
        · exact h.unassigned id t hm
  | prune =>
      refine ⟨?_, ?_, (prune_frame s).nodes ▸ h.nodeKey, ?_⟩
      · intro id t ht
        rw [prune_tasks] at ht
        exact h.taskKey id t (Option.filter_eq_some_iff.mp ht).1
      · intro id j hj
        rw [prune_jobs] at hj
        split at hj
        · cases hj
        · exact h.jobKey id j hj
      · intro id t ht
        rw [prune_tasks] at ht
        exact h.unassigned id t (Option.filter_eq_some_iff.mp ht).1

theorem Bounce.wf (h : s.Wf) (hb : Bounce now s s') : s'.Wf := by
  cases hb
  exact h.insert_task (fun _ => rfl) rfl rfl h.jobKey

theorem Moves.wf (h : s.Wf) (hm : Moves now s s') : s'.Wf := by
  induction hm with
  | refl => exact h
  | tail _ hm ih => exact hm.wf ih

/-- A quiet change keeps the tables; the registry is the caller's to account for. -/
theorem Quiet.wf (h : s.Wf) (hq : Quiet s s')
    (hn : ∀ (n : NodeId) e, s'.nodes[n]? = some e → e.node.id = n) : s'.Wf :=
  ⟨hq.tasks ▸ h.taskKey, hq.jobs ▸ h.jobKey, hn, hq.tasks ▸ h.unassigned⟩

end Supervisor

end Gavel.Cluster

namespace Gavel.Cluster.Supervisor

variable {s s' : Supervisor} {now : Millis}

/-! ## Candidates -/

/-- The scheduler only picks idle, healthy compute nodes with a live handle. -/
theorem selected_candidate (h : s.Wf) {t : Task} {busy : List NodeId} {n : NodeId}
    (hsel : s.scheduler.selectNode t (s.candidates busy) = some n) :
    ∃ e c, s.nodes[n]? = some e ∧ e.handle = some c ∧ e.node.isSchedulable = true ∧ n ∉ busy := by
  obtain ⟨node, hnode, rfl⟩ := s.scheduler.selects_given t _ _ hsel
  obtain ⟨hmem, hsch⟩ := List.mem_filter.mp hnode
  obtain ⟨e, he, rfl⟩ := List.mem_map.mp hmem
  obtain ⟨he, hbusy⟩ := List.mem_filter.mp he
  obtain ⟨he, hlive⟩ := List.mem_filter.mp he
  obtain ⟨k, hk⟩ := Table.mem_rows.mp he
  obtain ⟨c, hc⟩ := Option.isSome_iff_exists.mp (Bool.and_eq_true_iff.mp hlive).1
  rw [h.nodeKey k e hk] at hbusy ⊢
  exact ⟨e, c, hk, hc, hsch, by simpa using hbusy⟩

theorem trySend_none {m : Mailbox} {msg : NodeInbox} (h : m.trySend msg = none) :
    m.accepts = false := by
  unfold Mailbox.trySend at h
  split at h
  · cases h
  · simpa using ‹¬ m.accepts = true›

theorem idle_of_not_busy {n : NodeId} (h : n ∉ s.busyNodes) : s.Idle n := by
  intro id t ht hheld hn
  refine h (List.mem_filterMap.mpr ⟨t, ?_, hn⟩)
  exact List.mem_filter.mpr ⟨Table.mem_rows.mpr ⟨id, ht⟩, hheld⟩

/-- Placing a task on `n` leaves every other node as idle as it was. -/
theorem idle_insert {n : NodeId} {t : Task} (htasks : s'.tasks = s.tasks.insert t.id t)
    (hn : t.assignedTo ≠ some n) (h : s.Idle n) : s'.Idle n := by
  intro id u hu hheld
  rw [htasks, Table.get_insert] at hu
  split at hu
  · cases hu; exact hn
  · exact h id u hu hheld

/-! ## Decisions -/

/-- What the loop does with the task at the head of the queue. -/
inductive Decision where
  | skip
  | wait
  | bounce (t : Task) (n : NodeId)
  | place (t : Task) (n : NodeId) (c : ChannelId) (m : Mailbox)

def decision (s : Supervisor) (now : Millis) (busy : List NodeId) (id : TaskId) : Decision :=
  match s.tasks[id]? with
  | none => .skip
  | some t =>
      match s.scheduler.selectNode t (s.candidates busy) with
      | none => .wait
      | some n =>
          if t.state = .queued then
            match s.nodes[n]?.bind NodeEntry.handle with
            | none => .bounce t n
            | some c =>
                match (s.mailboxes c).trySend (.assign (t.assignedOn n now)) with
                | none => .bounce t n
                | some m => .place t n c m
          else .skip

theorem sendAssign_eq (n : NodeId) (t : Task) : s.sendAssign n t =
    (s.nodes[n]?.bind NodeEntry.handle).bind fun c =>
      ((s.mailboxes c).trySend (.assign t)).map fun m =>
        { s with mailboxes := Function.update s.mailboxes c m } := by
  unfold sendAssign
  cases s.nodes[n]? with
  | none => rfl
  | some e =>
      cases hh : e.handle with
      | none => simp [hh]
      | some c => cases hm : (s.mailboxes c).trySend (.assign t) <;> simp [hh, hm]

theorem dispatchLoop_cons (id : TaskId) (rest : List TaskId) (busy : List NodeId) :
    dispatchLoop now (id :: rest) busy s =
      match s.decision now busy id with
      | .skip => dispatchLoop now rest busy { s with queue := rest }
      | .wait => s
      | .bounce t n => s.bounce rest ((t.assignedOn n now).requeuedAt now)
      | .place t n c m =>
          dispatchLoop now rest (n :: busy) (s.place now rest (t.assignedOn n now) n c m) := by
  rw [dispatchLoop, decision]
  cases s.tasks[id]? with
  | none => rfl
  | some t =>
      cases hsel : s.scheduler.selectNode t (s.candidates busy) with
      | none => simp only [hsel]
      | some n =>
          by_cases hst : t.state = .queued
          · have ha := (Task.assign_ok (n := n) now).mpr ⟨hst, rfl⟩
            have hb := (Task.requeue_ok (t := t.assignedOn n now) now).mpr ⟨.inl rfl, rfl⟩
            simp only [Task.assignedOn] at hb
            simp only [hsel, ha, hst, if_true, sendAssign_eq, Task.assignedOn]
            cases s.nodes[n]?.bind NodeEntry.handle with
            | none => simp only [Option.bind_none, hb]; rfl
            | some c =>
                simp only [Option.bind_some]
                cases (s.mailboxes c).trySend _ with
                | none => simp only [Option.map_none, hb]; rfl
                | some m => rfl
          · cases ha : t.assign n now with
            | error e => simp only [hsel, ha, hst, if_false]
            | ok t' => exact absurd ((Task.assign_ok _).mp ha).1 hst

variable (now) in
/-- What a decision tells about the state it is taken in. -/
theorem decision_spec (h : s.Wf) (busy : List NodeId) (id : TaskId) :
    match s.decision now busy id with
    | .skip => ∀ t, s.tasks[id]? = some t → t.state ≠ .queued
    | .wait => True
    | .bounce t n => t.id = id ∧ s.tasks[id]? = some t ∧ t.state = .queued ∧
        ∃ e c, s.nodes[n]? = some e ∧ e.handle = some c ∧ (s.mailboxes c).accepts = false
    | .place t n c m => t.id = id ∧ s.tasks[id]? = some t ∧ t.state = .queued ∧ n ∉ busy ∧
        (∃ e, s.nodes[n]? = some e ∧ e.handle = some c ∧ e.node.isSchedulable = true) ∧
        (s.mailboxes c).trySend (.assign (t.assignedOn n now)) = some m := by
  unfold decision
  cases ht : s.tasks[id]? with
  | none => simp
  | some t =>
      have hid := h.taskKey id t ht
      cases hsel : s.scheduler.selectNode t (s.candidates busy) with
      | none => simp only [hsel]
      | some n =>
          obtain ⟨e, c, he, hh, hsch, hnb⟩ := selected_candidate h hsel
          by_cases hst : t.state = .queued
          · simp only [hsel, hst, if_true, he, Option.bind_some, hh]
            cases hm : (s.mailboxes c).trySend (.assign (t.assignedOn n now)) with
            | none => exact ⟨hid, rfl, hst, e, c, he, hh, trySend_none hm⟩
            | some m => exact ⟨hid, rfl, hst, hnb, ⟨e, he, hh, hsch⟩, hm⟩
          · simp only [hsel, hst, if_false]
            intro u hu
            cases hu
            exact hst

/-! ## The loop as moves -/

/-- Dispatch picks a node whose inbox refuses the assignment. -/
def dispatchRefused (now : Millis) : List TaskId → List NodeId → Supervisor → Bool
  | [], _, _ => false
  | id :: rest, busy, s =>
      match s.decision now busy id with
      | .skip => dispatchRefused now rest busy { s with queue := rest }
      | .wait => false
      | .bounce _ _ => true
      | .place t n c m =>
          dispatchRefused now rest (n :: busy) (s.place now rest (t.assignedOn n now) n c m)

/-- Moves, then a bounce if one of the assignments is refused. -/
def Dispatched (now : Millis) (refused : Bool) (s s' : Supervisor) : Prop :=
  if refused then ∃ d, Moves now s d ∧ Bounce now d s' else Moves now s s'

theorem Dispatched.head {refused : Bool} {s'' : Supervisor} (hm : Move now s s')
    (h : Dispatched now refused s' s'') : Dispatched now refused s s'' := by
  cases refused with
  | false => exact Relation.ReflTransGen.head hm h
  | true =>
      obtain ⟨d, hd, hb⟩ := h
      exact ⟨d, .head hm hd, hb⟩

theorem dispatchLoop_steps (queue : List TaskId) (busy : List NodeId) (h : s.Wf)
    (hq : s.queue = queue) (hb : ∀ n, n ∉ busy → s.Idle n) :
    Dispatched now (dispatchRefused now queue busy s) s (dispatchLoop now queue busy s) := by
  induction queue generalizing s busy with
  | nil => exact Relation.ReflTransGen.refl
  | cons id rest ih =>
      have hspec := decision_spec now h busy id
      rw [dispatchLoop_cons, dispatchRefused]
      cases hd : s.decision now busy id with
      | skip =>
          rw [hd] at hspec
          have hm : Move now s { s with queue := rest } := .drop hq hspec
          exact .head hm (ih busy (hm.wf h) rfl hb)
      | wait => exact Relation.ReflTransGen.refl
      | bounce t n =>
          rw [hd] at hspec
          obtain ⟨rfl, ht, hst, e, c, he, hh, hm⟩ := hspec
          exact ⟨s, .refl, .intro hq ht hst he hh hm⟩
      | place t n c m =>
          rw [hd] at hspec
          obtain ⟨rfl, ht, hst, hnb, ⟨e, he, hh, hsch⟩, hm⟩ := hspec
          have hmove := Move.place hq ht hst he hh hsch (hb n hnb) hm
          have hf := place_frame s now rest (t.assignedOn n now) n c m
          refine .head hmove (ih (n :: busy) (hmove.wf h) hf.queue ?_)
          intro k hk
          obtain ⟨hkn, hkb⟩ := not_or.mp (mt List.mem_cons.mpr hk)
          refine idle_insert hf.tasks ?_ (hb k hkb)
          intro heq
          exact hkn (Option.some.inj heq).symm

/-- An assignment of the next dispatch is refused. -/
def refusal (s : Supervisor) (now : Millis) : Bool := dispatchRefused now s.queue s.busyNodes s

variable (now) in
theorem dispatch_steps (h : s.Wf) : Dispatched now (s.refusal now) s (s.dispatch now) :=
  dispatchLoop_steps s.queue s.busyNodes h rfl fun _ => idle_of_not_busy

theorem Dispatched.changes {refused : Bool} (h : Dispatched now refused s s') : Changes now s s' := by
  cases refused with
  | false => exact (Moves.smooths h).changes
  | true =>
      obtain ⟨d, hd, hb⟩ := h
      exact (Moves.smooths hd).changes.tail (.bounce hb)

theorem Dispatched.wf {refused : Bool} (hw : s.Wf) (h : Dispatched now refused s s') : s'.Wf := by
  cases refused with
  | false => exact Moves.wf hw h
  | true =>
      obtain ⟨d, hd, hb⟩ := h
      exact hb.wf (Moves.wf hw hd)

end Gavel.Cluster.Supervisor
