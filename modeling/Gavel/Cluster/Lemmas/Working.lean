import Gavel.Cluster.Lemmas.Dispatch
import Gavel.Cluster.Lemmas.Shape

/-!
# The work leaves the registry alone

Placing, finishing, requeueing, admitting and pruning touch neither the registry nor the leadership,
and write neither roles nor leadership events. None of this depends on what the tables hold.
-/

namespace Gavel.Cluster

/-- The event an operation writes, if it writes one. -/
def DurableOp.event? : DurableOp → Option ClusterEvent
  | .queued (.event r) => some r.event
  | _ => none

/-- The event is about who leads. -/
def ClusterEvent.isLeadership : ClusterEvent → Bool
  | .leaderElected _ | .leaderLost _ => true
  | _ => false

/-- The operation writes neither roles nor a leadership event. -/
def DurableOp.isWork : DurableOp → Bool
  | .queued (.roles _ _ _) => false
  | op => op.event?.all fun ev => !ev.isLeadership

namespace Supervisor

variable {s s' s'' : Supervisor} {now : Millis}

/-- The events emitted so far, in order. -/
def emitted (s : Supervisor) : List ClusterEvent := s.ops.filterMap DurableOp.event?

/-- Only the work changed. -/
structure Working (s s' : Supervisor) : Prop extends SameRegistry s s' where
  ops : ∃ new, s'.ops = s.ops ++ new ∧ ∀ op ∈ new, op.isWork = true

namespace Working

theorem refl (s : Supervisor) : Working s s := ⟨.refl s, [], by simp, by simp⟩

theorem trans (h : Working s s') (h' : Working s' s'') : Working s s'' := by
  obtain ⟨new, hnew, hw⟩ := h.ops
  obtain ⟨new', hnew', hw'⟩ := h'.ops
  refine ⟨h.toSameRegistry.trans h'.toSameRegistry, new ++ new', ?_, ?_⟩
  · rw [hnew', hnew, List.append_assoc]
  · intro op hop
    rcases List.mem_append.mp hop with hop | hop
    · exact hw op hop
    · exact hw' op hop

/-- Changes of the tables, the queue, the mailboxes and the id sequences. -/
theorem tables (h : Working s s') (jobs : Table Job) (tasks : Table Task) (queue : List TaskId)
    (mailboxes : ChannelId → Mailbox) (jobSeq taskSeq : Nat) :
    Working s { s' with
      jobs := jobs, tasks := tasks, queue := queue, mailboxes := mailboxes
      jobSeq := jobSeq, taskSeq := taskSeq } :=
  ⟨⟨h.config, h.scheduler, h.elector, h.nodes, h.leader, h.gateway, h.nextChannel⟩, h.ops⟩

theorem issue (h : Working s s') {op : DurableOp} (hop : op.isWork = true) :
    Working s (s'.issue op) := by
  refine h.trans ⟨⟨rfl, rfl, rfl, rfl, rfl, rfl, rfl⟩, [op], issue_ops op, ?_⟩
  simpa using hop

theorem emit (h : Working s s') {ev : ClusterEvent} (hev : ev.isLeadership = false) :
    Working s (s'.emit now ev) := by
  refine h.trans ⟨⟨rfl, rfl, rfl, rfl, rfl, rfl, rfl⟩, _, emit_ops ev, ?_⟩
  simp [DurableOp.isWork, DurableOp.event?, hev]

theorem putTask (h : Working s s') (t : Task) : Working s (s'.putTask t) :=
  h.tables s'.jobs (s'.tasks.insert t.id t) s'.queue s'.mailboxes s'.jobSeq s'.taskSeq

theorem putJob (h : Working s s') (id : JobId) (j : Job) : Working s (s'.putJob id j) :=
  h.tables (s'.jobs.insert id j) s'.tasks s'.queue s'.mailboxes s'.jobSeq s'.taskSeq

theorem withQueue (h : Working s s') (queue : List TaskId) : Working s { s' with queue := queue } :=
  h.tables s'.jobs s'.tasks queue s'.mailboxes s'.jobSeq s'.taskSeq

theorem deliver (h : Working s s') (c : ChannelId) (m : Mailbox) : Working s (s'.deliver c m) :=
  h.tables s'.jobs s'.tasks s'.queue _ s'.jobSeq s'.taskSeq

theorem saveTask (h : Working s s') (t : Task) : Working s ((s'.putTask t).persistTask t) :=
  (h.putTask t).issue rfl

theorem saveJob (h : Working s s') (id : JobId) (j : Job) :
    Working s ((s'.putJob id j).persistJob j) := (h.putJob id j).issue rfl

theorem startJobIfQueued (h : Working s s') (id : JobId) :
    Working s (s'.startJobIfQueued now id) := by
  unfold Supervisor.startJobIfQueued
  split
  · exact h
  · split
    · split
      · exact h.saveJob id _
      · exact h
    · exact h

theorem updateJob (h : Working s s') (id : JobId) (f : Job → Job) :
    Working s (s'.updateJob id f) := by
  unfold Supervisor.updateJob
  split
  · exact h
  · exact h.saveJob id _

theorem settleJob (h : Working s s') (id : JobId) : Working s (s'.settleJob now id) := by
  unfold Supervisor.settleJob
  split
  · exact h
  · split
    · exact h
    · split
      · exact h
      · dsimp only
        split
        · exact h
        · refine (h.saveJob id _).emit ?_
          split <;> rfl

theorem retryOrGiveUp (h : Working s s') (id : TaskId) :
    Working s (s'.retryOrGiveUp now id) := by
  unfold Supervisor.retryOrGiveUp
  split
  · exact h
  · split
    · split
      · exact h
      · exact ((h.saveTask _).withQueue _).emit rfl
    · split
      · exact h
      · exact ((h.saveTask _).updateJob _ _).settleJob _

theorem recordFailure (h : Working s s') (t : Task) (reason : FailureReason) (detail : String) :
    Working s (s'.recordFailure now t reason detail) := h.issue rfl

theorem finishTask (h : Working s s') (n : NodeId) (id : TaskId) (outcome : TaskOutcome) :
    Working s (s'.finishTask now n id outcome) := by
  unfold Supervisor.finishTask
  split
  · exact h
  · split
    · exact h
    · split
      · split
        · exact h
        · exact (((h.saveTask _).emit rfl).updateJob _ _).settleJob _
      · exact ((h.recordFailure _ _ _).emit rfl).retryOrGiveUp id

theorem requeueTask (h : Working s s') (n : NodeId) (id : TaskId) :
    Working s (Supervisor.requeueTask now n s' id) := by
  unfold Supervisor.requeueTask
  split
  · exact h
  · exact ((h.recordFailure _ _ _).emit rfl).retryOrGiveUp id

theorem requeueTasksOf (h : Working s s') (n : NodeId) :
    Working s (s'.requeueTasksOf now n) := by
  unfold Supervisor.requeueTasksOf
  generalize s'.tasksOf n = ids
  induction ids generalizing s' with
  | nil => exact h
  | cons id ids ih => exact ih (h.requeueTask n id)

theorem place (h : Working s s') (rest : List TaskId) (t : Task) (n : NodeId) (c : ChannelId)
    (m : Mailbox) : Working s (s'.place now rest t n c m) := by
  refine ((Working.saveTask ?_ t).startJobIfQueued _).emit rfl
  exact h.tables s'.jobs s'.tasks rest _ s'.jobSeq s'.taskSeq

theorem dispatchLoop (queue : List TaskId) (busy : List NodeId) (h : Working s s') :
    Working s (Supervisor.dispatchLoop now queue busy s') := by
  induction queue generalizing s' busy with
  | nil => exact h
  | cons id rest ih =>
      rw [dispatchLoop_cons]
      cases s'.decision now busy id with
      | skip => exact ih busy (h.withQueue rest)
      | wait => exact h
      | bounce t n => exact ((h.withQueue _).putTask _).issue rfl
      | place t n c m => exact ih (n :: busy) (h.place rest _ n c m)

theorem dispatch (h : Working s s') : Working s (s'.dispatch now) := h.dispatchLoop _ _

theorem pruneMemory (h : Working s s') : Working s s'.pruneMemory := by
  have hf := prune_frame s'
  refine h.trans ⟨?_, [], ?_, by simp⟩
  · exact ⟨hf.config, hf.scheduler, hf.elector, hf.nodes, hf.leader, hf.gateway, hf.nextChannel⟩
  · simp [Supervisor.ops, prune_journal]

theorem reserveJob (h : Working s s') : Working s s'.reserveJob :=
  Working.issue (h.tables s'.jobs s'.tasks s'.queue s'.mailboxes _ s'.taskSeq) rfl

theorem reserveTasks (h : Working s s') (count : Nat) : Working s (s'.reserveTasks count) :=
  Working.issue (h.tables s'.jobs s'.tasks s'.queue s'.mailboxes s'.jobSeq _) rfl

theorem enrol (h : Working s s') (spec : JobSpec) : Working s (s'.enrol now spec) := by
  have hf := enrol_frame s' now spec
  refine h.trans ⟨?_, _, enrol_ops s' now spec, ?_⟩
  · exact ⟨hf.config, hf.scheduler, hf.elector, hf.nodes, hf.leader, hf.gateway, hf.nextChannel⟩
  · simp [DurableOp.isWork, DurableOp.event?, ClusterEvent.isLeadership]

theorem taskStarted (h : Working s s') (n : NodeId) (t : Task) :
    Working s (s'.handleReport now (.taskStarted n t)) := by
  simp only [handleReport]
  split
  · exact h
  · split
    · split
      · exact (h.tables s'.jobs _ s'.queue s'.mailboxes s'.jobSeq s'.taskSeq).issue rfl
      · exact h
    · exact h

theorem noteTransition (h : Working s s') (tr : NodeId × NodeStatus) :
    Working s (Supervisor.noteTransition now s' tr) := by
  unfold Supervisor.noteTransition
  split
  · exact h.emit rfl
  · exact (h.emit rfl).requeueTasksOf tr.1
  · exact h.emit rfl
  · exact h

variable (now) in
theorem noteTransitions (trs : List (NodeId × NodeStatus)) (h : Working s s') :
    Working s (trs.foldl (Supervisor.noteTransition now) s') := by
  induction trs generalizing s' with
  | nil => exact h
  | cons tr trs ih => exact ih (h.noteTransition tr)

end Working

end Supervisor

end Gavel.Cluster
