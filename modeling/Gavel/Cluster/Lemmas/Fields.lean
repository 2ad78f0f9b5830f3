import Gavel.Cluster.Moves

/-!
# The effect of a move, field by field

Each move changes the task table at one row, one job, and a few fields beside them. `JobsOnly` says
what stays, `…_jobs` what becomes of the jobs, `…_ops` which durable operations were issued.
-/

namespace Gavel.Cluster.Supervisor

variable {s s' s'' : Supervisor} {now : Millis} {t : Task} {n : NodeId} {id : JobId}

/-! ## Everything but the jobs and the journal -/

/-- Nothing changed but the jobs, the event buffer and the journal. -/
structure JobsOnly (s s' : Supervisor) : Prop where
  config : s'.config = s.config
  scheduler : s'.scheduler = s.scheduler
  elector : s'.elector = s.elector
  nodes : s'.nodes = s.nodes
  tasks : s'.tasks = s.tasks
  queue : s'.queue = s.queue
  leader : s'.leader = s.leader
  gateway : s'.gateway = s.gateway
  mailboxes : s'.mailboxes = s.mailboxes
  nextChannel : s'.nextChannel = s.nextChannel
  jobSeq : s'.jobSeq = s.jobSeq
  taskSeq : s'.taskSeq = s.taskSeq

namespace JobsOnly

theorem refl (s : Supervisor) : JobsOnly s s :=
  ⟨rfl, rfl, rfl, rfl, rfl, rfl, rfl, rfl, rfl, rfl, rfl, rfl⟩

theorem trans (h : JobsOnly s s') (h' : JobsOnly s' s'') : JobsOnly s s'' :=
  ⟨h'.config.trans h.config, h'.scheduler.trans h.scheduler, h'.elector.trans h.elector,
    h'.nodes.trans h.nodes, h'.tasks.trans h.tasks, h'.queue.trans h.queue,
    h'.leader.trans h.leader, h'.gateway.trans h.gateway, h'.mailboxes.trans h.mailboxes,
    h'.nextChannel.trans h.nextChannel, h'.jobSeq.trans h.jobSeq, h'.taskSeq.trans h.taskSeq⟩

theorem withTasks (h : JobsOnly s s') (tasks : Table Task) :
    JobsOnly { s with tasks := tasks } { s' with tasks := tasks } :=
  ⟨h.config, h.scheduler, h.elector, h.nodes, rfl, h.queue, h.leader, h.gateway, h.mailboxes,
    h.nextChannel, h.jobSeq, h.taskSeq⟩

theorem withWork (h : JobsOnly s s') (tasks : Table Task) (queue : List TaskId) :
    JobsOnly { s with tasks := tasks, queue := queue } { s' with tasks := tasks, queue := queue } :=
  ⟨h.config, h.scheduler, h.elector, h.nodes, rfl, rfl, h.leader, h.gateway, h.mailboxes,
    h.nextChannel, h.jobSeq, h.taskSeq⟩

theorem issue (s : Supervisor) (op : DurableOp) : JobsOnly s (s.issue op) :=
  ⟨rfl, rfl, rfl, rfl, rfl, rfl, rfl, rfl, rfl, rfl, rfl, rfl⟩

theorem emit (s : Supervisor) (now : Millis) (ev : ClusterEvent) : JobsOnly s (s.emit now ev) :=
  ⟨rfl, rfl, rfl, rfl, rfl, rfl, rfl, rfl, rfl, rfl, rfl, rfl⟩

theorem putJob (s : Supervisor) (id : JobId) (j : Job) : JobsOnly s (s.putJob id j) :=
  ⟨rfl, rfl, rfl, rfl, rfl, rfl, rfl, rfl, rfl, rfl, rfl, rfl⟩

theorem saveJob (s : Supervisor) (id : JobId) (j : Job) :
    JobsOnly s ((s.putJob id j).persistJob j) := (putJob s id j).trans (issue _ _)

theorem startJobIfQueued (s : Supervisor) (now : Millis) (id : JobId) :
    JobsOnly s (s.startJobIfQueued now id) := by
  by_cases h : ∃ j, s.jobs[id]? = some j ∧ j.state = .queued
  · obtain ⟨j, hj, hq⟩ := h
    rw [startJobIfQueued_some hj hq]
    exact saveJob s id _
  · rw [startJobIfQueued_skip fun j hj hq => h ⟨j, hj, hq⟩]
    exact refl s

theorem updateJob (s : Supervisor) (id : JobId) (f : Job → Job) :
    JobsOnly s (s.updateJob id f) := by
  unfold Supervisor.updateJob
  cases s.jobs[id]? with
  | none => exact refl s
  | some j => exact saveJob s id _

theorem settleJob (s : Supervisor) (now : Millis) (id : JobId) :
    JobsOnly s (s.settleJob now id) := by
  by_cases h : ∃ j, s.jobs[id]? = some j ∧ j.settles = true
  · obtain ⟨j, hj, hs⟩ := h
    rw [settleJob_some hj hs]
    exact (saveJob s id _).trans (emit _ _ _)
  · rw [settleJob_skip fun j hj => by simpa using fun hs => h ⟨j, hj, hs⟩]
    exact refl s

end JobsOnly

theorem place_frame (s : Supervisor) (now : Millis) (rest : List TaskId) (t : Task) (n : NodeId)
    (c : ChannelId) (m : Mailbox) :
    JobsOnly { s with
      queue := rest, mailboxes := Function.update s.mailboxes c m, tasks := s.tasks.insert t.id t }
      (s.place now rest t n c m) := by
  refine JobsOnly.trans ?_ (JobsOnly.emit _ _ _)
  refine JobsOnly.trans ?_ (JobsOnly.startJobIfQueued _ _ _)
  exact JobsOnly.issue _ _

theorem bounce_frame (s : Supervisor) (rest : List TaskId) (t : Task) :
    JobsOnly { s with queue := t.id :: rest, tasks := s.tasks.insert t.id t } (s.bounce rest t) :=
  JobsOnly.issue _ _

theorem markStarted_frame (s : Supervisor) (t : Task) :
    JobsOnly { s with tasks := s.tasks.insert t.id t } (s.markStarted t) := JobsOnly.issue _ _

theorem markCompleted_frame (s : Supervisor) (now : Millis) (n : NodeId) (t : Task) :
    JobsOnly { s with tasks := s.tasks.insert t.id t } (s.markCompleted now n t) := by
  refine JobsOnly.trans ?_ (JobsOnly.settleJob _ _ _)
  refine JobsOnly.trans ?_ (JobsOnly.updateJob _ _ _)
  exact (JobsOnly.issue _ _).trans (JobsOnly.emit _ _ _)

theorem putBack_frame (s : Supervisor) (now : Millis) (t : Task) :
    JobsOnly { s with tasks := s.tasks.insert t.id t, queue := s.queue ++ [t.id] }
      (s.putBack now t) := by
  have hput : JobsOnly { s with tasks := s.tasks.insert t.id t, queue := s.queue ++ [t.id] }
      { (s.putTask t).persistTask t with queue := s.queue ++ [t.id] } :=
    ⟨rfl, rfl, rfl, rfl, rfl, rfl, rfl, rfl, rfl, rfl, rfl, rfl⟩
  exact hput.trans (JobsOnly.emit _ _ _)

theorem markFailed_frame (s : Supervisor) (now : Millis) (t : Task) :
    JobsOnly { s with tasks := s.tasks.insert t.id t } (s.markFailed now t) := by
  refine JobsOnly.trans ?_ (JobsOnly.settleJob _ _ _)
  refine JobsOnly.trans ?_ (JobsOnly.updateJob _ _ _)
  exact JobsOnly.issue _ _

theorem noteFailure_frame (s : Supervisor) (now : Millis) (n : NodeId) (t : Task)
    (reason : FailureReason) (detail : String) : JobsOnly s (s.noteFailure now n t reason detail) :=
  (JobsOnly.issue _ _).trans (JobsOnly.emit _ _ _)

theorem retry_frame (s : Supervisor) (now : Millis) (n : NodeId) (t₀ t : Task)
    (reason : FailureReason) (detail : String) :
    JobsOnly { s with tasks := s.tasks.insert t.id t, queue := s.queue ++ [t.id] }
      ((s.noteFailure now n t₀ reason detail).putBack now t) := by
  have h := (noteFailure_frame s now n t₀ reason detail).withWork (s.tasks.insert t.id t)
    (s.queue ++ [t.id])
  have h' := putBack_frame (s.noteFailure now n t₀ reason detail) now t
  rw [(noteFailure_frame s now n t₀ reason detail).tasks,
    (noteFailure_frame s now n t₀ reason detail).queue] at h'
  exact h.trans h'

theorem giveUp_frame (s : Supervisor) (now : Millis) (n : NodeId) (t₀ t : Task)
    (reason : FailureReason) (detail : String) :
    JobsOnly { s with tasks := s.tasks.insert t.id t }
      ((s.noteFailure now n t₀ reason detail).markFailed now t) := by
  have h := (noteFailure_frame s now n t₀ reason detail).withTasks (s.tasks.insert t.id t)
  have h' := markFailed_frame (s.noteFailure now n t₀ reason detail) now t
  rw [(noteFailure_frame s now n t₀ reason detail).tasks] at h'
  exact h.trans h'

/-! ## The jobs -/

theorem startJobIfQueued_jobs (a : JobId) : (s.startJobIfQueued now id).jobs[a]? =
    if id = a then s.jobs[a]?.map Job.start else s.jobs[a]? := by
  by_cases h : ∃ j, s.jobs[id]? = some j ∧ j.state = .queued
  · obtain ⟨j, hj, hq⟩ := h
    rw [startJobIfQueued_some hj hq]
    simp only [persistJob_jobs, putJob_jobs, Table.get_insert]
    split
    · subst a; simp [hj, Job.start, hq]
    · rfl
  · rw [startJobIfQueued_skip fun j hj hq => h ⟨j, hj, hq⟩]
    split
    · subst a
      cases hj : s.jobs[id]? with
      | none => rfl
      | some j =>
          have hq : j.state ≠ .queued := fun hq => h ⟨j, hj, hq⟩
          simp [Job.start, hq]
    · rfl

theorem updateJob_jobs (f : Job → Job) (a : JobId) : (s.updateJob id f).jobs[a]? =
    if id = a then s.jobs[a]?.map f else s.jobs[a]? := by
  unfold Supervisor.updateJob
  cases hj : s.jobs[id]? with
  | none =>
      dsimp only
      split
      · subst a; simp [hj]
      · rfl
  | some j =>
      simp only [persistJob_jobs, putJob_jobs, Table.get_insert]
      split
      · subst a; simp [hj]
      · rfl

theorem settleJob_jobs (a : JobId) : (s.settleJob now id).jobs[a]? =
    if id = a then s.jobs[a]?.map (Job.settle · now) else s.jobs[a]? := by
  by_cases h : ∃ j, s.jobs[id]? = some j ∧ j.settles = true
  · obtain ⟨j, hj, hs⟩ := h
    rw [settleJob_some hj hs]
    simp only [emit_jobs, persistJob_jobs, putJob_jobs, Table.get_insert]
    split
    · subst a; simp [hj, Job.settle, hs]
    · rfl
  · rw [settleJob_skip fun j hj => by simpa using fun hs => h ⟨j, hj, hs⟩]
    split
    · subst a
      cases hj : s.jobs[id]? with
      | none => rfl
      | some j =>
          have hs : ¬ j.settles = true := fun hs => h ⟨j, hj, hs⟩
          simp [Job.settle, hs]
    · rfl

theorem place_jobs (s : Supervisor) (now : Millis) (rest : List TaskId) (t : Task) (n : NodeId)
    (c : ChannelId) (m : Mailbox) (a : JobId) : (s.place now rest t n c m).jobs[a]? =
      if t.jobId = a then s.jobs[a]?.map Job.start else s.jobs[a]? := by
  simp only [place, emit_jobs, startJobIfQueued_jobs, persistTask_jobs, putTask_jobs]

theorem markCompleted_jobs (s : Supervisor) (now : Millis) (n : NodeId) (t : Task) (a : JobId) :
    (s.markCompleted now n t).jobs[a]? =
      if t.jobId = a then s.jobs[a]?.map (fun j => j.countCompleted.settle now)
      else s.jobs[a]? := by
  simp only [markCompleted, settleJob_jobs, updateJob_jobs, emit_jobs, persistTask_jobs,
    putTask_jobs]
  split <;> simp [Function.comp_def]

theorem markFailed_jobs (s : Supervisor) (now : Millis) (t : Task) (a : JobId) :
    (s.markFailed now t).jobs[a]? =
      if t.jobId = a then s.jobs[a]?.map (fun j => j.countFailed.settle now)
      else s.jobs[a]? := by
  simp only [markFailed, settleJob_jobs, updateJob_jobs, persistTask_jobs, putTask_jobs]
  split <;> simp [Function.comp_def]

@[simp] theorem noteFailure_jobs (s : Supervisor) (now : Millis) (n : NodeId) (t : Task)
    (reason : FailureReason) (detail : String) :
    (s.noteFailure now n t reason detail).jobs = s.jobs := by
  simp only [noteFailure, emit_jobs, recordFailure_jobs]

@[simp] theorem putBack_jobs (s : Supervisor) (now : Millis) (t : Task) :
    (s.putBack now t).jobs = s.jobs := by
  simp only [putBack, emit_jobs, persistTask_jobs, putTask_jobs]

/-! ## The durable operations -/

@[simp] theorem issue_ops (op : DurableOp) : (s.issue op).ops = s.ops ++ [op] := by simp [ops]

@[simp] theorem emit_ops (ev : ClusterEvent) :
    (s.emit now ev).ops = s.ops ++ [.queued (.event ⟨s.eventSeq + 1, now, ev⟩)] := by simp [ops]

@[simp] theorem persistTask_ops : (s.persistTask t).ops = s.ops ++ [.queued (.task t)] := by
  simp [ops]

@[simp] theorem persistJob_ops (j : Job) : (s.persistJob j).ops = s.ops ++ [.queued (.job j)] := by
  simp [ops]

@[simp] theorem recordFailure_ops (reason : FailureReason) (detail : String) :
    (s.recordFailure now t reason detail).ops =
      s.ops ++ [.queued (.failure (TaskAttempt.new t reason detail now))] := by
  simp [ops]

/-- The write a start of the job entails. -/
def startOps : Option Job → List DurableOp
  | some j => if j.state = .queued then [.queued (.job j.startedAt)] else []
  | none => []

def updateOps (f : Job → Job) : Option Job → List DurableOp
  | some j => [.queued (.job (f j))]
  | none => []

/-- The write and the announcement a settled job entails. -/
def settleOps (now : Millis) (id : JobId) (seq : Nat) : Option Job → List DurableOp
  | some j =>
      if j.settles then
        [.queued (.job (j.settledAt now)), .queued (.event ⟨seq + 1, now, settledEvent id j⟩)]
      else []
  | none => []

theorem startJobIfQueued_ops :
    (s.startJobIfQueued now id).ops = s.ops ++ startOps s.jobs[id]? := by
  by_cases h : ∃ j, s.jobs[id]? = some j ∧ j.state = .queued
  · obtain ⟨j, hj, hq⟩ := h
    rw [startJobIfQueued_some hj hq, persistJob_ops, hj]
    simp [startOps, hq, ops]
  · have hskip : ∀ j, s.jobs[id]? = some j → j.state ≠ .queued := fun j hj hq => h ⟨j, hj, hq⟩
    rw [startJobIfQueued_skip hskip]
    cases hj : s.jobs[id]? with
    | none => simp [startOps]
    | some j => simp [startOps, hskip j hj]

theorem updateJob_ops (f : Job → Job) :
    (s.updateJob id f).ops = s.ops ++ updateOps f s.jobs[id]? := by
  unfold updateJob
  cases s.jobs[id]? with
  | none => simp [updateOps]
  | some j => simp [updateOps, ops]

theorem settleJob_ops :
    (s.settleJob now id).ops = s.ops ++ settleOps now id s.eventSeq s.jobs[id]? := by
  by_cases h : ∃ j, s.jobs[id]? = some j ∧ j.settles = true
  · obtain ⟨j, hj, hs⟩ := h
    rw [settleJob_some hj hs, emit_ops, persistJob_ops, hj]
    simp [settleOps, hs, ops]
  · have hskip : ∀ j, s.jobs[id]? = some j → j.settles = false :=
      fun j hj => by simpa using fun hs => h ⟨j, hj, hs⟩
    rw [settleJob_skip hskip]
    cases hj : s.jobs[id]? with
    | none => simp [settleOps]
    | some j => simp [settleOps, hskip j hj]

theorem startJobIfQueued_eventSeq : (s.startJobIfQueued now id).eventSeq = s.eventSeq := by
  by_cases h : ∃ j, s.jobs[id]? = some j ∧ j.state = .queued
  · obtain ⟨j, hj, hq⟩ := h
    rw [startJobIfQueued_some hj hq]
    simp
  · rw [startJobIfQueued_skip fun j hj hq => h ⟨j, hj, hq⟩]

theorem updateJob_eventSeq (f : Job → Job) : (s.updateJob id f).eventSeq = s.eventSeq := by
  unfold updateJob
  cases s.jobs[id]? <;> simp

@[simp] theorem putTask_ops : (s.putTask t).ops = s.ops := rfl

theorem place_ops (s : Supervisor) (now : Millis) (rest : List TaskId) (t : Task) (n : NodeId)
    (c : ChannelId) (m : Mailbox) : (s.place now rest t n c m).ops =
      s.ops ++ (.queued (.task t) :: startOps s.jobs[t.jobId]? ++
        [.queued (.event ⟨s.eventSeq + 1, now, .taskAssigned t.id n⟩)]) := by
  unfold place
  simp only [emit_ops, startJobIfQueued_ops, startJobIfQueued_eventSeq, persistTask_ops,
    persistTask_jobs, persistTask_eventSeq, putTask_jobs, putTask_eventSeq, List.append_assoc,
    List.cons_append, List.nil_append]
  rfl

theorem bounce_ops (rest : List TaskId) : (s.bounce rest t).ops = s.ops ++ [.saveTask t] := by
  rw [bounce, issue_ops]; rfl

theorem markStarted_ops : (s.markStarted t).ops = s.ops ++ [.queued (.task t)] := by
  rw [markStarted, persistTask_ops, putTask_ops]

theorem markCompleted_ops : (s.markCompleted now n t).ops =
    s.ops ++ (.queued (.task t) :: .queued (.event ⟨s.eventSeq + 1, now, .taskCompleted t.id n⟩) ::
      (updateOps Job.countCompleted s.jobs[t.jobId]? ++
        settleOps now t.jobId (s.eventSeq + 1) (s.jobs[t.jobId]?.map Job.countCompleted))) := by
  unfold markCompleted
  simp [settleJob_ops, updateJob_ops, updateJob_jobs, updateJob_eventSeq]

theorem noteFailure_ops (reason : FailureReason) (detail : String) :
    (s.noteFailure now n t reason detail).ops =
      s.ops ++ [.queued (.failure (TaskAttempt.new t reason detail now)),
        .queued (.event ⟨s.eventSeq + 1, now, .taskFailed t.id (some n) reason⟩)] := by
  simp [noteFailure]

variable (now) in
theorem putBack_ops : (s.putBack now t).ops = s.ops ++ [.queued (.task t),
    .queued (.event ⟨s.eventSeq + 1, now, .taskRequeued t.id⟩)] := by
  unfold putBack
  rw [emit_ops]
  simp [ops]

variable (now) in
theorem markFailed_ops : (s.markFailed now t).ops = s.ops ++ (.queued (.task t) ::
    (updateOps Job.countFailed s.jobs[t.jobId]? ++
      settleOps now t.jobId s.eventSeq (s.jobs[t.jobId]?.map Job.countFailed))) := by
  unfold markFailed
  simp [settleJob_ops, updateJob_ops, updateJob_jobs, updateJob_eventSeq]

/-! ## Admission -/

theorem enqueue_all (ts : List Task) (s : Supervisor) :
    ts.foldl (fun s t => { s with queue := s.queue ++ [t.id] }.putTask t) s =
      { s with queue := s.queue ++ ts.map Task.id, tasks := s.tasks.insertAll Task.id ts } := by
  induction ts generalizing s with
  | nil => simp [Table.insertAll]
  | cons t ts ih => rw [List.foldl_cons, ih]; simp [putTask, Table.insertAll]

/-- The tasks of the job the supervisor would enrol next. -/
abbrev nextTasks (s : Supervisor) (now : Millis) (spec : JobSpec) : List Task :=
  newTasks spec (s.jobSeq + 1) (s.taskSeq + 1) now

theorem enrol_frame (s : Supervisor) (now : Millis) (spec : JobSpec) :
    JobsOnly { s with
      jobSeq := s.jobSeq + 1, taskSeq := s.taskSeq + max spec.split.length 1
      queue := s.queue ++ (s.nextTasks now spec).map Task.id
      tasks := s.tasks.insertAll Task.id (s.nextTasks now spec) } (s.enrol now spec) := by
  unfold enrol
  simp only [enqueue_all]
  refine JobsOnly.trans ?_ (JobsOnly.emit _ _ _)
  refine ⟨?_, ?_, rfl, ?_, ?_, ?_, ?_, ?_, rfl, ?_, ?_, ?_⟩ <;> simp

theorem enrol_jobs (s : Supervisor) (now : Millis) (spec : JobSpec) :
    (s.enrol now spec).jobs = s.jobs.insert (s.jobSeq + 1) (Job.new (s.jobSeq + 1) spec now) := by
  unfold enrol
  simp only [enqueue_all]
  rfl

theorem enrol_ops (s : Supervisor) (now : Millis) (spec : JobSpec) : (s.enrol now spec).ops =
    s.ops ++ [.reserveJob, .reserveTasks spec.split.length,
      .createJob (Job.new (s.jobSeq + 1) spec now) (s.nextTasks now spec),
      .queued (.event ⟨s.eventSeq + 1, now, .jobCreated (s.jobSeq + 1)⟩)] := by
  unfold enrol
  simp only [enqueue_all, emit_ops]
  simp [ops, nextTasks]

theorem mem_newTasks {spec : JobSpec} {jobId : JobId} {first : TaskId} :
    t ∈ newTasks spec jobId first now →
      ∃ i sp, i < spec.taskCount ∧ t = Task.new (first + i) jobId i sp now := by
  intro h
  simp only [newTasks, List.mem_mapIdx] at h
  obtain ⟨i, hi, rfl⟩ := h
  exact ⟨i, _, by rwa [← spec.split_length], rfl⟩

theorem newTasks_length (spec : JobSpec) (jobId : JobId) (first : TaskId) (now : Millis) :
    (newTasks spec jobId first now).length = spec.taskCount := by
  simp [newTasks, spec.split_length]

theorem newTasks_ids (spec : JobSpec) (jobId : JobId) (first : TaskId) (now : Millis) :
    (newTasks spec jobId first now).map Task.id = List.range' first spec.taskCount := by
  refine List.ext_getElem (by simp [newTasks_length]) ?_
  intro i h₁ h₂
  simp [newTasks, Task.new]

theorem newTasks_nodup (spec : JobSpec) (jobId : JobId) (first : TaskId) (now : Millis) :
    ((newTasks spec jobId first now).map Task.id).Nodup := by
  rw [newTasks_ids]
  exact List.nodup_range'

/-! ## Pruning -/

/-- The finished jobs the next prune forgets. -/
def removable (s : Supervisor) : List JobId :=
  if s.jobs.size ≤ s.config.jobBuffer then []
  else ((s.jobs.rows.filter fun j => j.state.isTerminal).map Job.id).take
    (s.jobs.size - s.config.jobBuffer)

theorem removable_terminal {a : JobId} (h : a ∈ s.removable) :
    ∃ (k : JobId) (j : Job), s.jobs[k]? = some j ∧ j.id = a ∧ j.state.isTerminal = true := by
  unfold removable at h
  split at h
  · cases h
  · obtain ⟨j, hj, rfl⟩ := List.mem_map.mp (List.mem_of_mem_take h)
    obtain ⟨hr, ht⟩ := List.mem_filter.mp hj
    obtain ⟨k, hk⟩ := Table.mem_rows.mp hr
    exact ⟨k, j, hk, rfl, ht⟩

theorem prune_tasks (s : Supervisor) (a : TaskId) : s.pruneMemory.tasks[a]? =
    s.tasks[a]?.filter fun t => !s.removable.contains t.jobId := by
  unfold pruneMemory removable
  dsimp only
  split
  · cases s.tasks[a]? <;> simp [Option.filter]
  · rw [Table.get_filter]

theorem prune_jobs (s : Supervisor) (a : JobId) : s.pruneMemory.jobs[a]? =
    if a ∈ s.removable then none else s.jobs[a]? := by
  unfold pruneMemory removable
  dsimp only
  split
  · simp
  · rw [Table.get_eraseAll]

theorem prune_count (s : Supervisor) {p : Task → Bool}
    (h : ∀ t, p t = true → t.jobId ∉ s.removable) :
    Table.count p s.pruneMemory.tasks = Table.count p s.tasks := by
  unfold pruneMemory
  unfold removable at h
  dsimp only
  split
  · rfl
  · rename_i hsize
    simp only [hsize, if_false] at h
    refine Table.count_filter ?_
    intro k t _ ht
    simpa using h t ht

/-- Pruning keeps everything but the jobs, the tasks and the event buffer. -/
theorem prune_frame (s : Supervisor) :
    JobsOnly { s with tasks := s.pruneMemory.tasks } s.pruneMemory := by
  unfold pruneMemory
  dsimp only
  split <;> exact ⟨rfl, rfl, rfl, rfl, rfl, rfl, rfl, rfl, rfl, rfl, rfl, rfl⟩

theorem prune_journal (s : Supervisor) : s.pruneMemory.journal = s.journal := by
  unfold pruneMemory
  dsimp only
  split <;> rfl

end Gavel.Cluster.Supervisor
