import Gavel.Cluster.Bootstrap
import Mathlib.Logic.Relation

/-!
# What the supervisor can do to the job and task tables

Every input is handled as a sequence of moves, bounces and quiet changes. A move is one change of the
work: a task placed, started, completed, retried or given up, a job admitted, finished jobs
forgotten. A bounce is a placement that the node's inbox refused. A quiet change touches the registry,
the mailboxes or the leadership, never the work.
-/

namespace Gavel.Cluster

/-! ## The value a task or a job takes -/

namespace Task

def assignedOn (t : Task) (n : NodeId) (now : Millis) : Task :=
  { t with state := .assigned, updatedAt := now, assignedTo := some n,
           attempt := satSucc t.attempt }

def startedAt (t : Task) (now : Millis) : Task := { t with state := .running, updatedAt := now }

def completedAt (t : Task) (output : String) (now : Millis) : Task :=
  { t with state := .completed, updatedAt := now, output := some output }

def failedAt (t : Task) (now : Millis) : Task := { t with state := .failed, updatedAt := now }

def requeuedAt (t : Task) (now : Millis) : Task :=
  { t with state := .queued, updatedAt := now, assignedTo := none, output := none }

end Task

namespace Job

/-- The state a job settles in. -/
def verdict (j : Job) : JobState := if 0 < j.tasksFailed then .failed else .completed

/-- The counters say that every task has settled, and the job may still move. -/
def settles (j : Job) : Bool :=
  decide (j.taskCount ≤ j.tasksCompleted + j.tasksFailed) && j.state.canTransitionTo j.verdict

def settledAt (j : Job) (now : Millis) : Job :=
  { j with state := j.verdict, finishedAt := some now }

def settle (j : Job) (now : Millis) : Job := if j.settles then j.settledAt now else j

def startedAt (j : Job) : Job := { j with state := .running }

def start (j : Job) : Job := if j.state = .queued then j.startedAt else j

def countCompleted (j : Job) : Job := { j with tasksCompleted := satSucc j.tasksCompleted }

def countFailed (j : Job) : Job := { j with tasksFailed := satSucc j.tasksFailed }

theorem verdict_cases (j : Job) : j.verdict = .failed ∨ j.verdict = .completed := by
  unfold verdict; split <;> simp

theorem verdict_terminal (j : Job) : j.verdict.isTerminal = true := by
  rcases j.verdict_cases with h | h <;> rw [h] <;> rfl

theorem settles_not_terminal {j : Job} (h : j.settles = true) : j.state.isTerminal = false := by
  simp only [settles, Bool.and_eq_true] at h
  cases hs : j.state <;> simp_all [JobState.canTransitionTo, JobState.isTerminal]

end Job

namespace Supervisor

/-- The event a settled job is announced with. -/
def settledEvent (id : JobId) (j : Job) : ClusterEvent :=
  if j.verdict = .failed then .jobFailed id else .jobCompleted id

/-- The supervisor's durable operations so far. -/
def ops (s : Supervisor) : List DurableOp := s.journal.map JournalEntry.op

/-! ## The three updates of a job -/

theorem startJobIfQueued_some {s : Supervisor} {now : Millis} {id : JobId} {j : Job}
    (h : s.jobs[id]? = some j) (hq : j.state = .queued) :
    s.startJobIfQueued now id = (s.putJob id j.startedAt).persistJob j.startedAt := by
  simp [startJobIfQueued, h, hq, Job.transitionTo, JobState.canTransitionTo, JobState.isTerminal,
    Job.startedAt]

theorem startJobIfQueued_skip {s : Supervisor} {now : Millis} {id : JobId}
    (h : ∀ j, s.jobs[id]? = some j → j.state ≠ .queued) : s.startJobIfQueued now id = s := by
  unfold startJobIfQueued
  cases hj : s.jobs[id]? with
  | none => rfl
  | some j => simp [h j hj]

theorem settleJob_some {s : Supervisor} {now : Millis} {id : JobId} {j : Job}
    (h : s.jobs[id]? = some j) (hs : j.settles = true) : s.settleJob now id =
      ((s.putJob id (j.settledAt now)).persistJob (j.settledAt now)).emit now
        (settledEvent id j) := by
  have ht := Job.settles_not_terminal hs
  simp only [Job.settles, Bool.and_eq_true, decide_eq_true_eq] at hs
  obtain ⟨hc, htr⟩ := hs
  have hne : j.state ≠ j.verdict := by
    intro he; rw [he, j.verdict_terminal] at ht; cases ht
  have hv : j.verdict.isTerminal = true := j.verdict_terminal
  simp only [Job.verdict] at htr hne hv
  simp [settleJob, h, Nat.not_lt.mpr hc, ht, Job.transitionTo, htr, hne, hv, settledEvent,
    Job.settledAt, Job.verdict]

theorem settleJob_skip {s : Supervisor} {now : Millis} {id : JobId}
    (h : ∀ j, s.jobs[id]? = some j → j.settles = false) : s.settleJob now id = s := by
  unfold settleJob
  cases hj : s.jobs[id]? with
  | none => rfl
  | some j =>
      have hs := h j hj
      simp only [Job.settles, Bool.and_eq_false_iff, decide_eq_false_iff_not, Job.verdict] at hs
      by_cases hc : j.tasksCompleted + j.tasksFailed < j.taskCount
      · simp [hc]
      · have htr := hs.resolve_left (fun h => h (by omega))
        by_cases ht : j.state.isTerminal = true
        · simp [hc, ht]
        · have hne : j.state ≠ j.verdict := by
            intro he; rw [he] at ht; exact ht j.verdict_terminal
          simp only [Job.verdict] at hne
          simp [hc, ht, Job.transitionTo, hne, htr]

/-! ## Moves -/

/-- The effect of a successful placement. -/
def place (s : Supervisor) (now : Millis) (rest : List TaskId) (t : Task) (n : NodeId)
    (c : ChannelId) (m : Mailbox) : Supervisor :=
  let s := { s with queue := rest, mailboxes := Function.update s.mailboxes c m }
  let s := (s.putTask t).persistTask t
  let s := s.startJobIfQueued now t.jobId
  s.emit now (.taskAssigned t.id n)

/-- The effect of a placement whose message could not be sent. -/
def bounce (s : Supervisor) (rest : List TaskId) (t : Task) : Supervisor :=
  ({ s with queue := t.id :: rest }.putTask t).issue (.saveTask t)

/-- A task recorded as running. -/
def markStarted (s : Supervisor) (t : Task) : Supervisor := (s.putTask t).persistTask t

def markCompleted (s : Supervisor) (now : Millis) (n : NodeId) (t : Task) : Supervisor :=
  let s := (s.putTask t).persistTask t
  let s := s.emit now (.taskCompleted t.id n)
  let s := s.updateJob t.jobId Job.countCompleted
  s.settleJob now t.jobId

/-- A failed attempt, recorded and announced. -/
def noteFailure (s : Supervisor) (now : Millis) (n : NodeId) (t : Task) (reason : FailureReason)
    (detail : String) : Supervisor :=
  (s.recordFailure now t reason detail).emit now (.taskFailed t.id (some n) reason)

/-- Back on the queue after a failed attempt. -/
def putBack (s : Supervisor) (now : Millis) (t : Task) : Supervisor :=
  let s := (s.putTask t).persistTask t
  let s := { s with queue := s.queue ++ [t.id] }
  s.emit now (.taskRequeued t.id)

/-- Out of attempts. -/
def markFailed (s : Supervisor) (now : Millis) (t : Task) : Supervisor :=
  let s := (s.putTask t).persistTask t
  let s := s.updateJob t.jobId Job.countFailed
  s.settleJob now t.jobId

/-- The tasks of a job admitted as `jobId`, numbered from `first`. -/
def newTasks (spec : JobSpec) (jobId : JobId) (first : TaskId) (now : Millis) : List Task :=
  spec.split.mapIdx fun index spec => Task.new (first + index) jobId index spec now

@[simps!]
def reserveJob (s : Supervisor) : Supervisor := { s with jobSeq := s.jobSeq + 1 }.issue .reserveJob

@[simps!]
def reserveTasks (s : Supervisor) (count : Nat) : Supervisor :=
  { s with taskSeq := s.taskSeq + max count 1 }.issue (.reserveTasks count)

/-- A job written to the store and taken into memory with its tasks queued. -/
def enrol (s : Supervisor) (now : Millis) (spec : JobSpec) : Supervisor :=
  let jobId := s.jobSeq + 1
  let tasks := newTasks spec jobId (s.taskSeq + 1) now
  let s := (s.reserveJob.reserveTasks spec.split.length).issue (.createJob (Job.new jobId spec now) tasks)
  let s := s.putJob jobId (Job.new jobId spec now)
  let s := tasks.foldl (fun s t => { s with queue := s.queue ++ [t.id] }.putTask t) s
  s.emit now (.jobCreated jobId)

/-- No task is held by the node. -/
def Idle (s : Supervisor) (n : NodeId) : Prop :=
  ∀ (id : TaskId) t, s.tasks[id]? = some t → t.state.isHeld = true → t.assignedTo ≠ some n

inductive Move (now : Millis) : Supervisor → Supervisor → Prop where
  | drop {s : Supervisor} {id : TaskId} {rest : List TaskId} (hq : s.queue = id :: rest)
      (ht : ∀ t, s.tasks[id]? = some t → t.state ≠ .queued) :
      Move now s { s with queue := rest }
  | place {s : Supervisor} {t : Task} {rest : List TaskId} {n : NodeId} {e : NodeEntry}
      {c : ChannelId} {m : Mailbox} (hq : s.queue = t.id :: rest) (ht : s.tasks[t.id]? = some t)
      (hst : t.state = .queued) (he : s.nodes[n]? = some e) (hh : e.handle = some c)
      (hsch : e.node.isSchedulable = true) (hidle : s.Idle n)
      (hm : (s.mailboxes c).trySend (.assign (t.assignedOn n now)) = some m) :
      Move now s (s.place now rest (t.assignedOn n now) n c m)
  | start {s : Supervisor} {t : Task} {n : NodeId} (ht : s.tasks[t.id]? = some t)
      (hst : t.state = .assigned) (hn : t.assignedTo = some n) :
      Move now s (s.markStarted (t.startedAt now))
  | complete {s : Supervisor} {t : Task} {n : NodeId} (output : String)
      (ht : s.tasks[t.id]? = some t) (hst : t.state = .running) (hn : t.assignedTo = some n) :
      Move now s (s.markCompleted now n (t.completedAt output now))
  | retry {s : Supervisor} {t : Task} {n : NodeId} (reason : FailureReason) (detail : String)
      (ht : s.tasks[t.id]? = some t) (hst : t.state.isHeld = true) (hn : t.assignedTo = some n)
      (hlt : t.attempt < s.config.maxTaskAttempts.val) :
      Move now s ((s.noteFailure now n t reason detail).putBack now (t.requeuedAt now))
  | giveUp {s : Supervisor} {t : Task} {n : NodeId} (reason : FailureReason) (detail : String)
      (ht : s.tasks[t.id]? = some t) (hst : t.state.isHeld = true) (hn : t.assignedTo = some n)
      (hge : s.config.maxTaskAttempts.val ≤ t.attempt) :
      Move now s ((s.noteFailure now n t reason detail).markFailed now (t.failedAt now))
  | reserveJob {s : Supervisor} : Move now s s.reserveJob
  | reserveTasks {s : Supervisor} (count : Nat) : Move now s (s.reserveTasks count)
  | enrol {s : Supervisor} (spec : JobSpec) : Move now s (s.enrol now spec)
  | prune {s : Supervisor} : Move now s s.pruneMemory

/-- A placement whose message the chosen node's inbox refused. -/
inductive Bounce (now : Millis) : Supervisor → Supervisor → Prop where
  | intro {s : Supervisor} {t : Task} {rest : List TaskId} {n : NodeId} {e : NodeEntry}
      {c : ChannelId} (hq : s.queue = t.id :: rest) (ht : s.tasks[t.id]? = some t)
      (hst : t.state = .queued) (he : s.nodes[n]? = some e) (hh : e.handle = some c)
      (hm : (s.mailboxes c).accepts = false) :
      Bounce now s (s.bounce rest ((t.assignedOn n now).requeuedAt now))

/-! ## Quiet changes -/

end Supervisor

/-- A write that concerns no job and no task row and announces no job's end. -/
def Write.isQuiet : Write → Bool
  | .event r =>
      match r.event with
      | .jobCompleted _ | .jobFailed _ => false
      | _ => true
  | .roles _ _ _ => true
  | _ => false

namespace Supervisor

/-- The work is untouched, and only quiet writes were issued. -/
structure Quiet (s s' : Supervisor) : Prop where
  config : s'.config = s.config
  jobs : s'.jobs = s.jobs
  tasks : s'.tasks = s.tasks
  queue : s'.queue = s.queue
  jobSeq : s'.jobSeq = s.jobSeq
  taskSeq : s'.taskSeq = s.taskSeq
  journal : ∃ ws : List Write, (∀ w ∈ ws, w.isQuiet = true) ∧
    s'.journal = s.journal ++ ws.map fun w => ⟨.queued w, s.jobs, s.tasks⟩

namespace Quiet

variable {s s' s'' : Supervisor}

theorem refl (s : Supervisor) : Quiet s s := ⟨rfl, rfl, rfl, rfl, rfl, rfl, [], by simp⟩

theorem trans (h : Quiet s s') (h' : Quiet s' s'') : Quiet s s'' := by
  obtain ⟨ws, hws, hj⟩ := h.journal
  obtain ⟨ws', hws', hj'⟩ := h'.journal
  refine ⟨h'.config.trans h.config, h'.jobs.trans h.jobs, h'.tasks.trans h.tasks,
    h'.queue.trans h.queue, h'.jobSeq.trans h.jobSeq, h'.taskSeq.trans h.taskSeq,
    ws ++ ws', ?_, ?_⟩
  · intro w hw
    rcases List.mem_append.mp hw with hw | hw
    · exact hws w hw
    · exact hws' w hw
  · rw [hj', hj, h.jobs, h.tasks]; simp

theorem emit (s : Supervisor) (now : Millis) {ev : ClusterEvent}
    (h : (Write.event ⟨s.eventSeq + 1, now, ev⟩).isQuiet = true) : Quiet s (s.emit now ev) :=
  ⟨rfl, rfl, rfl, rfl, rfl, rfl, [_], by simpa using h, by simp⟩

theorem persistRoles (s : Supervisor) (now : Millis) (n : NodeId) (roles : RoleSet) :
    Quiet s (s.persistRoles now n roles) :=
  ⟨rfl, rfl, rfl, rfl, rfl, rfl, [.roles n roles now], by simp [Write.isQuiet], by simp⟩

theorem putNode (s : Supervisor) (n : NodeId) (e : NodeEntry) : Quiet s (s.putNode n e) :=
  ⟨rfl, rfl, rfl, rfl, rfl, rfl, [], by simp, by simp⟩

theorem emitIf (s : Supervisor) (now : Millis) {ev : Option ClusterEvent}
    (h : ∀ e ∈ ev, (Write.event ⟨s.eventSeq + 1, now, e⟩).isQuiet = true) :
    Quiet s (s.emitIf now ev) := by
  cases ev with
  | none => exact refl s
  | some e => exact emit s now (h e rfl)

theorem changeLeader (s : Supervisor) (now : Millis) (elected : Option NodeId) :
    Quiet s (s.changeLeader now elected) := by
  have lost : Quiet s (s.emitIf now (s.leader.map .leaderLost)) :=
    emitIf s now (by cases s.leader <;> simp [Write.isQuiet])
  have gained : Quiet (s.emitIf now (s.leader.map .leaderLost))
      ((s.emitIf now (s.leader.map .leaderLost)).emitIf now (elected.map .leaderElected)) :=
    emitIf _ now (by cases elected <;> simp [Write.isQuiet])
  have h := lost.trans gained
  exact ⟨h.config, h.jobs, h.tasks, h.queue, h.jobSeq, h.taskSeq, h.journal⟩

theorem refreshLeadership (s : Supervisor) (now : Millis) : Quiet s (s.refreshLeadership now) := by
  unfold Supervisor.refreshLeadership
  split
  · have h := changeLeader s now s.elected
    exact ⟨h.config, h.jobs, h.tasks, h.queue, h.jobSeq, h.taskSeq, h.journal⟩
  · have h := refl s
    exact ⟨h.config, h.jobs, h.tasks, h.queue, h.jobSeq, h.taskSeq, h.journal⟩

end Quiet

/-- A step in which no assignment was refused. -/
inductive Smooth (now : Millis) (s s' : Supervisor) : Prop where
  | move (h : Move now s s')
  | quiet (h : Quiet s s')

/-- Any step. -/
inductive Change (now : Millis) (s s' : Supervisor) : Prop where
  | smooth (h : Smooth now s s')
  | bounce (h : Bounce now s s')

/-- A sequence of moves. -/
abbrev Moves (now : Millis) := Relation.ReflTransGen (Move now)

/-- A sequence of moves and quiet changes. -/
abbrev Smooths (now : Millis) := Relation.ReflTransGen (Smooth now)

/-- A sequence of steps. -/
abbrev Changes (now : Millis) := Relation.ReflTransGen (Change now)

theorem Moves.smooths {now : Millis} {s s' : Supervisor} (h : Moves now s s') :
    Smooths now s s' :=
  Relation.ReflTransGen.mono (fun _ _ h => Smooth.move h) s s' h

theorem Quiet.smooths {now : Millis} {s s' : Supervisor} (h : Quiet s s') : Smooths now s s' :=
  .single (.quiet h)

theorem Smooths.changes {now : Millis} {s s' : Supervisor} (h : Smooths now s s') :
    Changes now s s' :=
  Relation.ReflTransGen.mono (fun _ _ h => Change.smooth h) s s' h

end Supervisor

end Gavel.Cluster
