import Gavel.Lib.Table
import Gavel.Cluster.Node
import Mathlib.Data.List.Sort

/-!
# Events, durable writes and the store

The supervisor reaches the store in two ways. Some calls it awaits inline: reserving ids, creating a
job with its tasks, and two task updates. Every other update goes to the background writer, which
applies it later. `DurableOp` keeps the two apart.
-/

namespace Gavel.Cluster

/-! ## Events -/

inductive ClusterEvent where
  | nodeJoined (node : NodeId)
  | nodeLeft (node : NodeId)
  | nodeUnhealthy (node : NodeId)
  | nodeRecovered (node : NodeId)
  | roleAssigned (node : NodeId) (role : Role)
  | roleRemoved (node : NodeId) (role : Role)
  | leaderElected (node : NodeId)
  | leaderLost (node : NodeId)
  | jobCreated (job : JobId)
  | jobCompleted (job : JobId)
  | jobFailed (job : JobId)
  | taskAssigned (task : TaskId) (node : NodeId)
  | taskCompleted (task : TaskId) (node : NodeId)
  | taskFailed (task : TaskId) (node : Option NodeId) (reason : FailureReason)
  | taskRequeued (task : TaskId)
  deriving DecidableEq, Repr

/-- An event, when it happened, and a sequence number. -/
structure EventRecord where
  seq : Nat
  at' : Millis
  event : ClusterEvent
  deriving DecidableEq, Repr

/-! ## What the supervisor asks of the store -/

/-- An update handed to the background writer. -/
inductive Write where
  | job (job : Job)
  | task (task : Task)
  | failure (attempt : TaskAttempt)
  | event (record : EventRecord)
  | roles (node : NodeId) (roles : RoleSet) (at' : Millis)
  deriving DecidableEq

/-- Everything durable the supervisor asks for. The first four are awaited, `queued` is deferred. -/
inductive DurableOp where
  | reserveJob
  | reserveTasks (count : Nat)
  | createJob (job : Job) (tasks : List Task)
  | saveTask (task : Task)
  | queued (write : Write)
  deriving DecidableEq

/-! ## The store -/

structure Store where
  jobs : Table Job
  tasks : Table Task
  failures : List TaskAttempt
  events : Table EventRecord
  nodeRoles : Table RoleSet
  jobSeq : Nat
  taskSeq : Nat

namespace Store

def empty : Store := ⟨∅, ∅, [], ∅, ∅, 0, 0⟩

/-- `reserve("job", 1)` -/
def nextJobId (st : Store) : JobId × Store := (st.jobSeq + 1, { st with jobSeq := st.jobSeq + 1 })

/-- Reserve `count` contiguous task ids and return the first. -/
def reserveTaskIds (st : Store) (count : Nat) : TaskId × Store :=
  let count := max count 1
  let last := st.taskSeq + count
  (last - count + 1, { st with taskSeq := last })

/-- `INSERT INTO tasks`: the id is the primary key. -/
def insertTask (st : Store) (t : Task) : Option Store :=
  if st.tasks.contains t.id then none else some { st with tasks := st.tasks.insert t.id t }

/-- A job and its tasks appear together or not at all. -/
def createJob (st : Store) (j : Job) (tasks : List Task) : Option Store :=
  if st.jobs.contains j.id then none
  else tasks.foldlM insertTask { st with jobs := st.jobs.insert j.id j }

/-- `UPDATE jobs`: the columns of a job that change after its creation. -/
def jobColumns (j row : Job) : Job :=
  { row with
    state := j.state, tasksCompleted := j.tasksCompleted, tasksFailed := j.tasksFailed
    finishedAt := j.finishedAt }

/-- `UPDATE tasks`: the columns of a task that change after its creation. -/
def taskColumns (t row : Task) : Task :=
  { row with
    state := t.state, assignedTo := t.assignedTo, attempt := t.attempt, output := t.output
    updatedAt := t.updatedAt }

def saveJob (st : Store) (j : Job) : Store := { st with jobs := st.jobs.modify j.id (jobColumns j) }

def saveTask (st : Store) (t : Task) : Store :=
  { st with tasks := st.tasks.modify t.id (taskColumns t) }

def recordFailure (st : Store) (a : TaskAttempt) : Store :=
  { st with failures := st.failures ++ [a] }

/-- A duplicate sequence number is a no-op rather than an error. -/
def append (st : Store) (r : EventRecord) : Store :=
  { st with events := st.events.insertIfNew r.seq r }

def saveNodeRoles (st : Store) (node : NodeId) (roles : RoleSet) : Store :=
  { st with nodeRoles := st.nodeRoles.insert node roles }

/-- One turn of the background writer. -/
def drain (st : Store) : Write → Store
  | .job j => st.saveJob j
  | .task t => st.saveTask t
  | .failure a => st.recordFailure a
  | .event r => st.append r
  | .roles node roles _ => st.saveNodeRoles node roles

/-- The effect of one durable operation once it reaches the store. -/
def perform (st : Store) : DurableOp → Store
  | .reserveJob => st.nextJobId.2
  | .reserveTasks count => (st.reserveTaskIds count).2
  | .createJob j tasks => (st.createJob j tasks).getD st
  | .saveTask t => st.saveTask t
  | .queued w => st.drain w

/-- The store after a sequence of durable operations, applied in order. -/
def replay (st : Store) (ops : List DurableOp) : Store := ops.foldl perform st

theorem replay_append (st : Store) (a b : List DurableOp) :
    st.replay (a ++ b) = (st.replay a).replay b := List.foldl_append

theorem replay_concat (st : Store) (a : List DurableOp) (op : DurableOp) :
    st.replay (a ++ [op]) = (st.replay a).perform op := by
  rw [replay_append]; rfl

/-! ## Reading -/

/-- Highest sequence number persisted. -/
def lastSeq (st : Store) : Nat := st.events.maxKey?.getD 0

/-- `ORDER BY id DESC LIMIT ?` -/
def recentJobs (st : Store) (limit : Nat) : List Job := st.jobs.rows.reverse.take limit

/-- `WHERE job_id = ? ORDER BY idx` -/
def tasksForJob (st : Store) (id : JobId) : List Task :=
  (st.tasks.rows.filter fun t => t.jobId == id).insertionSort fun a b => a.index ≤ b.index

/-- `WHERE state IN ('queued', 'running') ORDER BY id`, each job with its tasks. -/
def unfinishedJobs (st : Store) : List (Job × List Task) :=
  (st.jobs.rows.filter fun j => j.state == .queued || j.state == .running).map
    fun j => (j, st.tasksForJob j.id)

/-- The port's own paging over `unfinishedJobs`, which the cluster store does not override. -/
def unfinishedJobsPage (st : Store) (after : Option JobId) (limit : Nat) :
    List (Job × List Task) :=
  (st.unfinishedJobs.filter fun r => after.all fun id => decide (id < r.1.id)).take limit

end Store

end Gavel.Cluster
