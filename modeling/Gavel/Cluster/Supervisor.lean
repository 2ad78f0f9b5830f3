import Gavel.Cluster.Store
import Mathlib.Logic.Function.Basic
import Mathlib.Tactic.Simps.Basic

/-!
# The supervisor

The single owner of cluster state: the registry, the job and task tables, the queue, the event log
and leadership. It handles one message at a time; the clock is read once per message.

Three fields stand for what the supervisor's calls reach outside it. `mailboxes` are the bounded
channels its node handles send into, `jobSeq` and `taskSeq` are the id sequences of the store, and
`journal` lists the durable operations it has issued so far, in order, each with the job and task
tables at the moment it was issued.
-/

namespace Gavel.Cluster

/-! ## Mailboxes -/

/-- Identity of a channel. Every launch and every connection makes a channel of its own. -/
abbrev ChannelId := Nat

/-- Messages the supervisor sends to a node. -/
inductive NodeInbox where
  | assign (task : Task)
  | pauseHeartbeat (paused : Bool)
  | injectFailures (count : Nat)
  | setDelay (ms : Nat)
  deriving DecidableEq

/-- `mpsc::channel(8)`: what the receiver took already, what is waiting, and whether it still
listens. -/
structure Mailbox where
  taken : List NodeInbox
  pending : List NodeInbox
  listening : Bool
  deriving DecidableEq

namespace Mailbox

def fresh : Mailbox := ⟨[], [], true⟩

def capacity : Nat := 8

/-- Everything ever pushed into the channel. -/
def history (m : Mailbox) : List NodeInbox := m.taken ++ m.pending

/-- A push succeeds: the receiver listens and there is room. -/
def accepts (m : Mailbox) : Bool := m.listening && decide (m.pending.length < capacity)

def trySend (m : Mailbox) (msg : NodeInbox) : Option Mailbox :=
  if m.accepts then some { m with pending := m.pending ++ [msg] } else none

/-- The receiving end takes the oldest message. -/
def receive (m : Mailbox) : Mailbox :=
  match m.pending with
  | [] => m
  | msg :: rest => { m with taken := m.taken ++ [msg], pending := rest }

/-- The receiving end goes away. -/
def close (m : Mailbox) : Mailbox := { m with listening := false }

end Mailbox

/-! ## Messages to the supervisor -/

/-- Messages a node sends back. -/
inductive NodeReport where
  | heartbeat (hb : Heartbeat)
  | taskStarted (node : NodeId) (task : Task)
  | taskFinished (node : NodeId) (task : Task) (outcome : TaskOutcome)
  deriving DecidableEq

inductive ClusterError where
  | unknownNode (id : NodeId)
  | nodeAlreadyRunning (id : NodeId)
  | nodeNotRunning (id : NodeId)
  | unavailable (detail : String)
  deriving DecidableEq, Repr

inductive RejectReason where
  | unknownNode | alreadyConnected | full
  deriving DecidableEq, Repr

/-- What a freshly attached worker is told, with the channel its connection listens on. -/
structure RemoteAttachment where
  id : NodeId
  heartbeatIntervalMs : Nat
  generation : Nat
  channel : ChannelId
  deriving DecidableEq, Repr

/-- The awaited store call of a submission that fails, if one does. -/
inductive StoreCall where
  | nextJobId | reserveTaskIds | createJob
  deriving DecidableEq, Repr

/-- One thing that happens to the supervisor: a command, a report, the periodic tick, or the other
end of a channel it sends into taking a message or going away. -/
inductive Input where
  | submitJob (spec : JobSpec) (fault : Option (StoreCall × String))
  | setRole (node : NodeId) (role : Role) (enabled : Bool)
  | stopNode (id : NodeId)
  | startNode (id : NodeId)
  | pauseHeartbeat (id : NodeId) (paused : Bool)
  | injectFailures (id : NodeId) (count : Nat)
  | setTaskDelay (id : NodeId) (ms : Nat)
  | attachRemote (id : Option NodeId) (capabilities : NodeCapabilities)
  | detachRemote (id : NodeId) (generation : Nat)
  | report (r : NodeReport)
  | tick
  | receive (c : ChannelId)
  | close (c : ChannelId)
  deriving DecidableEq

/-! ## State -/

/-- Where a node runs. A declared worker stays in the registry while it is away; an undeclared one
was given an id when it dialled in. -/
inductive NodeKind where
  | simulated
  | remote (declared : Bool)
  deriving DecidableEq, Repr

structure NodeEntry where
  node : Node
  kind : NodeKind
  /-- `none` while the node is stopped or not connected. -/
  handle : Option ChannelId
  heartbeatPaused : Bool
  /-- Incremented on every attach. -/
  generation : Nat
  deriving DecidableEq, Repr

structure LocalClusterConfig where
  nodeCount : Nat
  health : HealthPolicy
  policies : RolePolicies
  eventBuffer : Nat
  jobBuffer : Nat
  maxTaskAttempts : U16
  profiles : List NodeCapabilities
  remoteNodes : List (NodeId × NodeCapabilities)

/-- The default configuration on a machine with the given capabilities. -/
def LocalClusterConfig.default (machine : NodeCapabilities) : LocalClusterConfig where
  nodeCount := 8
  health := .default
  policies := .default
  eventBuffer := 200
  jobBuffer := 200
  maxTaskAttempts := 3
  profiles := [machine]
  remoteNodes := []

/-- No in-process node, and one worker declared under a fixed id. -/
def LocalClusterConfig.oneWorker (id : NodeId) (machine : NodeCapabilities) : LocalClusterConfig :=
  { LocalClusterConfig.default machine with nodeCount := 0, remoteNodes := [(id, machine)] }

/-- No in-process node and no declared worker: everyone is given an id. -/
def LocalClusterConfig.anonymousOnly (machine : NodeCapabilities) : LocalClusterConfig :=
  { LocalClusterConfig.default machine with nodeCount := 0 }

/-- A durable operation and the tables at the moment it was issued. -/
structure JournalEntry where
  op : DurableOp
  jobs : Table Job
  tasks : Table Task

structure Supervisor where
  config : LocalClusterConfig
  scheduler : Scheduler
  elector : Elector
  nodes : Table NodeEntry
  jobs : Table Job
  tasks : Table Task
  queue : List TaskId
  events : List EventRecord
  eventSeq : Nat
  leader : Option NodeId
  gateway : Option NodeId
  mailboxes : ChannelId → Mailbox
  nextChannel : ChannelId
  jobSeq : Nat
  taskSeq : Nat
  journal : List JournalEntry

/-- `u64::wrapping_add(1)` -/
def wrapSucc (n : Nat) : Nat := (n + 1) % 2 ^ 64

/-- How a node id is printed. -/
def nodeName (id : NodeId) : String := "node-" ++ (if id < 10 then "0" else "") ++ toString id

namespace Supervisor

/-! ## Plumbing -/

@[simps]
def issue (s : Supervisor) (op : DurableOp) : Supervisor :=
  { s with journal := s.journal ++ [⟨op, s.jobs, s.tasks⟩] }

@[simps!]
def emit (s : Supervisor) (now : Millis) (event : ClusterEvent) : Supervisor :=
  let record : EventRecord := ⟨s.eventSeq + 1, now, event⟩
  { s.issue (.queued (.event record)) with
    eventSeq := s.eventSeq + 1, events := s.events ++ [record] }

@[simps!]
def persistTask (s : Supervisor) (t : Task) : Supervisor := s.issue (.queued (.task t))

@[simps!]
def persistJob (s : Supervisor) (j : Job) : Supervisor := s.issue (.queued (.job j))

@[simps!]
def persistRoles (s : Supervisor) (now : Millis) (node : NodeId) (roles : RoleSet) : Supervisor :=
  s.issue (.queued (.roles node roles now))

@[simps]
def putTask (s : Supervisor) (t : Task) : Supervisor := { s with tasks := s.tasks.insert t.id t }

@[simps]
def putJob (s : Supervisor) (id : JobId) (j : Job) : Supervisor :=
  { s with jobs := s.jobs.insert id j }

@[simps]
def putNode (s : Supervisor) (id : NodeId) (e : NodeEntry) : Supervisor :=
  { s with nodes := s.nodes.insert id e }

/-! ## Leadership -/

def nodeList (s : Supervisor) : List Node := s.nodes.rows.map NodeEntry.node

/-- The coordinator of the current view: among the healthy holders of the role, else among all
healthy nodes. -/
def elected (s : Supervisor) : Option NodeId :=
  let eligible := s.nodeList.filter fun n => n.status.acceptsWork && n.hasRole .coordinator
  let fallback := s.nodeList.filter fun n => n.status.acceptsWork
  (s.elector eligible).or (s.elector fallback)

def gatewayNode (s : Supervisor) : Option NodeId :=
  (s.nodeList.find? fun n => n.status.acceptsWork && n.hasRole .gateway).map Node.id

def emitIf (s : Supervisor) (now : Millis) : Option ClusterEvent → Supervisor
  | some event => s.emit now event
  | none => s

def changeLeader (s : Supervisor) (now : Millis) (elected : Option NodeId) : Supervisor :=
  let s := (s.emitIf now (s.leader.map .leaderLost)).emitIf now (elected.map .leaderElected)
  { s with leader := elected }

/-- Gateway and coordinator are chosen separately. -/
def refreshLeadership (s : Supervisor) (now : Millis) : Supervisor :=
  let s := if s.elected ≠ s.leader then s.changeLeader now s.elected else s
  { s with gateway := s.gatewayNode }

/-! ## Jobs and tasks -/

def startJobIfQueued (s : Supervisor) (now : Millis) (id : JobId) : Supervisor :=
  match s.jobs[id]? with
  | none => s
  | some job =>
      if job.state = .queued then
        match job.transitionTo .running now with
        | .ok job => (s.putJob id job).persistJob job
        | .error _ => s
      else s

/-- Change a job in place, if it is in memory, and persist it. -/
def updateJob (s : Supervisor) (id : JobId) (f : Job → Job) : Supervisor :=
  match s.jobs[id]? with
  | none => s
  | some job => (s.putJob id (f job)).persistJob (f job)

/-- Move a job to a terminal state once its counters say that every task has settled. -/
def settleJob (s : Supervisor) (now : Millis) (id : JobId) : Supervisor :=
  match s.jobs[id]? with
  | none => s
  | some job =>
      if job.tasksCompleted + job.tasksFailed < job.taskCount then s
      else if job.state.isTerminal then s
      else
        let next := if 0 < job.tasksFailed then JobState.failed else JobState.completed
        match job.transitionTo next now with
        | .error _ => s
        | .ok job =>
            ((s.putJob id job).persistJob job).emit now
              (if next = .failed then .jobFailed id else .jobCompleted id)

@[simps!]
def recordFailure (s : Supervisor) (now : Millis) (t : Task) (reason : FailureReason)
    (detail : String) : Supervisor :=
  s.issue (.queued (.failure (TaskAttempt.new t reason detail now)))

def retryOrGiveUp (s : Supervisor) (now : Millis) (id : TaskId) : Supervisor :=
  match s.tasks[id]? with
  | none => s
  | some task =>
      if task.attempt < s.config.maxTaskAttempts.val then
        match task.requeue now with
        | .error _ => s
        | .ok task =>
            let s := (s.putTask task).persistTask task
            let s := { s with queue := s.queue ++ [task.id] }
            s.emit now (.taskRequeued task.id)
      else
        match task.fail now with
        | .error _ => s
        | .ok task =>
            let s := (s.putTask task).persistTask task
            let s := s.updateJob task.jobId fun job =>
              { job with tasksFailed := satSucc job.tasksFailed }
            s.settleJob now task.jobId

def finishTask (s : Supervisor) (now : Millis) (node : NodeId) (id : TaskId)
    (outcome : TaskOutcome) : Supervisor :=
  match s.tasks[id]? with
  | none => s
  | some task =>
      -- A late report from a node whose task was already requeued elsewhere.
      if task.assignedTo ≠ some node ∨ task.state.isTerminal then s
      else
        match outcome with
        | .completed output =>
            match task.complete output now with
            | .error _ => s
            | .ok task =>
                let s := (s.putTask task).persistTask task
                let s := s.emit now (.taskCompleted task.id node)
                let s := s.updateJob task.jobId fun job =>
                  { job with tasksCompleted := satSucc job.tasksCompleted }
                s.settleJob now task.jobId
        | .failed reason detail =>
            let s := s.recordFailure now task reason detail
            let s := s.emit now (.taskFailed task.id (some node) reason)
            s.retryOrGiveUp now id

/-- One task of a node that went away: fail the attempt and run the task elsewhere. -/
def requeueTask (now : Millis) (node : NodeId) (s : Supervisor) (id : TaskId) : Supervisor :=
  match s.tasks[id]? with
  | none => s
  | some task =>
      let s := s.recordFailure now task .nodeOffline "node went offline"
      let s := s.emit now (.taskFailed id (some node) .nodeOffline)
      s.retryOrGiveUp now id

/-- The unfinished tasks a node holds, in id order. -/
def tasksOf (s : Supervisor) (node : NodeId) : List TaskId :=
  (s.tasks.rows.filter fun t => t.assignedTo == some node && !t.state.isTerminal).map Task.id

def requeueTasksOf (s : Supervisor) (now : Millis) (node : NodeId) : Supervisor :=
  (s.tasksOf node).foldl (requeueTask now node) s

/-! ## Dispatch -/

/-- Idle, healthy compute nodes with a live handle. -/
def candidates (s : Supervisor) (busy : List NodeId) : List Node :=
  ((s.nodes.rows.filter fun e => e.handle.isSome && e.node.isSchedulable).filter
    fun e => !busy.contains e.node.id).map NodeEntry.node

/-- Push an assignment into the inbox of the node's current handle. -/
def sendAssign (s : Supervisor) (chosen : NodeId) (t : Task) : Option Supervisor := do
  let e ← s.nodes[chosen]?
  let c ← e.handle
  let m ← (s.mailboxes c).trySend (.assign t)
  return { s with mailboxes := Function.update s.mailboxes c m }

/-- One pass over the queue. `queue` is the supervisor's own queue, the argument the loop runs on. -/
def dispatchLoop (now : Millis) : List TaskId → List NodeId → Supervisor → Supervisor
  | [], _, s => s
  | id :: rest, busy, s =>
      match s.tasks[id]? with
      | none => dispatchLoop now rest busy { s with queue := rest }
      | some task =>
          match s.scheduler.selectNode task (s.candidates busy) with
          | none => s
          | some chosen =>
              let s := { s with queue := rest }
              match task.assign chosen now with
              | .error _ => dispatchLoop now rest busy s
              | .ok task =>
                  match s.sendAssign chosen task with
                  | none =>
                      -- The node vanished or stopped draining its mailbox: put the task back.
                      let task := match task.requeue now with
                        | .ok task => task
                        | .error _ => task
                      let s := s.putTask task
                      let s := { s with queue := task.id :: s.queue }
                      s.issue (.saveTask task)
                  | some s =>
                      let s := (s.putTask task).persistTask task
                      let s := s.startJobIfQueued now task.jobId
                      let s := s.emit now (.taskAssigned task.id chosen)
                      dispatchLoop now rest (chosen :: busy) s

/-- Nodes that hold a task. -/
def busyNodes (s : Supervisor) : List NodeId :=
  (s.tasks.rows.filter fun t => t.state.isHeld).filterMap Task.assignedTo

/-- Place queued tasks on idle, healthy compute nodes. -/
def dispatch (s : Supervisor) (now : Millis) : Supervisor :=
  dispatchLoop now s.queue s.busyNodes s

/-! ## Periodic work -/

/-- The status heartbeat age implies for an entry; a node without a handle is not judged. -/
def classifyEntry (health : HealthPolicy) (now : Millis) (e : NodeEntry) : NodeStatus :=
  if e.handle.isNone then e.node.status
  else (health.classify e.node.lastSeen now).getD .healthy

/-- What one status change entails. -/
def noteTransition (now : Millis) (s : Supervisor) (tr : NodeId × NodeStatus) : Supervisor :=
  match tr.2 with
  | .suspect => s.emit now (.nodeUnhealthy tr.1)
  | .offline => (s.emit now (.nodeLeft tr.1)).requeueTasksOf now tr.1
  | .healthy => s.emit now (.nodeRecovered tr.1)
  | .starting => s

def sweepHealth (s : Supervisor) (now : Millis) : Supervisor :=
  let transitions := (s.nodes.rows.filter fun e =>
      classifyEntry s.config.health now e ≠ e.node.status).map
    fun e => (e.node.id, classifyEntry s.config.health now e)
  let nodes := s.nodes.map fun _ e =>
    { e with node := { e.node with status := classifyEntry s.config.health now e } }
  transitions.foldl (noteTransition now) { s with nodes := nodes }

/-- Keep memory bounded: the store is the durable record, this is a cache. -/
def pruneMemory (s : Supervisor) : Supervisor :=
  let s := { s with events := s.events.drop (s.events.length - s.config.eventBuffer) }
  if s.jobs.size ≤ s.config.jobBuffer then s
  else
    let removable := ((s.jobs.rows.filter fun j => j.state.isTerminal).map Job.id).take
      (s.jobs.size - s.config.jobBuffer)
    { s with
      jobs := s.jobs.eraseAll removable
      tasks := s.tasks.filter fun _ t => !removable.contains t.jobId }

def tick (s : Supervisor) (now : Millis) : Supervisor :=
  let s := s.sweepHealth now
  let s := s.refreshLeadership now
  let s := s.dispatch now
  s.pruneMemory

/-! ## Reports from nodes -/

def handleReport (s : Supervisor) (now : Millis) : NodeReport → Supervisor
  | .heartbeat hb =>
      -- Stamped on arrival by the supervisor's clock, not by the sender's.
      match s.nodes[hb.node]? with
      | none => s
      | some e => s.putNode hb.node { e with node := { e.node with lastSeen := now, load := hb.load } }
  | .taskStarted node task =>
      match s.tasks[task.id]? with
      | none => s
      | some current =>
          if current.assignedTo = some node then
            match current.start now with
            | .ok current => { s with tasks := s.tasks.insert task.id current }.persistTask current
            | .error _ => s
          else s
  | .taskFinished node task outcome => (s.finishTask now node task.id outcome).dispatch now

/-! ## Commands -/

/-- `JobStore::allocate`, as far as the store calls succeed. -/
def submitJob (s : Supervisor) (now : Millis) (spec : JobSpec) (fault : Option (StoreCall × String)) :
    Except ClusterError JobId × Supervisor :=
  match fault with
  | some (.nextJobId, e) => (.error (.unavailable e), s)
  | some (.reserveTaskIds, e) =>
      (.error (.unavailable e), { s with jobSeq := s.jobSeq + 1 }.issue .reserveJob)
  | fault =>
      let jobId := s.jobSeq + 1
      let s := { s with jobSeq := jobId }.issue .reserveJob
      let job := Job.new jobId spec now
      let specs := spec.split
      let firstTask := s.taskSeq + 1
      let s := { s with taskSeq := s.taskSeq + max specs.length 1 }.issue
        (.reserveTasks specs.length)
      let tasks := specs.mapIdx fun index spec => Task.new (firstTask + index) jobId index spec now
      match fault with
      | some (_, e) => (.error (.unavailable e), s)
      | none =>
          let s := s.issue (.createJob job tasks)
          let s := s.putJob jobId job
          let s := tasks.foldl (fun s t => { s with queue := s.queue ++ [t.id] }.putTask t) s
          let s := s.emit now (.jobCreated jobId)
          (.ok jobId, s.dispatch now)

def setRole (s : Supervisor) (now : Millis) (id : NodeId) (role : Role) (enabled : Bool) :
    Except ClusterError Unit × Supervisor :=
  match s.nodes[id]? with
  | none => (.error (.unknownNode id), s)
  | some e =>
      let changed := if enabled then !e.node.roles.contains role else e.node.roles.contains role
      let roles := if enabled then e.node.roles.insert role else e.node.roles.remove role
      let s := s.putNode id { e with node := { e.node with roles := roles } }
      if changed then
        let s := s.persistRoles now id roles
        let s := s.emit now (if enabled then .roleAssigned id role else .roleRemoved id role)
        (.ok (), s.refreshLeadership now)
      else (.ok (), s)

/-- Start an in-process node on a channel of its own. -/
def launchNode (s : Supervisor) (now : Millis) (id : NodeId) : Supervisor :=
  match s.nodes[id]? with
  | none => s
  | some e =>
      let s := s.putNode id
        { e with
          node := { e.node with status := .healthy, lastSeen := now, load := .zero }
          heartbeatPaused := false
          handle := some s.nextChannel }
      { s with nextChannel := s.nextChannel + 1 }

/-- The lowest id no node currently holds. -/
def nextFreeId (s : Supervisor) : Option NodeId :=
  (List.range' 1 u16Max).find? fun id => !s.nodes.contains id

/-- The registry entry of a worker that was given an id. -/
def anonymousEntry (now : Millis) (id : NodeId) (capabilities : NodeCapabilities) : NodeEntry where
  node := { Node.new id capabilities now with roles := RoleSet.empty.insert .compute }
  kind := .remote false
  handle := none
  heartbeatPaused := false
  generation := 0

/-- The part of `attach_remote` after the identity is settled. Replacing a handle is evicting the
connection behind it; that connection notices its shutdown signal in its own time. -/
def attachEntry (s : Supervisor) (now : Millis) (id : NodeId) (capabilities : NodeCapabilities)
    (e : NodeEntry) : RemoteAttachment × Supervisor :=
  let e := { e with
    node := { e.node with
      capabilities := capabilities, status := .healthy, lastSeen := now, load := .zero }
    heartbeatPaused := false
    generation := wrapSucc e.generation
    handle := some s.nextChannel }
  let attachment : RemoteAttachment :=
    ⟨id, s.config.health.heartbeatIntervalMs, e.generation, s.nextChannel⟩
  let s := { s.putNode id e with nextChannel := s.nextChannel + 1 }
  let s := s.persistRoles now id e.node.roles
  let s := s.emit now (.nodeJoined id)
  let s := s.refreshLeadership now
  (attachment, s.dispatch now)

/-- A worker finished its handshake. -/
def attachRemote (s : Supervisor) (now : Millis) (id : Option NodeId)
    (capabilities : NodeCapabilities) : Except RejectReason RemoteAttachment × Supervisor :=
  match id with
  | none =>
      match s.nextFreeId with
      | none => (.error .full, s)
      | some id =>
          let e := anonymousEntry now id capabilities
          let r := (s.putNode id e).attachEntry now id capabilities e
          (.ok r.1, r.2)
  | some id =>
      match s.nodes[id]? with
      | none => (.error .unknownNode, s)
      | some e =>
          if e.kind = .simulated then (.error .unknownNode, s)
          else if e.handle.isSome && e.node.status.acceptsWork then (.error .alreadyConnected, s)
          else
            let r := s.attachEntry now id capabilities e
            (.ok r.1, r.2)

/-- A worker's connection dropped. -/
def detachRemote (s : Supervisor) (now : Millis) (id : NodeId) (generation : Nat) : Supervisor :=
  match s.nodes[id]? with
  | none => s
  | some e =>
      if e.generation ≠ generation ∨ e.handle.isNone then s
      else
        let s := s.putNode id
          { e with handle := none, node := { e.node with status := .offline, load := .zero } }
        let s := s.emit now (.nodeLeft id)
        -- Requeue before forgetting the node: work is looked up by the node it was assigned to.
        let s := s.requeueTasksOf now id
        let s :=
          if e.kind = .remote true then s
          else { s with nodes := s.nodes.erase id }.persistRoles now id .empty
        let s := s.refreshLeadership now
        s.dispatch now

def stopNode (s : Supervisor) (now : Millis) (id : NodeId) :
    Except ClusterError Unit × Supervisor :=
  match s.nodes[id]? with
  | none => (.error (.unknownNode id), s)
  | some e =>
      match e.handle with
      | none => (.error (.nodeNotRunning id), s)
      | some _ =>
          let s := s.putNode id
            { e with handle := none, node := { e.node with status := .offline, load := .zero } }
          let s := s.emit now (.nodeLeft id)
          let s := s.requeueTasksOf now id
          let s := s.refreshLeadership now
          (.ok (), s.dispatch now)

def startNode (s : Supervisor) (now : Millis) (id : NodeId) :
    Except ClusterError Unit × Supervisor :=
  match s.nodes[id]? with
  | none => (.error (.unknownNode id), s)
  | some e =>
      if e.handle.isSome then (.error (.nodeAlreadyRunning id), s)
      else if e.kind ≠ .simulated then
        (.error (.unavailable
          (nodeName id ++ " is a remote worker and rejoins by reconnecting on its own")), s)
      else
        let s := s.launchNode now id
        let s := s.emit now (.nodeJoined id)
        let s := s.refreshLeadership now
        (.ok (), s.dispatch now)

def sendToNode (s : Supervisor) (id : NodeId) (msg : NodeInbox) :
    Except ClusterError Unit × Supervisor :=
  match s.nodes[id]? with
  | none => (.error (.unknownNode id), s)
  | some e =>
      match e.handle with
      | none => (.error (.nodeNotRunning id), s)
      | some c =>
          match (s.mailboxes c).trySend msg with
          | none => (.error (.unavailable (nodeName id ++ " is not responding")), s)
          | some m => (.ok (), { s with mailboxes := Function.update s.mailboxes c m })

def pauseHeartbeat (s : Supervisor) (id : NodeId) (paused : Bool) :
    Except ClusterError Unit × Supervisor :=
  match s.sendToNode id (.pauseHeartbeat paused) with
  | (.error e, s) => (.error e, s)
  | (.ok (), s) =>
      match s.nodes[id]? with
      | none => (.ok (), s)
      | some e => (.ok (), s.putNode id { e with heartbeatPaused := paused })

/-- The state after one input, handled to the end. -/
def handle (s : Supervisor) (now : Millis) : Input → Supervisor
  | .submitJob spec fault => (s.submitJob now spec fault).2
  | .setRole node role enabled => (s.setRole now node role enabled).2
  | .stopNode id => (s.stopNode now id).2
  | .startNode id => (s.startNode now id).2
  | .pauseHeartbeat id paused => (s.pauseHeartbeat id paused).2
  | .injectFailures id count => (s.sendToNode id (.injectFailures count)).2
  | .setTaskDelay id ms => (s.sendToNode id (.setDelay ms)).2
  | .attachRemote id capabilities => (s.attachRemote now id capabilities).2
  | .detachRemote id generation => s.detachRemote now id generation
  | .report r => s.handleReport now r
  | .tick => s.tick now
  | .receive c =>
      { s with mailboxes := Function.update s.mailboxes c (s.mailboxes c).receive }
  | .close c =>
      if c < s.nextChannel then
        { s with mailboxes := Function.update s.mailboxes c (s.mailboxes c).close }
      else s

end Supervisor

end Gavel.Cluster
