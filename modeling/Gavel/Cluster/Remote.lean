import Gavel.Cluster.Agent
import Gavel.Cluster.Bootstrap

/-!
# Remote workers

A connection ties one worker's agent to the supervisor: it relays the node's inbox to the wire and the
worker's frames to the report channel. Every channel in between keeps its order. A fleet is the
supervisor with every connection that ever attached and the reports it has not taken yet.
-/

namespace Gavel.Cluster

/-! ## One connection -/

/-- Where a connection is in its life, from the moment the supervisor accepted its worker. -/
inductive Phase where
  /-- `Welcome` is not written yet. -/
  | greeting
  /-- The relay loop runs. -/
  | serving
  /-- The loop ended and `DetachRemote` is on its way. -/
  | leaving
  /-- Nothing more comes from it. -/
  | gone
  deriving DecidableEq, Repr

structure Connection where
  attachment : RemoteAttachment
  phase : Phase
  /-- The task this worker is currently holding. -/
  assigned : Option Task
  toWorker : List SupervisorMessage
  fromWorker : List NodeMessage
  agent : Agent

namespace Connection

def new (attachment : RemoteAttachment) (agent : Agent) : Connection :=
  ⟨attachment, .greeting, none, [], [], agent⟩

def id (k : Connection) : NodeId := k.attachment.id

/-- The worker is on the other end: its connection has not begun to end. -/
def isOpen (k : Connection) : Bool :=
  match k.phase with
  | .greeting | .serving => true
  | .leaving | .gone => false

/-- Put one assignment on the wire, or say why it cannot go. The artifact store's answer and the
encoder's refusal come from outside. -/
def ship (id : TaskId) (spec : TaskSpec) (input : Option Bytes) (refusal : Option String) :
    Except String SupervisorMessage :=
  match WireTaskSpec.of spec input, refusal with
  | .error why, _ => .error why.toString
  | .ok _, some why => .error why
  | .ok wire, none => .ok (.assign id wire)

/-- A control frame. -/
def control : NodeInbox → Option SupervisorMessage
  | .pauseHeartbeat paused => some (.pauseHeartbeat paused)
  | .injectFailures count => some (.injectFailures count)
  | .setDelay ms => some (.setDelay ms)
  | .assign _ => none

/-- The connection takes one message from the node's inbox. A task the wire cannot carry is reported
as a failed attempt. -/
def relay (k : Connection) (msg : NodeInbox) (input : Option Bytes) (refusal : Option String) :
    Connection × Option NodeReport :=
  match msg with
  | .assign task =>
      match ship task.id task.spec input refusal with
      | .ok frame => ({ k with assigned := some task, toWorker := k.toWorker ++ [frame] }, none)
      | .error why => (k, some (.taskFinished k.id task (.failed .executionError why)))
  | msg =>
      if refusal.isSome then (k, none)
      else ({ k with toWorker := k.toWorker ++ (control msg).toList }, none)

/-- Resolve a task id reported by a worker against the task it was given. -/
def matchTask (assigned : Option Task) (reported : TaskId) : Option Task :=
  match assigned with
  | some task => if task.id = reported then some task else none
  | none => none

/-- The connection takes one frame from the worker. A worker may only speak for itself, so the id in a
heartbeat is overridden; what a task produced goes to the artifact store. -/
def take (k : Connection) : NodeMessage → Connection × Option NodeReport
  | .heartbeat hb => (k, some (.heartbeat { hb with node := k.id }))
  | .taskStarted task => (k, (matchTask k.assigned task).map fun task => .taskStarted k.id task)
  | .taskProduced _ _ => (k, none)
  | .taskFinished task outcome =>
      match matchTask k.assigned task with
      | some task => ({ k with assigned := none }, some (.taskFinished k.id task outcome))
      | none => (k, none)
  | .hello _ _ _ _ => (k, none)

/-- The worker handles the oldest frame. -/
def workerHandles (k : Connection) (now : Millis) : Connection :=
  match k.toWorker with
  | [] => k
  | message :: rest =>
      let handled := k.agent.handle message now
      { k with
        toWorker := rest, fromWorker := k.fromWorker ++ Agent.sends handled.1, agent := handled.2 }

/-- The worker's clock moves on. -/
def workerPolls (k : Connection) (now : Millis) : Connection :=
  let polled := k.agent.poll now
  { k with fromWorker := k.fromWorker ++ Agent.sends polled.1, agent := polled.2 }

end Connection

/-! ## The fleet -/

def NodeReport.node : NodeReport → NodeId
  | .heartbeat hb => hb.node
  | .taskStarted node _ | .taskFinished node _ _ => node

/-- What an operator or the supervisor's own timer asks for. -/
def Input.isCommand : Input → Bool
  | .submitJob _ _ | .setRole _ _ _ | .stopNode _ | .startNode _ | .pauseHeartbeat _ _
  | .injectFailures _ _ | .setTaskDelay _ _ | .tick => true
  | _ => false

structure Fleet where
  supervisor : Supervisor
  /-- Every connection that ever attached, by the channel it listens on. -/
  connections : Table Connection
  /-- The report channel, the oldest first. -/
  reports : List NodeReport

/-- One thing that happens. The clock reading is the supervisor's, or the worker's own in
`workerHandles` and `workerPolls`. -/
inductive FleetAction where
  | command (now : Millis) (i : Input)
  /-- An in-process node reports, takes a message from its inbox or stops listening. -/
  | inProcess (now : Millis) (i : Input)
  /-- A worker's handshake reaches the supervisor. -/
  | attach (now : Millis) (id : Option NodeId) (capabilities : NodeCapabilities)
      (heartbeatIntervalMs : Nat) (workload : Option Workload)
  | welcome (c : ChannelId) (written : Bool)
  | relay (c : ChannelId) (input : Option Bytes) (refusal : Option String)
  | workerHandles (c : ChannelId) (now : Millis)
  | workerPolls (c : ChannelId) (now : Millis)
  | take (c : ChannelId)
  | report (now : Millis)
  /-- The relay loop ends: a shutdown signal, a closed socket, a failed write. -/
  | hangUp (c : ChannelId)
  /-- The inbox of a connection that has ended is dropped. -/
  | dropInbox (c : ChannelId)
  | detach (now : Millis) (c : ChannelId)

namespace Fleet

def boot (config : LocalClusterConfig) (scheduler : Scheduler) (elector : Elector) (store : Store)
    (now : Millis) : Fleet :=
  ⟨Supervisor.bootstrap config scheduler elector store now, ∅, []⟩

/-- The supervisor handles one message. -/
def supervise (f : Fleet) (now : Millis) (i : Input) : Fleet :=
  { f with supervisor := f.supervisor.handle now i }

/-- The input comes from a node of this process. -/
def isInProcess (f : Fleet) : Input → Bool
  | .report r => f.supervisor.nodes[r.node]?.any fun e => e.kind == .simulated
  | .receive c | .close c => !f.connections.contains c
  | _ => false

def put (f : Fleet) (c : ChannelId) (k : Connection) (report : Option NodeReport) : Fleet :=
  { f with connections := f.connections.insert c k, reports := f.reports ++ report.toList }

def attach (f : Fleet) (now : Millis) (id : Option NodeId) (capabilities : NodeCapabilities)
    (agent : Agent) : Fleet :=
  let r := f.supervisor.attachRemote now id capabilities
  match r.1 with
  | .ok a => { f with supervisor := r.2, connections := f.connections.insert a.channel (.new a agent) }
  | .error _ => { f with supervisor := r.2 }

def welcome (f : Fleet) (c : ChannelId) (written : Bool) (k : Connection) : Fleet :=
  if written then
    f.put c { k with
      phase := .serving
      toWorker := [.welcome protocolVersion k.id k.attachment.heartbeatIntervalMs] } none
  else f.put c { k with phase := .gone } none

def relay (f : Fleet) (c : ChannelId) (input : Option Bytes) (refusal : Option String)
    (k : Connection) : Fleet :=
  match (f.supervisor.mailboxes c).pending with
  | [] => f
  | msg :: _ =>
      let relayed := k.relay msg input refusal
      -- Receiving does not read the clock.
      (f.supervise 0 (.receive c)).put c relayed.1 relayed.2

def take (f : Fleet) (c : ChannelId) (k : Connection) : Fleet :=
  match k.fromWorker with
  | [] => f
  | message :: rest =>
      let taken := { k with fromWorker := rest }.take message
      f.put c taken.1 taken.2

def report (f : Fleet) (now : Millis) : Fleet :=
  match f.reports with
  | [] => f
  | r :: rest => { f with reports := rest }.supervise now (.report r)

/-- The connection on a channel, if it is in the given phase. -/
def inPhase (f : Fleet) (c : ChannelId) (phase : Phase) : Option Connection :=
  f.connections[c]?.filter fun k => k.phase == phase

/-- An action that cannot happen changes nothing. -/
def step (f : Fleet) : FleetAction → Fleet
  | .command now i => if i.isCommand then f.supervise now i else f
  | .inProcess now i => if f.isInProcess i then f.supervise now i else f
  | .attach now id capabilities heartbeatIntervalMs workload =>
      f.attach now id capabilities
        { Agent.new id capabilities heartbeatIntervalMs with workload := workload }
  | .welcome c written => (f.inPhase c .greeting).elim f (f.welcome c written)
  | .relay c input refusal => (f.inPhase c .serving).elim f (f.relay c input refusal)
  | .workerHandles c now =>
      (f.inPhase c .serving).elim f fun k => f.put c (k.workerHandles now) none
  | .workerPolls c now => (f.inPhase c .serving).elim f fun k => f.put c (k.workerPolls now) none
  | .take c => (f.inPhase c .serving).elim f (f.take c)
  | .report now => f.report now
  | .hangUp c => (f.inPhase c .serving).elim f fun k => f.put c { k with phase := .leaving } none
  | .dropInbox c => if f.connections[c]?.any (fun k => !k.isOpen) then f.supervise 0 (.close c) else f
  | .detach now c =>
      (f.inPhase c .leaving).elim f fun k =>
        (f.supervise now (.detachRemote k.id k.attachment.generation)).put c
          { k with phase := .gone } none

/-- The states of a run: bootstrap, then each state after an action. -/
def run (config : LocalClusterConfig) (scheduler : Scheduler) (elector : Elector) (store : Store)
    (now : Millis) (actions : List FleetAction) : List Fleet :=
  Run.visited step (boot config scheduler elector store now) actions

end Fleet

end Gavel.Cluster
