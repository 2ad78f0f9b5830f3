import Gavel.Cluster.Supervisor

/-!
# The worker

The node side of the protocol: what a worker runs, the messages it exchanges with the supervisor, and
the agent, which is fed messages and clock readings and answers with actions.
-/

namespace Gavel.Cluster

abbrev Bytes := List UInt8

def u64Max : Nat := 2 ^ 64 - 1

/-- `u64::saturating_add` -/
def satAdd (a b : Nat) : Nat := min (a + b) u64Max

/-! ## Workloads -/

/-- What a caller must do to finish a task. -/
inductive TaskWork where
  | wait (millis : Nat) (output : String)
  | done (output : String)
  | produced (output : String) (artifact : Bytes)
  deriving DecidableEq

/-- What runs a task this crate cannot compute. -/
abbrev Workload := NodeId → TaskSpec → Bytes → Option TaskWork

/-- The trial division by 6k ± 1. The square is a wrapping product, as in the release build; the
divisor takes at most 2 ^ 64 values, which bounds the rounds. -/
def trialDivision (n : Nat) : Nat → Nat → Bool
  | 0, _ => true
  | fuel + 1, d =>
      if d * d % 2 ^ 64 ≤ n then
        if n % d = 0 ∨ n % ((d + 2) % 2 ^ 64) = 0 then false
        else trialDivision n fuel ((d + 6) % 2 ^ 64)
      else true

def isPrime (n : Nat) : Bool :=
  if n < 2 then false
  else if n % 2 = 0 then n == 2
  else if n % 3 = 0 then n == 3
  else trialDivision n (2 ^ 64) 5

/-- Count the primes in a half-open range. -/
def countPrimes (start stop : Nat) : Nat :=
  ((List.range' (max start 2) (stop - max start 2)).filter isPrime).length

def primesOutput (node : NodeId) (start stop count : Nat) : String :=
  s!"{count} primes in {start}..{stop} on {nodeName node}"

/-- Execute the computable part of a task; `none` for a spec only the host can run. -/
def runTask (node : NodeId) : TaskSpec → Option TaskWork
  | .sleep millis => some (.wait millis s!"slept {millis}ms on {nodeName node}")
  | .primes start stop => some (.done (primesOutput node start stop (countPrimes start stop)))
  | .analysis _ _ _ => none

/-! ## Messages -/

def protocolVersion : Nat := 4

def maxFrame : Nat := 256 * 1024

/-- Largest artifact either side will put in a frame, in bytes. -/
def maxArtifact : Nat := maxFrame - 1024

/-- FNV-1a, 64-bit. -/
def digest (bytes : Bytes) : UInt64 :=
  bytes.foldl (fun hash byte => (hash ^^^ byte.toUInt64) * 0x1000000001b3) 0xcbf29ce484222325

/-- Bytes a task needs, or produced, with an integrity check. -/
structure Artifact where
  bytes : Bytes
  digest : UInt64
  deriving DecidableEq

def Artifact.new (bytes : Bytes) : Artifact := ⟨bytes, Gavel.Cluster.digest bytes⟩

/-- The bytes, if they are the bytes that were sent. -/
def Artifact.verify (a : Artifact) : Option Bytes :=
  if Gavel.Cluster.digest a.bytes = a.digest then some a.bytes else none

/-- A task spec in the form the codec carries. -/
inductive WireTaskSpec where
  | sleep (millis : Nat)
  | primes (start : Nat) (stop : Nat)
  | analysis (version : Nat) (algorithm : Nat) (part : Nat) (input : Artifact)
  deriving DecidableEq

inductive Unshippable where
  | inputGone
  | tooLarge (bytes : Nat)
  deriving DecidableEq

/-- A task that cannot be sent, and which of the two reasons it is. -/
structure NotShippable where
  kind : String
  why : Unshippable
  deriving DecidableEq

def NotShippable.toString (e : NotShippable) : String :=
  match e.why with
  | .inputGone =>
      "a " ++ e.kind ++ " task cannot be sent: the input it references is no longer registered, " ++
        "so the candidate it belongs to has been abandoned"
  | .tooLarge bytes =>
      "a " ++ e.kind ++ s!" task cannot be sent: its input is {bytes} bytes and a frame carries " ++
        s!"at most {maxArtifact}"

namespace WireTaskSpec

/-- Put a task on the wire with whatever input it references. -/
def «of» (spec : TaskSpec) (input : Option Bytes) : Except NotShippable WireTaskSpec :=
  match spec with
  | .sleep millis => .ok (.sleep millis)
  | .primes start stop => .ok (.primes start stop)
  | .analysis version algorithm part =>
      match input with
      | some bytes =>
          if maxArtifact < bytes.length then .error ⟨"analysis", .tooLarge bytes.length⟩
          else .ok (.analysis version algorithm part (.new bytes))
      | none => .error ⟨"analysis", .inputGone⟩

/-- The input this spec carries, if it survived the journey. -/
def input : WireTaskSpec → Option Bytes
  | .analysis _ _ _ input => input.verify
  | _ => some []

def toTaskSpec : WireTaskSpec → TaskSpec
  | .sleep millis => .sleep millis
  | .primes start stop => .primes start stop
  | .analysis version algorithm part _ => .analysis version algorithm part

end WireTaskSpec

/-- Worker to supervisor. -/
inductive NodeMessage where
  | hello (protocol : Nat) (node : Option NodeId) (capabilities : NodeCapabilities)
      (token : Option String)
  | heartbeat (hb : Heartbeat)
  | taskProduced (task : TaskId) (artifact : Artifact)
  | taskStarted (task : TaskId)
  | taskFinished (task : TaskId) (outcome : TaskOutcome)
  deriving DecidableEq

/-- Supervisor to worker. -/
inductive SupervisorMessage where
  | welcome (protocol : Nat) (node : NodeId) (heartbeatIntervalMs : Nat)
  | rejected (reason : RejectReason)
  | assign (task : TaskId) (spec : WireTaskSpec)
  | pauseHeartbeat (paused : Bool)
  | injectFailures (count : Nat)
  | setDelay (ms : Nat)
  | shutdown
  deriving DecidableEq

/-! ## The agent -/

/-- What the agent wants the caller to do next. -/
inductive AgentAction where
  | send (message : NodeMessage)
  | wakeIn (ms : Nat)
  | disconnect
  deriving DecidableEq

/-- Candidates checked per poll. -/
def computeSlice : Nat := 8000

/-- The state of the task a worker is holding. -/
inductive Work where
  | ready (output : String)
  | produced (output : String) (artifact : Bytes)
  | primes (node : NodeId) (start stop cursor found : Nat)
  deriving DecidableEq

/-- A task the worker has accepted and not yet finished. -/
structure Running where
  id : TaskId
  /-- Earliest time the result may be reported. -/
  readyAt : Millis
  work : Work
  deriving DecidableEq

namespace Work

/-- A computation advanced by one slice. -/
def advance : Work → Work
  | .primes node start stop cursor found =>
      let next := min (satAdd cursor computeSlice) stop
      let found := found + countPrimes cursor next
      if stop ≤ next then .ready (primesOutput node start stop found)
      else .primes node start stop next found
  | work => work

end Work

namespace Running

def advanced (r : Running) : Running := { r with work := r.work.advance }

/-- The result is known and its time has come. -/
def isDue (r : Running) (now : Millis) : Bool :=
  match r.work with
  | .ready _ | .produced _ _ => decide (r.readyAt ≤ now)
  | .primes _ _ _ _ _ => false

/-- The messages a finished task is reported with: the artifact goes before the completion. -/
def results (r : Running) : List NodeMessage :=
  match r.work with
  | .ready output => [.taskFinished r.id (.completed output)]
  | .produced output artifact =>
      if maxArtifact < artifact.length then
        [.taskFinished r.id (.failed .executionError
          s!"this result is {artifact.length} bytes and a frame carries at most {maxArtifact}")]
      else [.taskProduced r.id (.new artifact), .taskFinished r.id (.completed output)]
  | .primes _ _ _ _ _ => []

end Running

structure Agent where
  /-- `none` until the coordinator hands one over. -/
  id : Option NodeId
  capabilities : NodeCapabilities
  heartbeatIntervalMs : Nat
  nextHeartbeat : Millis
  running : Option Running
  heartbeatPaused : Bool
  pendingFailures : Nat
  extraDelayMs : Nat
  freeMemoryBytes : Nat
  joined : Bool
  token : Option String
  workload : Option Workload

namespace Agent

def new (id : Option NodeId) (capabilities : NodeCapabilities) (heartbeatIntervalMs : Nat) : Agent where
  id := id
  capabilities := capabilities
  heartbeatIntervalMs := heartbeatIntervalMs
  nextHeartbeat := 0
  running := none
  heartbeatPaused := false
  pendingFailures := 0
  extraDelayMs := 0
  freeMemoryBytes := 0
  joined := false
  token := none
  workload := none

/-- An ordinary worker: anonymous until welcomed. -/
def anonymous (capabilities : NodeCapabilities) (heartbeatIntervalMs : Nat) : Agent :=
  new none capabilities heartbeatIntervalMs

/-- A worker with a fixed identity. -/
def withId (id : NodeId) (capabilities : NodeCapabilities) (heartbeatIntervalMs : Nat) : Agent :=
  new (some id) capabilities heartbeatIntervalMs

/-- The first thing to put on the wire after connecting. -/
def hello (a : Agent) : NodeMessage := .hello protocolVersion a.id a.capabilities a.token

def setFreeMemory (a : Agent) (bytes : Nat) : Agent := { a with freeMemoryBytes := bytes }

/-- What the worker reports about itself. -/
def load (a : Agent) : NodeLoad :=
  let busy := a.running.isSome
  ⟨if busy then 100 else 0, if busy then 1 else 0, a.freeMemoryBytes, false⟩

/-- Milliseconds until the agent next has something to do. -/
def nextWakeMs (a : Agent) (now : Millis) : Option Nat :=
  let heartbeat := if a.joined && !a.heartbeatPaused then some (a.nextHeartbeat - now) else none
  let task := a.running.map fun r =>
    match r.work with
    | .primes _ _ _ _ _ => 0
    | .ready _ | .produced _ _ => r.readyAt - now
  match heartbeat, task with
  | some a, some b => some (min a b)
  | some a, none => some a
  | none, some b => some b
  | none, none => none

/-- Report the task if it is due. -/
def finish (a : Agent) (now : Millis) : List AgentAction × Agent :=
  match a.running with
  | some r =>
      if r.isDue now then (r.results.map .send, { a with running := none }) else ([], a)
  | none => ([], a)

/-- A heartbeat if one is due. Nothing is sent before the supervisor has welcomed this node. -/
def beat (a : Agent) (now : Millis) : List AgentAction × Agent :=
  match a.id with
  | some node =>
      if a.joined && !a.heartbeatPaused && decide (a.nextHeartbeat ≤ now) then
        let a := { a with nextHeartbeat := satAdd now (max a.heartbeatIntervalMs 1) }
        ([.send (.heartbeat ⟨node, a.load, now⟩)], a)
      else ([], a)
  | none => ([], a)

/-- Drive time forward. -/
def poll (a : Agent) (now : Millis) : List AgentAction × Agent :=
  let advanced := { a with running := a.running.map Running.advanced }
  let finished := advanced.finish now
  let beaten := finished.2.beat now
  (finished.1 ++ beaten.1 ++ ((beaten.2.nextWakeMs now).map AgentAction.wakeIn).toList, beaten.2)

def busyDetail : String := "node was already busy"

def injectedDetail : String := "failure injected on this node"

/-- How long a task waits and what it leaves to do, if this worker can run it. -/
def startWork (a : Agent) (node : NodeId) (wire : WireTaskSpec) : Option (Nat × Work) :=
  match wire.toTaskSpec with
  | .primes start stop => some (0, .primes node start stop start 0)
  | spec =>
      let own := runTask node spec
      let host := do
        let input ← wire.input
        let run ← a.workload
        run node spec input
      (own.or host).map fun
        | .done output => (0, .ready output)
        | .wait millis output => (millis, .ready output)
        | .produced output artifact => (0, .produced output artifact)

/-- Begin a task. -/
def accept (a : Agent) (id : TaskId) (wire : WireTaskSpec) (now : Millis) : List AgentAction × Agent :=
  match a.id with
  | none => ([], a)
  | some node =>
      match a.running with
      | some running =>
          -- The same task handed back is already in flight; a different one is bounced.
          if running.id = id then ([], a)
          else ([.send (.taskFinished id (.failed .executionError busyDetail))], a)
      | none =>
          if 0 < a.pendingFailures then
            ([.send (.taskStarted id), .send (.taskFinished id (.failed .injected injectedDetail))],
              { a with pendingFailures := a.pendingFailures - 1 })
          else
            match a.startWork node wire with
            | none =>
                ([.send (.taskStarted id), .send (.taskFinished id (.failed .executionError
                  ("this worker cannot run " ++ wire.toTaskSpec.describe)))], a)
            | some (waitMs, work) =>
                let running := ⟨id, satAdd now (satAdd waitMs a.extraDelayMs), work⟩
                let polled := { a with running := some running }.poll now
                (.send (.taskStarted id) :: polled.1, polled.2)

/-- Handle one message from the supervisor. -/
def handle (a : Agent) (message : SupervisorMessage) (now : Millis) : List AgentAction × Agent :=
  match message with
  | .welcome _ node heartbeatIntervalMs =>
      { a with
        id := some node, joined := true
        heartbeatIntervalMs :=
          if 0 < heartbeatIntervalMs then heartbeatIntervalMs else a.heartbeatIntervalMs
        nextHeartbeat := now }.poll now
  | .rejected _ | .shutdown => ([.disconnect], a)
  | .pauseHeartbeat paused => { a with heartbeatPaused := paused }.poll now
  | .injectFailures count =>
      { a with pendingFailures := min (a.pendingFailures + count) (2 ^ 32 - 1) }.poll now
  | .setDelay ms => { a with extraDelayMs := ms }.poll now
  | .assign task spec => a.accept task spec now

/-- The messages among the actions, in order. -/
def sends (actions : List AgentAction) : List NodeMessage :=
  actions.filterMap fun
    | .send message => some message
    | _ => none

end Agent

/-! ## The life of a worker -/

/-- What the process that drives an agent calls. -/
inductive AgentCall where
  | handle (message : SupervisorMessage) (now : Millis)
  | poll (now : Millis)
  | setFreeMemory (bytes : Nat)
  deriving DecidableEq

namespace Agent

def call (a : Agent) : AgentCall → List AgentAction × Agent
  | .handle message now => a.handle message now
  | .poll now => a.poll now
  | .setFreeMemory bytes => ([], a.setFreeMemory bytes)

/-- What is sent over a sequence of calls, and the agent after them. -/
def converse (a : Agent) : List AgentCall → List NodeMessage × Agent
  | [] => ([], a)
  | c :: calls =>
      let called := a.call c
      let rest := called.2.converse calls
      (sends called.1 ++ rest.1, rest.2)

end Agent

end Gavel.Cluster
