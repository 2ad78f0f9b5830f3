import Gavel.Lib.Run
import Gavel.Cluster.Supervisor

/-!
# Startup

What the supervisor does before its first message: fill the registry, spread the roles, replay the
stored roles, launch the in-process nodes and restore the jobs.
-/

namespace Gavel.Cluster

/-! ## Initial roles -/

/-- Scan forward from the cursor for a node that does not hold the role yet, and give it the role.
The offset of that node is returned with the table. -/
def placeRole (role : Role) (ids : List NodeId) (cursor : Nat) (nodes : Table NodeEntry) :
    Option (Nat × Table NodeEntry) :=
  (List.range ids.length).findSome? fun offset => do
    let id ← ids[(cursor + offset) % ids.length]?
    let e ← nodes[id]?
    if e.node.roles.contains role then none
    else some (offset,
      nodes.insert id { e with node := { e.node with roles := e.node.roles.insert role } })

/-- Place up to `count` replicas of a role; stop early when no remaining node can hold it. -/
def placeReplicas (role : Role) (ids : List NodeId) :
    Nat → Nat × Table NodeEntry → Nat × Table NodeEntry
  | 0, acc => acc
  | count + 1, (cursor, nodes) =>
      match placeRole role ids cursor nodes with
      | some (offset, nodes) => placeReplicas role ids count (cursor + offset + 1, nodes)
      | none => (cursor, nodes)

/-- Every node computes; the other minimums are spread round-robin in priority order. -/
def assignInitialRoles (policies : RolePolicies) (nodes : Table NodeEntry) : Table NodeEntry :=
  let ids := nodes.keys
  if ids.isEmpty then nodes
  else
    let nodes := ids.foldl (fun nodes id => nodes.modify id fun e =>
      { e with node := { e.node with roles := e.node.roles.insert .compute } }) nodes
    ((degradationPriority.filter fun role => decide (role ≠ .compute)).foldl
      (fun acc role => placeReplicas role ids (policies role).minReplicas acc) (0, nodes)).2

/-- Replay stored role assignments over the startup defaults. -/
def restoreRoles (stored : Table RoleSet) (nodes : Table NodeEntry) : Table NodeEntry :=
  stored.toList.foldl (fun nodes r => nodes.modify r.1 fun e =>
    { e with node := { e.node with roles := r.2 } }) nodes

/-! ## The registry -/

def simulatedEntry (config : LocalClusterConfig) (now : Millis) (index : Nat) : NodeEntry where
  node :=
    -- An empty profile list stops the process at startup; any profile stands for it here.
    { Node.new (index + 1)
        ((config.profiles[index % max config.profiles.length 1]?).getD ⟨0, 0⟩) now with
      status := .healthy }
  kind := .simulated
  handle := none
  heartbeatPaused := false
  generation := 0

/-- A declared worker joins the registry at once, but offline. -/
def declaredEntry (now : Millis) (declared : NodeId × NodeCapabilities) : NodeEntry where
  node := { Node.new declared.1 declared.2 now with status := .offline }
  kind := .remote true
  handle := none
  heartbeatPaused := false
  generation := 0

def initialNodes (config : LocalClusterConfig) (now : Millis) : Table NodeEntry :=
  let nodes := (List.range config.nodeCount).foldl
    (fun (nodes : Table NodeEntry) index => nodes.insert (index + 1) (simulatedEntry config now index)) ∅
  config.remoteNodes.foldl
    (fun nodes declared =>
      if nodes.contains declared.1 then nodes
      else nodes.insert declared.1 (declaredEntry now declared)) nodes

/-! ## Jobs -/

/-- Rows per page of the recovery scan. -/
def recoveryPage : Nat := 200

/-- The paging loop over unfinished jobs. -/
def restorePages (store : Store) : Nat → Option JobId → Table (Job × List Task) →
    Table (Job × List Task)
  | 0, _, restored => restored
  | fuel + 1, after, restored =>
      let page := store.unfinishedJobsPage after recoveryPage
      match page.getLast? with
      | none => restored
      | some last =>
          let restored := page.foldl (fun restored r => restored.insert r.1.id r) restored
          if page.length = recoveryPage then restorePages store fuel (some last.1.id) restored
          else restored

/-- The jobs a restart loads: the recent window, and every unfinished job however old. Each page is
non-empty and starts after the last, so one round more than there are unfinished jobs is enough. -/
def restoredJobs (store : Store) (jobBuffer : Nat) : Table (Job × List Task) :=
  let recent := (store.recentJobs jobBuffer).foldl
    (fun (restored : Table (Job × List Task)) job =>
      restored.insert job.id (job, store.tasksForJob job.id)) ∅
  restorePages store (store.unfinishedJobs.length + 1) none recent

namespace Supervisor

/-- Load one task; the node that held an unfinished one no longer exists in this process. -/
def restoreTask (now : Millis) (unfinished : Bool) (s : Supervisor) (t : Task) : Supervisor :=
  if unfinished && !t.state.isTerminal then
    let t := { t with state := .queued, assignedTo := none, updatedAt := now }
    let s := s.issue (.saveTask t)
    let s := { s with queue := s.queue ++ [t.id] }
    s.putTask t
  else s.putTask t

def restoreJob (now : Millis) (s : Supervisor) (r : Job × List Task) : Supervisor :=
  r.2.foldl (restoreTask now (!r.1.state.isTerminal)) (s.putJob r.1.id r.1)

def restoreJobs (s : Supervisor) (now : Millis) (store : Store) : Supervisor :=
  (restoredJobs store s.config.jobBuffer).rows.foldl (restoreJob now) s

/-- Persist the roles of one registered node and launch it if it runs in this process. -/
def bringUp (now : Millis) (s : Supervisor) (id : NodeId) : Supervisor :=
  match s.nodes[id]? with
  | none => s
  | some e =>
      let s := s.persistRoles now id e.node.roles
      if e.kind = .simulated then (s.launchNode now id).emit now (.nodeJoined id) else s

/-- The supervisor before startup, over the sequences of its store. -/
def new (config : LocalClusterConfig) (scheduler : Scheduler) (elector : Elector) (store : Store) :
    Supervisor where
  config := config
  scheduler := scheduler
  elector := elector
  nodes := ∅
  jobs := ∅
  tasks := ∅
  queue := []
  events := []
  eventSeq := store.lastSeq
  leader := none
  gateway := none
  mailboxes := fun _ => .fresh
  nextChannel := 0
  jobSeq := store.jobSeq
  taskSeq := store.taskSeq
  journal := []

def bootstrap (config : LocalClusterConfig) (scheduler : Scheduler) (elector : Elector)
    (store : Store) (now : Millis) : Supervisor :=
  let s := new config scheduler elector store
  let nodes := initialNodes config now
  let nodes := assignInitialRoles config.policies nodes
  let nodes := restoreRoles store.nodeRoles nodes
  let s := { s with nodes := nodes }
  let s := nodes.keys.foldl (bringUp now) s
  let s := s.restoreJobs now store
  s.refreshLeadership now

/-! ## Runs -/

/-- One message and the clock reading it is handled at. -/
abbrev Turn := Millis × Input

def step (s : Supervisor) (t : Turn) : Supervisor := s.handle t.1 t.2

/-- The states of a session: bootstrap, then each state after a fully handled input. -/
def session (config : LocalClusterConfig) (scheduler : Scheduler) (elector : Elector)
    (store : Store) (boot : Millis) (turns : List Turn) : List Supervisor :=
  Run.visited step (bootstrap config scheduler elector store boot) turns

end Supervisor

end Gavel.Cluster
