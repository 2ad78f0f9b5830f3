import Gavel.Cluster.Job
import Gavel.Lib.Extremes
import Mathlib.Data.BitVec

/-!
# Nodes: roles, health, placement and election

A node holds a set of roles packed into one byte. Its health follows from the age of its last
heartbeat. The scheduler picks a node for a task and the elector picks the coordinator; both are
ports of the supervisor.
-/

namespace Gavel.Cluster

open Gavel.Extremes (foldl_better_mem)

/-! ## Roles -/

inductive Role where
  | gateway | frontend | backend | compute | storage | coordinator
  deriving DecidableEq, Repr

/-- Which roles survive when the cluster cannot satisfy every minimum, the first one longest. -/
def degradationPriority : List Role :=
  [.gateway, .frontend, .backend, .storage, .coordinator, .compute]

def Role.index : Role → Nat
  | .gateway => 0
  | .frontend => 1
  | .backend => 2
  | .compute => 3
  | .storage => 4
  | .coordinator => 5

def Role.bit (r : Role) : BitVec 8 := 1#8 <<< r.index

/-- A set of roles, packed into a single byte. -/
structure RoleSet where
  bits : BitVec 8
  deriving DecidableEq, Repr

namespace RoleSet

def empty : RoleSet := ⟨0#8⟩

def contains (s : RoleSet) (r : Role) : Bool := s.bits &&& r.bit != 0#8

def insert (s : RoleSet) (r : Role) : RoleSet := ⟨s.bits ||| r.bit⟩

def remove (s : RoleSet) (r : Role) : RoleSet := ⟨s.bits &&& ~~~r.bit⟩

theorem contains_eq_getLsbD (s : RoleSet) (r : Role) : s.contains r = s.bits.getLsbD r.index := by
  obtain ⟨b⟩ := s
  have key : ∀ b : BitVec 8, ∀ i < 6, (b &&& 1#8 <<< i != 0#8) = b.getLsbD i := by decide
  exact key b r.index (by cases r <;> decide)

theorem bit_getLsbD (r r' : Role) : r.bit.getLsbD r'.index = decide (r = r') := by
  cases r <;> cases r' <;> decide

@[simp] theorem contains_insert (s : RoleSet) (r r' : Role) :
    (s.insert r).contains r' = (s.contains r' || decide (r = r')) := by
  simp only [contains_eq_getLsbD, insert, BitVec.getLsbD_or, bit_getLsbD]

@[simp] theorem contains_remove (s : RoleSet) (r r' : Role) :
    (s.remove r).contains r' = (s.contains r' && !decide (r = r')) := by
  have hlt : r'.index < 8 := by cases r' <;> decide
  simp only [contains_eq_getLsbD, remove, BitVec.getLsbD_and, BitVec.getLsbD_not, bit_getLsbD, hlt,
    decide_true, Bool.true_and]

@[simp] theorem contains_empty (r : Role) : empty.contains r = false := by
  cases r <;> decide

end RoleSet

/-- Desired replicas of one role. The supervisor reads the minimum only. -/
structure RolePolicy where
  minReplicas : Nat
  maxReplicas : Option Nat
  deriving DecidableEq, Repr

abbrev RolePolicies := Role → RolePolicy

/-- Default role replica policies. -/
def RolePolicies.default : RolePolicies
  | .gateway => ⟨1, none⟩
  | .frontend => ⟨2, none⟩
  | .backend => ⟨2, none⟩
  | .compute => ⟨0, none⟩
  | .storage => ⟨1, none⟩
  | .coordinator => ⟨1, none⟩

/-! ## Nodes and health -/

structure NodeCapabilities where
  cores : Nat
  memoryBytes : Nat
  deriving DecidableEq, Repr

/-- Rough capacity weight, a tie-breaker of the scheduler. -/
def NodeCapabilities.computeWeight (c : NodeCapabilities) : Nat := c.cores * 100

inductive NodeStatus where
  | starting | healthy | suspect | offline
  deriving DecidableEq, Repr

/-- Only healthy nodes receive new work. -/
def NodeStatus.acceptsWork : NodeStatus → Bool
  | .healthy => true
  | _ => false

structure NodeLoad where
  loadPercent : Nat
  runningTasks : Nat
  freeMemoryBytes : Nat
  simulated : Bool
  deriving DecidableEq, Repr

def NodeLoad.zero : NodeLoad := ⟨0, 0, 0, false⟩

structure Node where
  id : NodeId
  status : NodeStatus
  roles : RoleSet
  capabilities : NodeCapabilities
  load : NodeLoad
  lastSeen : Millis
  joinedAt : Millis
  deriving DecidableEq, Repr

namespace Node

def new (id : NodeId) (capabilities : NodeCapabilities) (at' : Millis) : Node where
  id := id
  status := .starting
  roles := .empty
  capabilities := capabilities
  load := .zero
  lastSeen := at'
  joinedAt := at'

def hasRole (n : Node) (r : Role) : Bool := n.roles.contains r

def isSchedulable (n : Node) : Bool := n.status.acceptsWork && n.hasRole .compute

end Node

/-- One heartbeat from a node. The sender's clock travels along but never drives health. -/
structure Heartbeat where
  node : NodeId
  load : NodeLoad
  at' : Millis
  deriving DecidableEq, Repr

structure HealthPolicy where
  heartbeatIntervalMs : Nat
  suspectAfterMs : Nat
  offlineAfterMs : Nat
  deriving DecidableEq, Repr

def HealthPolicy.default : HealthPolicy := ⟨1000, 3000, 6000⟩

/-- Status implied by heartbeat age alone; `none` while the node is within its budget.
`Millis::since` saturates, as subtraction of naturals does. -/
def HealthPolicy.classify (p : HealthPolicy) (lastSeen now : Millis) : Option NodeStatus :=
  let age := now - lastSeen
  if p.offlineAfterMs ≤ age then some .offline
  else if p.suspectAfterMs ≤ age then some .suspect
  else none

/-! ## The two policies the supervisor is built over -/

/-- `Iterator::min_by_key`: the first of the least elements. -/
def minBy (lt : Node → Node → Bool) : List Node → Option Node
  | [] => none
  | n :: ns => some (ns.foldl (fun best m => if lt m best then m else best) n)

theorem minBy_mem {lt : Node → Node → Bool} {ns : List Node} {n : Node}
    (h : minBy lt ns = some n) : n ∈ ns := by
  cases ns with
  | nil => simp [minBy] at h
  | cons m ms =>
      simp only [minBy, Option.some.injEq] at h
      exact h ▸ foldl_better_mem (fun a b => lt a b = true) ms m

/-- Nodes that may currently receive work: healthy, and carrying the compute role. -/
def schedulable (nodes : List Node) (_task : Task) : List Node := nodes.filter Node.isSchedulable

/-- A placement policy: it chooses among the schedulable nodes it is given. -/
structure Scheduler where
  selectNode : Task → List Node → Option NodeId
  selects_given : ∀ t ns id, selectNode t ns = some id → ∃ n ∈ schedulable ns t, n.id = id

/-- Fewest running tasks, then least load, then greatest capacity, then lowest id. -/
def leastLoadedLt (a b : Node) : Bool :=
  if a.load.runningTasks ≠ b.load.runningTasks then a.load.runningTasks < b.load.runningTasks
  else if a.load.loadPercent ≠ b.load.loadPercent then a.load.loadPercent < b.load.loadPercent
  else if a.capabilities.computeWeight ≠ b.capabilities.computeWeight then
    b.capabilities.computeWeight < a.capabilities.computeWeight
  else a.id < b.id

def leastLoaded : Scheduler where
  selectNode t ns := (minBy leastLoadedLt (schedulable ns t)).map Node.id
  selects_given := by
    intro t ns id h
    obtain ⟨n, hn, rfl⟩ := Option.map_eq_some_iff.mp h
    exact ⟨n, minBy_mem hn, rfl⟩

/-- An election policy: the coordinator of the current view, if any node is eligible. -/
abbrev Elector := List Node → Option NodeId

/-- The healthy node with the lowest id wins. -/
def lowestHealthyId : Elector := fun nodes =>
  (minBy (fun a b => a.id < b.id) (nodes.filter fun n => n.status.acceptsWork)).map Node.id

end Gavel.Cluster
