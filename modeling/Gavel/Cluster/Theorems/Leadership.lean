import Gavel.Cluster.Lemmas.Registry

/-!
# Leadership

After startup and after every input the recorded leader is the one the registry demands, the gateway
too, and the leadership events written so far, read in order, end at the recorded leader.
-/

namespace Gavel.Cluster

/-! ## What the registry demands -/

/-- The lowest registered id among the nodes a predicate picks, if it picks any. -/
def LowestWhere (nodes : Table NodeEntry) (p : Node → Bool) : Option NodeId → Prop
  | none => ∀ (n : NodeId) e, nodes[n]? = some e → p e.node = false
  | some n => (∃ e, nodes[n]? = some e ∧ p e.node = true) ∧
      ∀ (m : NodeId) e, nodes[m]? = some e → p e.node = true → n ≤ m

def Node.isHealthy (n : Node) : Bool := n.status == .healthy

def Node.healthyHolding (role : Role) (n : Node) : Bool := n.isHealthy && n.hasRole role

/-- The lowest healthy coordinator if there is one, else the lowest healthy node, else nobody. -/
def LeaderOf (nodes : Table NodeEntry) (leader : Option NodeId) : Prop :=
  (leader ≠ none ∧ LowestWhere nodes (Node.healthyHolding .coordinator) leader) ∨
  (LowestWhere nodes (Node.healthyHolding .coordinator) none ∧ LowestWhere nodes Node.isHealthy leader)

/-- A leadership event read against who is in office; `none` if the two disagree. -/
def officeStep : Option NodeId → ClusterEvent → Option (Option NodeId)
  | none, .leaderElected n => some (some n)
  | some _, .leaderElected _ => none
  | office, .leaderLost n => if office = some n then some none else none
  | office, _ => some office

theorem acceptsWork_eq (n : Node) : n.status.acceptsWork = n.isHealthy := by
  unfold Node.isHealthy
  cases n.status <;> rfl

variable {nodes nodes' : Table NodeEntry} {p : Node → Bool}

theorem LowestWhere.congr {o : Option NodeId}
    (h : ∀ n : NodeId, nodes'[n]?.map (fun e => p e.node) = nodes[n]?.map (fun e => p e.node))
    (hl : LowestWhere nodes p o) : LowestWhere nodes' p o := by
  have back (n : NodeId) (e : NodeEntry) (b : Bool) (he : nodes'[n]? = some e) (hb : p e.node = b) :
      ∃ e', nodes[n]? = some e' ∧ p e'.node = b := by
    have hn := h n
    rw [he, Option.map_some] at hn
    obtain ⟨e', he', hp⟩ := Option.map_eq_some_iff.mp hn.symm
    exact ⟨e', he', hp.trans hb⟩
  cases o with
  | none =>
      intro n e he
      obtain ⟨e', he', hp⟩ := back n e _ he rfl
      rw [← hp]
      exact hl n e' he'
  | some n =>
      obtain ⟨⟨e, he, hp⟩, hmin⟩ := hl
      refine ⟨?_, ?_⟩
      · have hn := h n
        rw [he, Option.map_some] at hn
        obtain ⟨e', he', hp'⟩ := Option.map_eq_some_iff.mp hn
        exact ⟨e', he', hp'.trans hp⟩
      · intro m e' he' hp'
        obtain ⟨e'', he'', hp''⟩ := back m e' _ he' hp'
        exact hmin m e'' he'' hp''

/-! ## What the supervisor computes -/

theorem foldl_min_le (ns : List Node) (n : Node) :
    ∀ m ∈ n :: ns, (ns.foldl (fun best m => if decide (m.id < best.id) then m else best) n).id ≤ m.id := by
  induction ns generalizing n with
  | nil => simp
  | cons a ns ih =>
      intro m hm
      rw [List.foldl_cons]
      by_cases hlt : a.id < n.id
      · simp only [hlt, decide_true, if_true]
        rcases List.mem_cons.mp hm with rfl | hm
        · exact Nat.le_trans (ih a a List.mem_cons_self) (Nat.le_of_lt hlt)
        · exact ih a m hm
      · simp only [hlt, decide_false, Bool.false_eq_true, if_false]
        rcases List.mem_cons.mp hm with rfl | hm
        · exact ih m m List.mem_cons_self
        · rcases List.mem_cons.mp hm with rfl | hm
          · exact Nat.le_trans (ih n n List.mem_cons_self) (Nat.le_of_not_lt hlt)
          · exact ih n m (List.mem_cons_of_mem _ hm)

theorem mem_nodeList {n : Node} : n ∈ nodes.rows.map NodeEntry.node ↔
    ∃ (k : NodeId) (e : NodeEntry), nodes[k]? = some e ∧ e.node = n := by
  simp only [List.mem_map, Table.mem_rows]
  constructor
  · rintro ⟨e, ⟨k, hk⟩, rfl⟩; exact ⟨k, e, hk, rfl⟩
  · rintro ⟨k, e, hk, rfl⟩; exact ⟨e, ⟨k, hk⟩, rfl⟩

theorem minBy_lowest (hk : Keyed nodes) (p : Node → Bool) : LowestWhere nodes p
    ((minBy (fun a b => a.id < b.id) ((nodes.rows.map NodeEntry.node).filter p)).map Node.id) := by
  cases hf : (nodes.rows.map NodeEntry.node).filter p with
  | nil =>
      intro n e he
      have hnot := List.filter_eq_nil_iff.mp hf e.node (mem_nodeList.mpr ⟨n, e, he, rfl⟩)
      simpa using hnot
  | cons a ns =>
      have hmem := Extremes.foldl_better_mem (fun a b : Node => decide (a.id < b.id) = true) ns a
      rw [← hf] at hmem
      obtain ⟨hin, hp⟩ := List.mem_filter.mp hmem
      obtain ⟨k, e, he, heq⟩ := mem_nodeList.mp hin
      refine ⟨⟨e, ?_, heq ▸ hp⟩, ?_⟩
      · rw [← heq, hk k e he]; exact he
      · intro m e' he' hp'
        have hm : e'.node ∈ a :: ns := by
          rw [← hf]
          exact List.mem_filter.mpr ⟨mem_nodeList.mpr ⟨m, e', he', rfl⟩, hp'⟩
        have hle := foldl_min_le ns a _ hm
        rw [hk m e' he'] at hle
        exact hle

theorem find_lowest (hk : Keyed nodes) (p : Node → Bool) : LowestWhere nodes p
    (((nodes.rows.map NodeEntry.node).find? p).map Node.id) := by
  cases hf : (nodes.rows.map NodeEntry.node).find? p with
  | none =>
      intro n e he
      have hnot := List.find?_eq_none.mp hf e.node (mem_nodeList.mpr ⟨n, e, he, rfl⟩)
      simpa using hnot
  | some a =>
      obtain ⟨hp, before, after, hsplit, hbefore⟩ := List.find?_eq_some_iff_append.mp hf
      have hsorted : (nodes.rows.map NodeEntry.node).Pairwise fun a b => a.id < b.id :=
        List.pairwise_map.mpr (Table.rows_sorted (m := nodes) (f := fun e : NodeEntry => e.node.id) hk)
      have hmem : a ∈ nodes.rows.map NodeEntry.node := by rw [hsplit]; simp
      obtain ⟨k, e, he, heq⟩ := mem_nodeList.mp hmem
      refine ⟨⟨e, ?_, heq ▸ hp⟩, ?_⟩
      · rw [← heq, hk k e he]; exact he
      · intro m e' he' hp'
        have hm : e'.node ∈ before ++ a :: after := by
          rw [← hsplit]
          exact mem_nodeList.mpr ⟨m, e', he', rfl⟩
        rw [hsplit, List.pairwise_append] at hsorted
        rcases List.mem_append.mp hm with hb | ha
        · have hno := hbefore e'.node hb
          rw [hp'] at hno
          cases hno
        · rw [← hk m e' he']
          rcases List.mem_cons.mp ha with heq' | ha
          · rw [heq']
          · exact Nat.le_of_lt (List.rel_of_pairwise_cons hsorted.2.1 ha)

namespace Supervisor

variable {s s' : Supervisor} {now : Millis}

theorem elected_leaderOf (hk : Keyed s.nodes) (he : s.elector = lowestHealthyId) :
    LeaderOf s.nodes s.elected := by
  have hcoord := minBy_lowest hk (Node.healthyHolding .coordinator)
  have hhealthy := minBy_lowest hk Node.isHealthy
  have h₁ : s.elector (s.nodeList.filter fun n => n.status.acceptsWork && n.hasRole .coordinator) =
      (minBy (fun a b => a.id < b.id)
        (s.nodeList.filter (Node.healthyHolding .coordinator))).map Node.id := by
    rw [he, lowestHealthyId, List.filter_filter]
    congr 3
    funext n
    simp only [acceptsWork_eq, Node.healthyHolding]
    cases n.isHealthy <;> simp
  have h₂ : s.elector (s.nodeList.filter fun n => n.status.acceptsWork) =
      (minBy (fun a b => a.id < b.id) (s.nodeList.filter Node.isHealthy)).map Node.id := by
    rw [he, lowestHealthyId, List.filter_filter]
    congr 3
    funext n
    simp only [acceptsWork_eq, Bool.and_self]
  unfold elected
  dsimp only
  rw [h₁, h₂]
  unfold nodeList
  cases hc : (minBy (fun a b => a.id < b.id)
      ((s.nodes.rows.map NodeEntry.node).filter (Node.healthyHolding .coordinator))).map Node.id with
  | none =>
      rw [hc] at hcoord
      exact .inr ⟨hcoord, hhealthy⟩
  | some n =>
      rw [hc] at hcoord
      exact .inl ⟨by simp, hcoord⟩

theorem gatewayNode_lowest (hk : Keyed s.nodes) :
    LowestWhere s.nodes (Node.healthyHolding .gateway) s.gatewayNode := by
  have hp : (fun n : Node => n.status.acceptsWork && n.hasRole .gateway) =
      Node.healthyHolding .gateway := by
    funext n
    rw [acceptsWork_eq, Node.healthyHolding]
  unfold gatewayNode
  rw [hp]
  exact find_lowest hk _

/-! ## Office -/

/-- The events so far end at the recorded leader. -/
structure Office (s : Supervisor) : Prop where
  elector : s.elector = lowestHealthyId
  keyed : Keyed s.nodes
  events : s.emitted.foldlM officeStep none = some s.leader

/-- Office, with the leader and the gateway the registry demands. -/
structure Led (s : Supervisor) : Prop extends Office s where
  leader : LeaderOf s.nodes s.leader
  gateway : LowestWhere s.nodes (Node.healthyHolding .gateway) s.gateway

theorem officeStep_other {ev : ClusterEvent} (h : ev.isLeadership = false) (office : Option NodeId) :
    officeStep office ev = some office := by
  cases office <;> cases ev <;> first | rfl | cases h

theorem office_fold_other {evs : List ClusterEvent} (h : ∀ ev ∈ evs, ev.isLeadership = false)
    (office : Option NodeId) : evs.foldlM officeStep office = some office := by
  induction evs with
  | nil => rfl
  | cons ev evs ih =>
      rw [List.foldlM_cons, officeStep_other (h ev List.mem_cons_self)]
      exact ih fun ev' hev' => h ev' (List.mem_cons_of_mem _ hev')

/-- Operations without leadership events leave office as it is. -/
theorem office_events_append {new : List DurableOp} (hops : s'.ops = s.ops ++ new)
    (hnew : ∀ op ∈ new, ∀ ev, op.event? = some ev → ev.isLeadership = false)
    (hleader : s'.leader = s.leader) (h : s.emitted.foldlM officeStep none = some s.leader) :
    s'.emitted.foldlM officeStep none = some s'.leader := by
  unfold emitted at h ⊢
  rw [hops, List.filterMap_append, List.foldlM_append, h, hleader]
  refine office_fold_other ?_ _
  intro ev hev
  obtain ⟨op, hop, hev⟩ := List.mem_filterMap.mp hev
  exact hnew op hop ev hev

theorem isWork_event {op : DurableOp} (h : op.isWork = true) (ev : ClusterEvent)
    (hev : op.event? = some ev) : ev.isLeadership = false := by
  cases op with
  | queued w =>
      cases w with
      | event r => cases hev; simpa [DurableOp.isWork, DurableOp.event?] using h
      | _ => cases hev
  | _ => cases hev

namespace Office

theorem working (h : s.Office) (hw : Working s s') : s'.Office := by
  obtain ⟨new, hops, hnew⟩ := hw.ops
  refine ⟨hw.elector.trans h.elector, hw.nodes ▸ h.keyed, ?_⟩
  exact office_events_append hops (fun op hop => isWork_event (hnew op hop)) hw.leader h.events

theorem putNode (h : s.Office) {n : NodeId} {e : NodeEntry} (he : e.node.id = n) :
    (s.putNode n e).Office := ⟨h.elector, h.keyed.insert he, h.events⟩

theorem erase (h : s.Office) (n : NodeId) : { s with nodes := s.nodes.erase n }.Office := by
  refine ⟨h.elector, ?_, h.events⟩
  intro a e he
  simp only [Table.get_erase] at he
  split at he
  · cases he
  · exact h.keyed a e he

theorem newChannel (h : s.Office) (c : ChannelId) : { s with nextChannel := c }.Office :=
  ⟨h.elector, h.keyed, h.events⟩

theorem persistRoles (h : s.Office) (n : NodeId) (roles : RoleSet) :
    (s.persistRoles now n roles).Office := by
  refine ⟨h.elector, h.keyed, office_events_append (issue_ops _) ?_ rfl h.events⟩
  intro op hop ev hev
  rw [List.mem_singleton.mp hop] at hev
  cases hev

theorem emit (h : s.Office) {ev : ClusterEvent} (hev : ev.isLeadership = false) :
    (s.emit now ev).Office := h.working (Working.emit (.refl s) hev)

theorem requeue (h : s.Office) (n : NodeId) : (s.requeueTasksOf now n).Office :=
  h.working (Working.requeueTasksOf (.refl s) n)

theorem lose (h : s.Office) {n : NodeId} {e : NodeEntry} (he : e.node.id = n) :
    (s.lose now n e).Office := by
  unfold Supervisor.lose
  refine ((h.putNode ?_).emit rfl).requeue n
  exact he

theorem forget (h : s.Office) (n : NodeId) : (s.forget now n).Office :=
  (h.erase n).persistRoles n .empty

theorem connect (h : s.Office) {n : NodeId} {e : NodeEntry} (capabilities : NodeCapabilities)
    (he : e.node.id = n) : (s.connect now n capabilities e).Office := by
  unfold Supervisor.connect
  refine (((h.putNode ?_).newChannel _).persistRoles n _).emit rfl
  exact he

theorem launchNode (h : s.Office) (n : NodeId) : (s.launchNode now n).Office := by
  unfold Supervisor.launchNode
  cases he : s.nodes[n]? with
  | none => exact h
  | some e =>
      refine (h.putNode ?_).newChannel _
      exact h.keyed n e he

theorem rejoin (h : s.Office) (n : NodeId) : (s.rejoin now n).Office := (h.launchNode n).emit rfl

theorem changeRole (h : s.Office) {n : NodeId} {e : NodeEntry} (role : Role) (enabled : Bool)
    (he : e.node.id = n) : (s.changeRole now n e role enabled).Office := by
  unfold Supervisor.changeRole
  refine ((h.putNode ?_).persistRoles n _).emit ?_
  · exact he
  · cases enabled <;> rfl

theorem sweepHealth (h : s.Office) : (s.sweepHealth now).Office := by
  unfold Supervisor.sweepHealth
  refine Office.working ?_ (Working.noteTransitions _ _ (.refl _))
  refine ⟨h.elector, ?_, h.events⟩
  intro n e he
  simp only [Std.TreeMap.getElem?_map] at he
  obtain ⟨e', he', rfl⟩ := Option.map_eq_some_iff.mp he
  exact h.keyed n e' he'

/-- The two events of a change of leader, read in order. -/
theorem changeLeader_events (h : s.Office) (elected : Option NodeId) :
    (s.changeLeader now elected).emitted.foldlM officeStep none = some elected := by
  have hops : (s.changeLeader now elected).emitted = s.emitted ++
      ((s.leader.map ClusterEvent.leaderLost).toList ++
        (elected.map ClusterEvent.leaderElected).toList) := by
    unfold changeLeader emitted
    cases s.leader <;> cases elected <;>
      simp [emitIf, ops, List.filterMap_append, DurableOp.event?]
  rw [hops, List.foldlM_append, h.events]
  cases s.leader <;> cases elected <;> simp [officeStep]

theorem refresh (h : s.Office) : (s.refreshLeadership now).Led := by
  have hnodes := refreshLeadership_nodes s now
  have hleader : (s.refreshLeadership now).leader = s.elected := by
    unfold refreshLeadership
    split
    · rfl
    · rename_i heq
      exact (not_not.mp heq).symm
  have hgateway : (s.refreshLeadership now).gateway = s.gatewayNode := by
    unfold refreshLeadership
    split
    · simp [changeLeader, gatewayNode, nodeList]
    · rfl
  have helector : (s.refreshLeadership now).elector = s.elector := by
    unfold refreshLeadership changeLeader
    split
    · cases s.leader <;> cases s.elected <;> rfl
    · rfl
  refine ⟨⟨helector.trans h.elector, hnodes ▸ h.keyed, ?_⟩, ?_, ?_⟩
  · rw [hleader]
    unfold refreshLeadership
    split
    · exact h.changeLeader_events s.elected
    · rename_i heq
      rw [not_not.mp heq]
      exact h.events
  · rw [hnodes, hleader]
    exact elected_leaderOf h.keyed h.elector
  · rw [hnodes, hgateway]
    exact gatewayNode_lowest h.keyed

end Office

namespace Led

theorem working (h : s.Led) (hw : Working s s') : s'.Led := by
  refine ⟨h.toOffice.working hw, ?_, ?_⟩
  · rw [hw.nodes, hw.leader]; exact h.leader
  · rw [hw.nodes, hw.gateway]; exact h.gateway

/-- An entry is replaced by one with the same health and the same roles. -/
theorem putNode (h : s.Led) {n : NodeId} {e e' : NodeEntry} (he : s.nodes[n]? = some e)
    (hid : e'.node.id = e.node.id) (hstatus : e'.node.status = e.node.status)
    (hroles : ∀ role, e'.node.hasRole role = e.node.hasRole role) : (s.putNode n e').Led := by
  have hkey := h.keyed n e he
  have hsame (p : Node → Bool) (hp : p e'.node = p e.node) (a : NodeId) :
      (s.putNode n e').nodes[a]?.map (fun e => p e.node) = s.nodes[a]?.map (fun e => p e.node) := by
    rw [putNode_nodes, Table.get_insert]
    split
    · subst a; simp [he, hp]
    · rfl
  have hhealthy : e'.node.isHealthy = e.node.isHealthy := by simp [Node.isHealthy, hstatus]
  have hholding (role : Role) :
      Node.healthyHolding role e'.node = Node.healthyHolding role e.node := by
    simp [Node.healthyHolding, hhealthy, hroles]
  refine ⟨h.toOffice.putNode (hid.trans hkey), ?_, ?_⟩
  · rcases h.leader with ⟨hne, hl⟩ | ⟨hnone, hl⟩
    · exact .inl ⟨hne, hl.congr (hsame _ (hholding _))⟩
    · exact .inr ⟨hnone.congr (hsame _ (hholding _)), hl.congr (hsame _ hhealthy)⟩
  · exact h.gateway.congr (hsame _ (hholding _))

end Led

/-! ## Every input -/

theorem handle_led (h : s.Led) (i : Input) : (s.handle now i).Led := by
  have ho := h.toOffice
  have hd := handled s now i
  generalize s.atDispatch now i = d, s.handle now i = s' at hd
  have hkey (n : NodeId) (e : NodeEntry) (he : s.nodes[n]? = some e) := ho.keyed n e he
  cases hd with
  | ignored => exact h
  | reservedJob spec detail => exact h.working (Working.refl s).reserveJob
  | reservedTasks spec detail => exact h.working ((Working.refl s).reserveJob.reserveTasks _)
  | admitted spec => exact h.working (Working.enrol (.refl s) spec).dispatch
  | roleKept role enabled he hr =>
      refine h.putNode he rfl rfl ?_
      intro r
      cases enabled <;> by_cases hrr : role = r <;> simp_all [withRole, Node.hasRole]
  | roleChanged role enabled he hr => exact (ho.changeRole role enabled (hkey _ _ he)).refresh
  | stopped he hh hd => exact hd ▸ (ho.lose (hkey _ _ he)).refresh.working (.dispatch (.refl _))
  | started he hh hk hd => exact hd ▸ (ho.rejoin _).refresh.working (.dispatch (.refl _))
  | @paused n e c m paused he hh hm =>
      have hdel := h.working (Working.deliver (.refl s) c m)
      exact hdel.putNode he rfl rfl fun _ => rfl
  | injected count he hh hm => exact h.working (Working.deliver (.refl s) _ _)
  | delayed ms he hh hm => exact h.working (Working.deliver (.refl s) _ _)
  | joined capabilities hfree he hd =>
      have hid := congrArg (fun e => e.node.id) he
      exact hd ▸ ((ho.putNode hid).connect capabilities hid).refresh.working (.dispatch (.refl _))
  | attached capabilities he ha hd =>
      exact hd ▸ (ho.connect capabilities (hkey _ _ he)).refresh.working (.dispatch (.refl _))
  | detached he hh hk hd => exact hd ▸ (ho.lose (hkey _ _ he)).refresh.working (.dispatch (.refl _))
  | forgotten he hh hk hd =>
      exact hd ▸ ((ho.lose (hkey _ _ he)).forget _).refresh.working (.dispatch (.refl _))
  | beat hb he => exact h.putNode he rfl rfl fun _ => rfl
  | taskStarted n t => exact h.working (Working.taskStarted (.refl s) n t)
  | taskFinished n t outcome hd =>
      exact hd ▸ h.working (Working.finishTask (.refl s) n t.id outcome).dispatch
  | ticked hd =>
      exact hd ▸ ho.sweepHealth.refresh.working (Working.dispatch (.refl _)).pruneMemory
  | received c => exact h.working (Working.deliver (.refl s) _ _)
  | closed c hc => exact h.working (Working.deliver (.refl s) _ _)

theorem bringUp_office (h : s.Office) (n : NodeId) : (bringUp now s n).Office := by
  unfold bringUp
  cases s.nodes[n]? with
  | none => exact h
  | some e =>
      dsimp only
      split
      · exact ((h.persistRoles n _).launchNode n).emit rfl
      · exact h.persistRoles n _

theorem bootstrap_led (config : LocalClusterConfig) (scheduler : Scheduler) (store : Store)
    (now : Millis) : (bootstrap config scheduler lowestHealthyId store now).Led := by
  have hregistered : (registered config scheduler lowestHealthyId store now).Office :=
    ⟨rfl, (registered_wf config scheduler lowestHealthyId store now).nodeKey, rfl⟩
  have hlaunched : (launched config scheduler lowestHealthyId store now).Office := by
    unfold launched
    dsimp only
    generalize (registered config scheduler lowestHealthyId store now).nodes.keys = ids
    generalize registered config scheduler lowestHealthyId store now = s at hregistered
    induction ids generalizing s with
    | nil => exact hregistered
    | cons n ids ih => exact ih _ (bringUp_office hregistered n)
  rw [bootstrap_eq_loaded]
  exact (hlaunched.working (restoreJobs_working _ now store)).refresh

/-- In every state of every run, whatever the store held at its start, leader and gateway are the ones
the registry demands and the emitted leadership events fold to the recorded leader. -/
theorem leadership (config : LocalClusterConfig) (scheduler : Scheduler) (store : Store)
    (boot : Millis) (turns : List Turn) :
    ∀ s ∈ session config scheduler lowestHealthyId store boot turns,
      LeaderOf s.nodes s.leader ∧
      LowestWhere s.nodes (Node.healthyHolding .gateway) s.gateway ∧
      s.emitted.foldlM officeStep none = some s.leader := by
  intro s hs
  have hled := Run.invariant_always (I := Led) (fun s t h => handle_led h t.2) turns
    (bootstrap_led config scheduler store boot) s hs
  exact ⟨hled.leader, hled.gateway, hled.events⟩

/-- A worker dials in, falls silent and is found offline. -/
def silentTurns : List Turn := [(0, .attachRemote (some 5) ⟨4, 8⟩), (3500, .tick), (9000, .tick)]

theorem leadership_after_silence :
    ∃ s ∈ session (.oneWorker 5 ⟨4, 8⟩) leastLoaded lowestHealthyId .empty 0 silentTurns,
      LeaderOf s.nodes s.leader ∧
      LowestWhere s.nodes (Node.healthyHolding .gateway) s.gateway ∧
      s.emitted.foldlM officeStep none = some s.leader :=
  ⟨_, Run.final_mem_visited _ _,
    leadership (.oneWorker 5 ⟨4, 8⟩) leastLoaded .empty 0 silentTurns _ (Run.final_mem_visited _ _)⟩

end Supervisor

end Gavel.Cluster
