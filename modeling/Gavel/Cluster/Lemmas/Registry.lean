import Gavel.Cluster.Lemmas.Working
import Gavel.Cluster.Lemmas.Startup

/-!
# The registry after every input

Dispatch, requeueing and re-election leave the registry alone, so what an input does to it is one update
of one entry, or the sweep of a tick. Each input is inverted once.
-/

namespace Gavel.Cluster.Supervisor

variable {s s' : Supervisor} {now : Millis} {n : NodeId} {e e' : NodeEntry} {i : Input}
  {nodes : Table NodeEntry}

/-! ## Entries -/

/-- The entry of a node whose handle is gone. -/
def lostEntry (e : NodeEntry) : NodeEntry :=
  { e with handle := none, node := { e.node with status := .offline, load := .zero } }

/-- The entry of an in-process node started on channel `c`. -/
def launchedEntry (now : Millis) (c : ChannelId) (e : NodeEntry) : NodeEntry :=
  { e with
    node := { e.node with status := .healthy, lastSeen := now, load := .zero }
    heartbeatPaused := false
    handle := some c }

/-- The entry after a health sweep. -/
def sweptEntry (health : HealthPolicy) (now : Millis) (e : NodeEntry) : NodeEntry :=
  { e with node := { e.node with status := classifyEntry health now e } }

theorem lose_working (s : Supervisor) (now : Millis) (n : NodeId) (e : NodeEntry) :
    Working (s.putNode n (lostEntry e)) (s.lose now n e) :=
  ((Working.refl _).emit rfl).requeueTasksOf n

theorem lose_nodes (s : Supervisor) (now : Millis) (n : NodeId) (e : NodeEntry) :
    (s.lose now n e).nodes = s.nodes.insert n (lostEntry e) := (lose_working s now n e).nodes

theorem forget_nodes (s : Supervisor) (now : Millis) (n : NodeId) :
    (s.forget now n).nodes = s.nodes.erase n := rfl

theorem connect_nodes (s : Supervisor) (now : Millis) (n : NodeId) (capabilities : NodeCapabilities)
    (e : NodeEntry) : (s.connect now n capabilities e).nodes =
      s.nodes.insert n (connectedEntry now capabilities s.nextChannel e) := rfl

theorem rejoin_nodes (he : s.nodes[n]? = some e) :
    (s.rejoin now n).nodes = s.nodes.insert n (launchedEntry now s.nextChannel e) := by
  simp [rejoin, launchNode, he, launchedEntry]

/-- The registry with every status brought up to date. -/
def swept (s : Supervisor) (now : Millis) : Supervisor :=
  { s with nodes := s.nodes.map fun _ e => sweptEntry s.config.health now e }

theorem sweepHealth_working (s : Supervisor) (now : Millis) :
    Working (s.swept now) (s.sweepHealth now) :=
  Working.noteTransitions now _ (Working.refl _)

theorem sweepHealth_nextChannel (s : Supervisor) (now : Millis) :
    (s.sweepHealth now).nextChannel = s.nextChannel := (sweepHealth_working s now).nextChannel

theorem sweepHealth_nodes (s : Supervisor) (now : Millis) : (s.sweepHealth now).nodes =
    s.nodes.map fun _ e => sweptEntry s.config.health now e := (sweepHealth_working s now).nodes

/-- Dispatch is the last thing that happens, apart from pruning; neither touches the registry. -/
theorem dispatch_nodes (s : Supervisor) (now : Millis) : (s.dispatch now).nodes = s.nodes :=
  (Working.refl s).dispatch.nodes

@[simp] theorem emitIf_nextChannel (s : Supervisor) (now : Millis) (ev : Option ClusterEvent) :
    (s.emitIf now ev).nextChannel = s.nextChannel := by cases ev <;> rfl

theorem refreshLeadership_nextChannel (s : Supervisor) (now : Millis) :
    (s.refreshLeadership now).nextChannel = s.nextChannel := by
  unfold refreshLeadership changeLeader
  split <;> simp

theorem prune_nodes (s : Supervisor) : s.pruneMemory.nodes = s.nodes :=
  (Working.refl s).pruneMemory.nodes

/-! ## Inversion -/

/-- What handling an input makes of the registry. -/
inductive Registered (now : Millis) (s : Supervisor) : Input → Table NodeEntry → Prop where
  | same (i : Input) : Registered now s i s.nodes
  | role {n : NodeId} {e : NodeEntry} (role : Role) (enabled : Bool) (he : s.nodes[n]? = some e) :
      Registered now s (.setRole n role enabled) (s.nodes.insert n (withRole e role enabled))
  | paused {n : NodeId} {e : NodeEntry} (paused : Bool) (he : s.nodes[n]? = some e) :
      Registered now s (.pauseHeartbeat n paused)
        (s.nodes.insert n { e with heartbeatPaused := paused })
  | beat {e : NodeEntry} (hb : Heartbeat) (he : s.nodes[hb.node]? = some e) :
      Registered now s (.report (.heartbeat hb)) (s.nodes.insert hb.node
        { e with node := { e.node with lastSeen := now, load := hb.load } })
  | stopped {n : NodeId} {e : NodeEntry} {c : ChannelId} (he : s.nodes[n]? = some e)
      (hh : e.handle = some c) : Registered now s (.stopNode n) (s.nodes.insert n (lostEntry e))
  | started {n : NodeId} {e : NodeEntry} (he : s.nodes[n]? = some e) (hh : e.handle = none)
      (hk : e.kind = .simulated) :
      Registered now s (.startNode n) (s.nodes.insert n (launchedEntry now s.nextChannel e))
  | joined {n : NodeId} (capabilities : NodeCapabilities) (hfree : s.nextFreeId = some n) :
      Registered now s (.attachRemote none capabilities)
        ((s.nodes.insert n (anonymousEntry now n capabilities)).insert n
          (connectedEntry now capabilities s.nextChannel (anonymousEntry now n capabilities)))
  | attached {n : NodeId} {e : NodeEntry} (capabilities : NodeCapabilities)
      (he : s.nodes[n]? = some e) (ha : attachable e = true) :
      Registered now s (.attachRemote (some n) capabilities)
        (s.nodes.insert n (connectedEntry now capabilities s.nextChannel e))
  | detached {n : NodeId} {e : NodeEntry} {c : ChannelId} (he : s.nodes[n]? = some e)
      (hh : e.handle = some c) (hk : e.kind = .remote true) :
      Registered now s (.detachRemote n e.generation) (s.nodes.insert n (lostEntry e))
  | forgotten {n : NodeId} {e : NodeEntry} {c : ChannelId} (he : s.nodes[n]? = some e)
      (hh : e.handle = some c) (hk : e.kind ≠ .remote true) :
      Registered now s (.detachRemote n e.generation) ((s.nodes.insert n (lostEntry e)).erase n)
  | swept : Registered now s .tick (s.nodes.map fun _ e => sweptEntry s.config.health now e)

theorem Registered.of_eq {i : Input} {nodes nodes' : Table NodeEntry} (h : Registered now s i nodes)
    (heq : nodes' = nodes) : Registered now s i nodes' := heq ▸ h

theorem registered_handle (s : Supervisor) (now : Millis) (i : Input) :
    Registered now s i (s.handle now i).nodes := by
  have h := handled s now i
  generalize s.atDispatch now i = d, s.handle now i = s' at h
  cases h with
  | ignored i => exact .same i
  | reservedJob spec detail => exact .same _
  | reservedTasks spec detail => exact .same _
  | admitted spec =>
      refine Registered.of_eq (.same _) ?_
      rw [dispatch_nodes, (Working.refl s).enrol spec |>.nodes]
  | roleKept role enabled he hr => exact .role role enabled he
  | roleChanged role enabled he hr =>
      refine Registered.of_eq (.role role enabled he) ?_
      rw [refreshLeadership_nodes]
      rfl
  | stopped he hh hd =>
      refine Registered.of_eq (.stopped he hh) ?_
      rw [hd, dispatch_nodes, refreshLeadership_nodes, lose_nodes]
  | started he hh hk hd =>
      refine Registered.of_eq (.started he hh hk) ?_
      rw [hd, dispatch_nodes, refreshLeadership_nodes, rejoin_nodes he]
  | paused paused he hh hm => exact .paused paused he
  | injected count he hh hm => exact .same _
  | delayed ms he hh hm => exact .same _
  | joined capabilities hfree he hd =>
      refine Registered.of_eq (.joined capabilities hfree) ?_
      rw [hd, dispatch_nodes, refreshLeadership_nodes, connect_nodes, he]
      rfl
  | attached capabilities he ha hd =>
      refine Registered.of_eq (.attached capabilities he ha) ?_
      rw [hd, dispatch_nodes, refreshLeadership_nodes, connect_nodes]
  | detached he hh hk hd =>
      refine Registered.of_eq (.detached he hh hk) ?_
      rw [hd, dispatch_nodes, refreshLeadership_nodes, lose_nodes]
  | forgotten he hh hk hd =>
      refine Registered.of_eq (.forgotten he hh hk) ?_
      rw [hd, dispatch_nodes, refreshLeadership_nodes, forget_nodes, lose_nodes]
  | beat hb he => exact .beat hb he
  | taskStarted n t => exact Registered.of_eq (.same _) ((Working.refl s).taskStarted n t).nodes
  | taskFinished n t outcome hd =>
      refine Registered.of_eq (.same _) ?_
      rw [hd, dispatch_nodes, ((Working.refl s).finishTask n t.id outcome).nodes]
  | ticked hd =>
      refine Registered.of_eq .swept ?_
      rw [hd, prune_nodes, dispatch_nodes, refreshLeadership_nodes, sweepHealth_nodes]
  | received c => exact .same _
  | closed c hc => exact .same _

/-! ## One entry -/

/-- What happens to an entry that is neither attached nor removed: it keeps its kind and its
generation, and its handle stays, goes away, or is that of a fresh in-process node. -/
structure Persists (s : Supervisor) (n : NodeId) (i : Input) (e e' : NodeEntry) : Prop where
  kind : e'.kind = e.kind
  generation : e'.generation = e.generation
  handle : e'.handle = e.handle ∨
    (e'.handle = none ∧ (i = .stopNode n ∨ e.kind = .remote true)) ∨
    (e.kind = .simulated ∧ e'.handle = some s.nextChannel)

theorem Persists.refl (s : Supervisor) (n : NodeId) (i : Input) (e : NodeEntry) :
    Persists s n i e e := ⟨rfl, rfl, .inl rfl⟩

/-- The node a worker asking for `id` would attach as. -/
def attachTarget (s : Supervisor) : Option NodeId → Option NodeId
  | none => s.nextFreeId
  | some n => if s.nodes[n]?.any attachable then some n else none

/-- The generation a worker attaching under `n` is given. -/
def nextGeneration (s : Supervisor) (n : NodeId) : Nat :=
  wrapSucc ((s.nodes[n]?.map NodeEntry.generation).getD 0)

/-- A worker attached under `n`, on the next channel. -/
structure Attaches (s : Supervisor) (n : NodeId) (i : Input) (e' : NodeEntry) : Prop where
  input : ∃ id capabilities, i = .attachRemote id capabilities ∧ s.attachTarget id = some n
  generation : e'.generation = s.nextGeneration n
  handle : e'.handle = some s.nextChannel
  kind : e'.kind ≠ .simulated

theorem nextFreeId_none (h : s.nextFreeId = some n) : s.nodes[n]? = none := by
  have hfree := List.find?_some h
  rw [Table.contains_eq_isSome] at hfree
  cases h : s.nodes[n]? with
  | none => rfl
  | some e => simp [h] at hfree

theorem attachable_remote (ha : attachable e = true) : e.kind ≠ .simulated := by
  simp only [attachable, ne_eq, decide_not, Bool.and_eq_true, Bool.not_eq_true',
    decide_eq_false_iff_not] at ha
  exact ha.1

variable (now) in
theorem joined_attaches (capabilities : NodeCapabilities) (hfree : s.nextFreeId = some n) :
    Attaches s n (.attachRemote none capabilities)
      (connectedEntry now capabilities s.nextChannel (anonymousEntry now n capabilities)) where
  input := ⟨none, capabilities, rfl, hfree⟩
  generation := by simp [nextGeneration, nextFreeId_none hfree, connectedEntry, anonymousEntry]
  handle := rfl
  kind := by simp [connectedEntry, anonymousEntry]

variable (now) in
theorem attached_attaches (capabilities : NodeCapabilities) (he : s.nodes[n]? = some e)
    (ha : attachable e = true) : Attaches s n (.attachRemote (some n) capabilities)
      (connectedEntry now capabilities s.nextChannel e) where
  input := ⟨some n, capabilities, rfl, by simp [attachTarget, he, ha]⟩
  generation := by simp [nextGeneration, he, connectedEntry]
  handle := rfl
  kind := show e.kind ≠ .simulated from attachable_remote ha

private theorem get_update (he : s.nodes[n]? = some e) {m : NodeId} {x : NodeEntry}
    (hx : (s.nodes.insert n e')[m]? = some x) (hp : Persists s n i e e') :
    ∃ e₀, s.nodes[m]? = some e₀ ∧ Persists s m i e₀ x := by
  rw [Table.get_insert] at hx
  split at hx
  · subst m; cases hx; exact ⟨e, he, hp⟩
  · exact ⟨x, hx, .refl s m i x⟩

/-- Every entry after an input was there before it, or belongs to the worker that attached. -/
theorem Registered.entry (h : Registered now s i nodes) {m : NodeId} {x : NodeEntry}
    (hx : nodes[m]? = some x) :
    (∃ e₀, s.nodes[m]? = some e₀ ∧ Persists s m i e₀ x) ∨ Attaches s m i x := by
  cases h with
  | same i => exact .inl ⟨x, hx, .refl s m i x⟩
  | role role enabled he => exact .inl (get_update he hx ⟨rfl, rfl, .inl rfl⟩)
  | paused paused he => exact .inl (get_update he hx ⟨rfl, rfl, .inl rfl⟩)
  | beat hb he => exact .inl (get_update he hx ⟨rfl, rfl, .inl rfl⟩)
  | stopped he hh => exact .inl (get_update he hx ⟨rfl, rfl, .inr (.inl ⟨rfl, .inl rfl⟩)⟩)
  | started he hh hk => exact .inl (get_update he hx ⟨rfl, rfl, .inr (.inr ⟨hk, rfl⟩)⟩)
  | @joined n capabilities hfree =>
      rw [Table.get_insert] at hx
      split at hx
      · subst m; cases hx
        exact .inr (joined_attaches _ capabilities hfree)
      · rename_i hne
        rw [Table.get_insert_ne hne] at hx
        exact .inl ⟨x, hx, .refl s m _ x⟩
  | @attached n e capabilities he ha =>
      rw [Table.get_insert] at hx
      split at hx
      · subst m; cases hx
        exact .inr (attached_attaches _ capabilities he ha)
      · exact .inl ⟨x, hx, .refl s m _ x⟩
  | detached he hh hk => exact .inl (get_update he hx ⟨rfl, rfl, .inr (.inl ⟨rfl, .inr hk⟩)⟩)
  | @forgotten n e c he hh hk =>
      rw [Table.get_erase] at hx
      split at hx
      · cases hx
      · rename_i hne
        rw [Table.get_insert_ne hne] at hx
        exact .inl ⟨x, hx, .refl s m _ x⟩
  | swept =>
      rw [Std.TreeMap.getElem?_map] at hx
      obtain ⟨e₀, he₀, rfl⟩ := Option.map_eq_some_iff.mp hx
      exact .inl ⟨e₀, he₀, rfl, rfl, .inl rfl⟩

theorem handle_entry (s : Supervisor) (now : Millis) (i : Input) {m : NodeId} {x : NodeEntry}
    (hx : (s.handle now i).nodes[m]? = some x) :
    (∃ e₀, s.nodes[m]? = some e₀ ∧ Persists s m i e₀ x) ∨ Attaches s m i x :=
  (registered_handle s now i).entry hx

/-! ## Attaching and detaching -/

theorem attachEntry_nextChannel (s : Supervisor) (capabilities : NodeCapabilities) (e : NodeEntry) :
    (s.attachEntry now n capabilities e).2.nextChannel = s.nextChannel + 1 :=
  ((Working.refl _).dispatch.nextChannel).trans (refreshLeadership_nextChannel _ _)

theorem attachEntry_node (s : Supervisor) (capabilities : NodeCapabilities) (e : NodeEntry) :
    (s.attachEntry now n capabilities e).2.nodes[n]? =
      some (connectedEntry now capabilities s.nextChannel e) :=
  (congrArg (·[n]?) ((Working.refl _).dispatch.nodes.trans (refreshLeadership_nodes _ _))).trans
    Table.get_insert_self

/-- What an accepted worker is told, and the entry it finds itself under. -/
theorem attachRemote_ok {id : Option NodeId} {capabilities : NodeCapabilities} {a : RemoteAttachment}
    (h : (s.attachRemote now id capabilities).1 = .ok a) :
    s.attachTarget id = some a.id ∧ a.generation = s.nextGeneration a.id ∧
    a.channel = s.nextChannel ∧ (s.handle now (.attachRemote id capabilities)).nextChannel =
      s.nextChannel + 1 ∧
    ∃ e', (s.handle now (.attachRemote id capabilities)).nodes[a.id]? = some e' ∧
      Attaches s a.id (.attachRemote id capabilities) e' := by
  cases id with
  | none =>
      cases hfree : s.nextFreeId with
      | none => simp [attachRemote, hfree] at h
      | some n =>
          have hatt := joined_attaches now capabilities hfree
          have hnew : s.handle now (.attachRemote none capabilities) =
              ((s.putNode n (anonymousEntry now n capabilities)).attachEntry now n capabilities
                (anonymousEntry now n capabilities)).2 := by
            simp [handle, attachRemote, hfree]
          simp only [attachRemote, hfree, Except.ok.injEq] at h
          subst h
          refine ⟨hfree, hatt.generation, rfl, ?_, _, ?_, hatt⟩
          · rw [hnew, attachEntry_nextChannel]
            rfl
          · rw [hnew]
            exact attachEntry_node _ capabilities _
  | some n =>
      cases he : s.nodes[n]? with
      | none => simp [attachRemote, he] at h
      | some e =>
          by_cases ha : attachable e = true
          · have hatt := attached_attaches now capabilities he ha
            have heq : s.attachRemote now (some n) capabilities =
                (.ok (s.attachEntry now n capabilities e).1, (s.attachEntry now n capabilities e).2) := by
              simp only [attachable, ne_eq, decide_not, Bool.and_eq_true, Bool.not_eq_true',
                decide_eq_false_iff_not] at ha
              simp [attachRemote, he, ha.1, ha.2]
            rw [heq] at h
            cases h
            have hnew : s.handle now (.attachRemote (some n) capabilities) =
                (s.attachEntry now n capabilities e).2 := by
              rw [handle, heq]
            refine ⟨by simp [attachTarget, he, ha, attachEntry], hatt.generation, rfl, ?_, _, ?_, hatt⟩
            · rw [hnew, attachEntry_nextChannel]
            · rw [hnew]
              exact attachEntry_node s capabilities e
          · have hrefused : ∃ reason, (s.attachRemote now (some n) capabilities).1 = .error reason := by
              unfold attachRemote
              simp only [he]
              split
              · exact ⟨_, rfl⟩
              · split
                · exact ⟨_, rfl⟩
                · rename_i hk hl
                  exact absurd (by simp [attachable, hk, hl]) ha
            obtain ⟨reason, hr⟩ := hrefused
            rw [hr] at h
            cases h

/-- A refused worker has no node to attach as, and leaves no trace. -/
theorem attachRemote_error {id : Option NodeId} {capabilities : NodeCapabilities}
    {reason : RejectReason} (h : (s.attachRemote now id capabilities).1 = .error reason) :
    (s.attachRemote now id capabilities).2 = s ∧ s.attachTarget id = none := by
  cases id with
  | none =>
      cases hfree : s.nextFreeId with
      | none => simp [attachRemote, attachTarget, hfree]
      | some n => simp [attachRemote, hfree] at h
  | some n =>
      cases he : s.nodes[n]? with
      | none => simp [attachRemote, attachTarget, he]
      | some e =>
          by_cases hk : e.kind = .simulated
          · simp [attachRemote, attachTarget, attachable, he, hk]
          · by_cases hl : (e.handle.isSome && e.node.status.acceptsWork) = true
            · refine ⟨by simp only [attachRemote, he, hk, hl, if_false, if_true], ?_⟩
              have ha : attachable e = false := by rw [attachable, hl, Bool.not_true, Bool.and_false]
              simp [attachTarget, he, ha]
            · simp only [attachRemote, he, if_neg hk, if_neg hl] at h
              cases h

/-- A detach that names another generation is ignored. -/
theorem detachRemote_stale {generation : Nat} (he : s.nodes[n]? = some e)
    (hg : e.generation ≠ generation) : s.handle now (.detachRemote n generation) = s := by
  simp [handle, detachRemote, he, hg]

/-- A detach of the current generation takes the handle away, or removes the entry. -/
theorem detachRemote_current {c : ChannelId} (he : s.nodes[n]? = some e) (hh : e.handle = some c) :
    (s.handle now (.detachRemote n e.generation)).nodes[n]? =
      if e.kind = .remote true then some (lostEntry e) else none := by
  have hd := handled_detach now (s := s) n e.generation
  change Handled now s _ _ (s.handle now (.detachRemote n e.generation)) at hd
  have hreach : s.atDispatch now (.detachRemote n e.generation) ≠ none := by
    simp [atDispatch, he, hh]
  generalize hg : e.generation = g at hd hreach ⊢
  generalize s.atDispatch now (.detachRemote n g) = d, s.handle now (.detachRemote n g) = s' at hd hreach ⊢
  cases hd with
  | ignored => exact absurd rfl hreach
  | detached he' hh' hk hd =>
      rw [he] at he'
      cases he'
      rw [hd, dispatch_nodes, refreshLeadership_nodes, lose_nodes, if_pos hk]
      exact Table.get_insert_self
  | forgotten he' hh' hk hd =>
      rw [he] at he'
      cases he'
      rw [hd, dispatch_nodes, refreshLeadership_nodes, forget_nodes, if_neg hk, Table.get_erase,
        if_pos rfl]

/-! ## The registry at startup -/

theorem bringUp_nodes (s : Supervisor) (now : Millis) (n : NodeId) :
    (bringUp now s n).nodes = s.nodes ∨ ∃ e, s.nodes[n]? = some e ∧ e.kind = .simulated ∧
      (bringUp now s n).nodes = s.nodes.insert n (launchedEntry now s.nextChannel e) := by
  unfold bringUp
  cases he : s.nodes[n]? with
  | none => exact .inl rfl
  | some e =>
      dsimp only
      split
      · rename_i hk
        refine .inr ⟨e, rfl, hk, ?_⟩
        simp [launchNode, he, launchedEntry]
      · exact .inl rfl

theorem restoreJobs_working (s : Supervisor) (now : Millis) (store : Store) :
    Working s (s.restoreJobs now store) := by
  obtain ⟨hf, -, -, -, ho⟩ := restoreAll_fields (s := s) now
    (restoredJobs store s.config.jobBuffer).rows
  refine ⟨hf.toSameRegistry, _, ho, ?_⟩
  intro op hop
  obtain ⟨r, -, hop⟩ := List.mem_flatMap.mp hop
  obtain ⟨t, -, rfl⟩ := List.mem_map.mp hop
  rfl

/-- A property of entries that holds when they are made and survives roles holds of every registered
entry. -/
theorem registered_entries {p : NodeId → NodeEntry → Prop} (config : LocalClusterConfig)
    (scheduler : Scheduler) (elector : Elector) (store : Store) (now : Millis)
    (hsim : ∀ index < config.nodeCount, p (index + 1) (simulatedEntry config now index))
    (hdecl : ∀ d ∈ config.remoteNodes, p d.1 (declaredEntry now d))
    (hroles : ∀ n e roles, p n e → p n (e.withRoles roles)) :
    Entries p (registered config scheduler elector store now).nodes :=
  restoreRoles_entries hroles store.nodeRoles (assignInitialRoles_entries
    (fun n e _ h => hroles n e _ h) config.policies (initialNodes_entries config now hsim hdecl))

/-- A property of entries that holds at registration and survives roles and launches holds of every
entry after startup. -/
theorem bootstrap_entries {p : NodeId → NodeEntry → Prop} (config : LocalClusterConfig)
    (scheduler : Scheduler) (elector : Elector) (store : Store) (now : Millis)
    (hsim : ∀ index < config.nodeCount, p (index + 1) (simulatedEntry config now index))
    (hdecl : ∀ d ∈ config.remoteNodes, p d.1 (declaredEntry now d))
    (hroles : ∀ n e roles, p n e → p n (e.withRoles roles))
    (hlaunch : ∀ n e c, p n e → p n (launchedEntry now c e)) :
    Entries p (bootstrap config scheduler elector store now).nodes := by
  have hregistered := registered_entries config scheduler elector store now hsim hdecl hroles
  have hlaunched : Entries p (launched config scheduler elector store now).nodes := by
    unfold launched
    dsimp only
    generalize (registered config scheduler elector store now).nodes.keys = ids
    generalize registered config scheduler elector store now = s at hregistered
    induction ids generalizing s with
    | nil => exact hregistered
    | cons n ids ih =>
        refine ih _ ?_
        rcases bringUp_nodes s now n with heq | ⟨e, he, -, heq⟩
        · rw [heq]; exact hregistered
        · rw [heq]; exact hregistered.insert (hlaunch n e _ (hregistered n e he))
  rw [bootstrap_eq_loaded, refreshLeadership_nodes,
    (loadedState_fields _ config scheduler elector store).1.nodes]
  exact hlaunched

end Gavel.Cluster.Supervisor
