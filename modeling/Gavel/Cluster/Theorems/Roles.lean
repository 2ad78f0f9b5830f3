import Gavel.Cluster.Lemmas.Registry
import Gavel.Cluster.Moves
import Mathlib.Data.List.Induction

/-!
# Roles across restarts

Roles are stored per node id, and an id belongs to an in-process node in one session and to an
undeclared worker in another. What is stored under an id is followed through the sessions.
-/

namespace Gavel.Cluster

/-!
## Sessions over one store

A supervisor starts on what the sessions before it left behind. A session is its configuration and what
happened in it; a history is a list of sessions, the oldest first.
-/

structure Session where
  config : LocalClusterConfig
  scheduler : Scheduler
  elector : Elector
  boot : Millis
  turns : List Supervisor.Turn

namespace Session

/-- The supervisor after startup. -/
def start (x : Session) (store : Store) : Supervisor :=
  Supervisor.bootstrap x.config x.scheduler x.elector store x.boot

/-- The supervisor at the end. -/
def finish (x : Session) (store : Store) : Supervisor :=
  Run.final Supervisor.step (x.start store) x.turns

/-- The store once all of the session's writes are applied. -/
def left (x : Session) (store : Store) : Store := store.replay (x.finish store).ops

/-- The store after a history. -/
def leftBy : Store → List Session → Store
  | store, [] => store
  | store, x :: xs => leftBy (x.left store) xs

end Session

open Supervisor

variable {n m : NodeId} {roles : RoleSet}

/-! ## The row of one node -/

/-- The roles last written for a node, if any were. -/
def rolesIn (n : NodeId) (ops : List DurableOp) : Option RoleSet :=
  ops.foldl (fun last op =>
    match op with
    | .queued (.roles m roles _) => if m = n then some roles else last
    | _ => last) none

theorem rolesIn_concat (n : NodeId) (ops : List DurableOp) (op : DurableOp) :
    rolesIn n (ops ++ [op]) =
      match op with
      | .queued (.roles m roles _) => if m = n then some roles else rolesIn n ops
      | _ => rolesIn n ops := by
  simp only [rolesIn, List.foldl_append, List.foldl_cons, List.foldl_nil]

theorem rolesIn_append (n : NodeId) (a b : List DurableOp) :
    rolesIn n (a ++ b) = (rolesIn n b).or (rolesIn n a) := by
  induction b using List.reverseRecOn with
  | nil => rw [List.append_nil]; rfl
  | append_singleton b op ih =>
      rw [← List.append_assoc, rolesIn_concat, rolesIn_concat, ih]
      cases op with
      | queued w =>
          cases w with
          | roles m roles at' => dsimp only; split <;> rfl
          | _ => rfl
      | _ => rfl

theorem rolesIn_work {ops : List DurableOp} (h : ∀ op ∈ ops, op.isWork = true) :
    rolesIn n ops = none := by
  induction ops using List.reverseRecOn with
  | nil => rfl
  | append_singleton ops op ih =>
      have hop := h op (by simp)
      rw [rolesIn_concat, ih fun op hm => h op (List.mem_append_left _ hm)]
      cases op with
      | queued w =>
          cases w with
          | roles m roles at' => cases hop
          | _ => rfl
      | _ => rfl

theorem insertTasks_nodeRoles (ts : List Task) (st st' : Store)
    (h : ts.foldlM Store.insertTask st = some st') : st'.nodeRoles = st.nodeRoles := by
  induction ts generalizing st with
  | nil => cases h; rfl
  | cons t ts ih =>
      rw [List.foldlM_cons, Store.insertTask] at h
      split at h
      · cases h
      · exact ih { st with tasks := st.tasks.insert t.id t } h

theorem perform_nodeRoles (st : Store) (op : DurableOp) (n : NodeId) :
    (st.perform op).nodeRoles[n]? = (rolesIn n [op]).or st.nodeRoles[n]? := by
  cases op with
  | queued w =>
      cases w with
      | roles m roles at' =>
          simp only [Store.perform, Store.drain, Store.saveNodeRoles, Table.get_insert, rolesIn,
            List.foldl_cons, List.foldl_nil]
          split <;> rfl
      | _ => rfl
  | createJob j ts =>
      simp only [Store.perform, Store.createJob]
      split
      · rfl
      · cases hf : ts.foldlM Store.insertTask { st with jobs := st.jobs.insert j.id j } with
        | none => rfl
        | some st' =>
            rw [Option.getD_some, insertTasks_nodeRoles ts _ st' hf]
            rfl
  | _ => rfl

theorem replay_nodeRoles (st : Store) (ops : List DurableOp) (n : NodeId) :
    (st.replay ops).nodeRoles[n]? = (rolesIn n ops).or st.nodeRoles[n]? := by
  induction ops using List.reverseRecOn with
  | nil => rfl
  | append_singleton ops op ih =>
      rw [Store.replay_concat, perform_nodeRoles, ih, rolesIn_append]
      cases rolesIn n [op] <;> rfl

namespace Supervisor

variable {s s' s'' : Supervisor} {now : Millis} {w w' : Option RoleSet}

/-! ## What an input writes -/

/-- Between two states, the last roles written for a node. -/
def Wrote (n : NodeId) (w : Option RoleSet) (s s' : Supervisor) : Prop :=
  ∃ new, s'.ops = s.ops ++ new ∧ rolesIn n new = w

namespace Wrote

theorem trans (h : Wrote n w s s') (h' : Wrote n w' s' s'') : Wrote n (w'.or w) s s'' := by
  obtain ⟨new, hnew, rfl⟩ := h
  obtain ⟨new', hnew', rfl⟩ := h'
  exact ⟨new ++ new', by rw [hnew', hnew, List.append_assoc], rolesIn_append n new new'⟩

theorem working (h : Wrote n w s s') (hw : Working s' s'') : Wrote n w s s'' := by
  obtain ⟨new, hnew, hall⟩ := hw.ops
  have hnone : Wrote n none s' s'' := ⟨new, hnew, rolesIn_work hall⟩
  exact h.trans hnone

theorem same (hops : s'.ops = s.ops) : Wrote n none s s' := ⟨[], by rw [hops]; simp, rfl⟩

variable (now) in
theorem persistRoles (h : Wrote n w s s') (m : NodeId) (roles : RoleSet) :
    Wrote n (if m = n then some roles else w) s (s'.persistRoles now m roles) := by
  have hone : Wrote n (if m = n then some roles else none) s' (s'.persistRoles now m roles) :=
    ⟨_, issue_ops _, rfl⟩
  have hall := h.trans hone
  by_cases hm : m = n
  · simpa [hm] using hall
  · simpa [hm] using hall

theorem emit (h : Wrote n w s s') (ev : ClusterEvent) : Wrote n w s (s'.emit now ev) := by
  have hone : Wrote n none s' (s'.emit now ev) := ⟨_, emit_ops ev, rfl⟩
  exact h.trans hone

theorem emitIf (h : Wrote n w s s') (ev : Option ClusterEvent) :
    Wrote n w s (s'.emitIf now ev) := by
  cases ev with
  | none => exact h
  | some ev => exact h.emit ev

theorem refresh (h : Wrote n w s s') : Wrote n w s (s'.refreshLeadership now) := by
  unfold refreshLeadership changeLeader
  split
  · exact (h.emitIf _).emitIf _
  · exact h

end Wrote

variable (now) in
/-- The state before a stop or a detach requeues, up to its operations. -/
theorem lose_wrote (n : NodeId) (m : NodeId) (e : NodeEntry) : Wrote n none s (s.lose now m e) :=
  (show Wrote n none s (s.putNode m (lostEntry e)) from .same rfl).working (lose_working s now m e)

theorem rejoin_wrote (n : NodeId) (m : NodeId) : Wrote n none s (s.rejoin now m) := by
  refine Wrote.emit (Wrote.same ?_) _
  unfold launchNode
  split <;> rfl

variable (now) in
theorem connect_wrote (n : NodeId) (m : NodeId) (capabilities : NodeCapabilities) (e : NodeEntry) :
    Wrote n (if m = n then some e.node.roles else none) s (s.connect now m capabilities e) := by
  unfold connect
  refine Wrote.emit ?_ _
  exact (Wrote.same (s := s) rfl).persistRoles now m _

/-! ## Abandoned ids -/

/-- The input makes the registry drop the node, and with it blanks its stored roles. -/
def forgetsId (s : Supervisor) (n : NodeId) : Input → Bool
  | .detachRemote m generation => m == n && s.nodes[n]?.any fun e =>
      e.kind != .remote true && e.generation == generation && e.handle.isSome
  | _ => false

/-- The input gives the id to an undeclared worker. -/
def joinsId (s : Supervisor) (n : NodeId) : Input → Bool
  | .attachRemote none _ => s.nextFreeId == some n
  | _ => false

/-- Whether the id was dropped and nobody was given it since. -/
def abandonedAfter (s : Supervisor) (n : NodeId) (i : Input) (before : Bool) : Bool :=
  if s.forgetsId n i then true else if s.joinsId n i then false else before

end Supervisor

/-- Roles under an abandoned id are blank; under any other id they include compute. -/
def FitsRoles (abandoned : Bool) (roles : RoleSet) : Prop :=
  if abandoned then roles = .empty else roles.contains .compute = true

/-- The stored row of an abandoned id is blank; of any other id, it includes compute if it exists. -/
def FitsRow (abandoned : Bool) (row : Option RoleSet) : Prop :=
  if abandoned then row = some .empty else ∀ roles, row = some roles → roles.contains .compute = true

theorem FitsRoles.row {abandoned : Bool} (h : FitsRoles abandoned roles) :
    FitsRow abandoned (some roles) := by
  cases abandoned with
  | true => exact congrArg some h
  | false => rintro r ⟨⟩; exact h

namespace Supervisor

variable {s s' : Supervisor} {now : Millis} {st : Store} {b : Bool} {i : Input}

/-- The node's stored row and its registry entry, if it has one, fit. -/
structure Filed (n : NodeId) (b : Bool) (st : Store) (s : Supervisor) : Prop where
  row : FitsRow b ((rolesIn n s.ops).or st.nodeRoles[n]?)
  entry : ∀ e, s.nodes[n]? = some e → FitsRoles b e.node.roles

namespace Filed

/-- Nothing about this node was written, and its roles are the same. -/
theorem keep (h : Filed n b st s) (hw : Wrote n none s s')
    (he : s'.nodes[n]?.map (·.node.roles) = s.nodes[n]?.map (·.node.roles)) : Filed n b st s' := by
  obtain ⟨new, hops, hnone⟩ := hw
  refine ⟨?_, ?_⟩
  · rw [hops, rolesIn_append, hnone]
    exact h.row
  · intro e' he'
    rw [he', Option.map_some] at he
    obtain ⟨e, he₀, hroles⟩ := Option.map_eq_some_iff.mp he.symm
    rw [← hroles]
    exact h.entry e he₀

theorem work (h : Filed n b st s) (hw : Working s s') : Filed n b st s' :=
  h.keep ((Wrote.same rfl).working hw) (by rw [hw.nodes])

/-- Roles were written for this node, and they are what its entry holds. -/
theorem write {b' : Bool} (hw : Wrote n (some roles) s s') (hr : FitsRoles b' roles)
    (he : ∀ e, s'.nodes[n]? = some e → e.node.roles = roles) : Filed n b' st s' := by
  obtain ⟨new, hops, hsome⟩ := hw
  refine ⟨?_, ?_⟩
  · rw [hops, rolesIn_append, hsome]
    exact hr.row
  · intro e he'
    rw [he e he']
    exact hr

end Filed

theorem roles_insert {nodes : Table NodeEntry} {e e' : NodeEntry} (he : nodes[m]? = some e)
    (hr : e'.node.roles = e.node.roles) :
    (nodes.insert m e')[n]?.map (·.node.roles) = nodes[n]?.map (·.node.roles) := by
  rw [Table.get_insert]
  split
  · subst m; simp [he, hr]
  · rfl

theorem roles_insert_ne {nodes : Table NodeEntry} {e' : NodeEntry} (hne : m ≠ n) :
    (nodes.insert m e')[n]?.map (·.node.roles) = nodes[n]?.map (·.node.roles) := by
  rw [Table.get_insert_ne hne]

theorem abandonedAfter_none (hd : s.atDispatch now i = none) : s.abandonedAfter n i b = b := by
  have hf : s.forgetsId n i = false := by
    cases i with
    | detachRemote m generation =>
        by_contra h
        simp only [forgetsId, Bool.not_eq_false, Bool.and_eq_true, beq_iff_eq, Option.any_eq_true,
          bne_iff_ne] at h
        obtain ⟨rfl, e, he, ⟨-, hg⟩, hh⟩ := h
        simp [atDispatch, he, hg, hh] at hd
    | _ => rfl
  have hj : s.joinsId n i = false := by
    cases i with
    | attachRemote id capabilities =>
        cases id with
        | none =>
            by_contra h
            simp only [joinsId, Bool.not_eq_false, beq_iff_eq] at h
            simp [atDispatch, h] at hd
        | some id => rfl
    | _ => rfl
  simp [abandonedAfter, hf, hj]

variable (now) in
theorem handle_filed (h : Filed n b st s) (hset : ∀ role enabled, i ≠ .setRole n role enabled) :
    Filed n (s.abandonedAfter n i b) st (s.handle now i) := by
  have hd := handled s now i
  generalize hatd : s.atDispatch now i = d, s.handle now i = s' at hd
  cases hd with
  | ignored => rw [abandonedAfter_none hatd]; exact h
  | reservedJob spec detail => exact h.work (Working.refl s).reserveJob
  | reservedTasks spec detail => exact h.work ((Working.refl s).reserveJob.reserveTasks _)
  | admitted spec => exact h.work (Working.enrol (.refl s) spec).dispatch
  | @roleKept m e role enabled he hr =>
      have hne : m ≠ n := by rintro rfl; exact hset role enabled rfl
      exact h.keep (.same rfl) (roles_insert_ne hne)
  | @roleChanged m e role enabled he hr =>
      have hne : m ≠ n := by rintro rfl; exact hset role enabled rfl
      have hw : Wrote n none s (s.changeRole now m e role enabled) := by
        have hput : Wrote n none s (s.putNode m (withRole e role enabled)) := .same rfl
        have hp := hput.persistRoles now m (withRole e role enabled).node.roles
        rw [if_neg hne] at hp
        exact hp.emit _
      refine h.keep hw.refresh ?_
      rw [refreshLeadership_nodes]
      exact roles_insert_ne hne
  | @stopped m e c he hh d hd =>
      subst hd
      refine h.keep ((lose_wrote _ n m e).refresh.working (Working.refl _).dispatch) ?_
      rw [dispatch_nodes, refreshLeadership_nodes, lose_nodes]
      exact roles_insert he rfl
  | @started m e he hh hk d hd =>
      subst hd
      refine h.keep ((rejoin_wrote n m).refresh.working (Working.refl _).dispatch) ?_
      rw [dispatch_nodes, refreshLeadership_nodes, rejoin_nodes he]
      exact roles_insert he rfl
  | paused paused he hh hm => exact h.keep (.same rfl) (roles_insert he rfl)
  | injected count he hh hm => exact h.keep (.same rfl) rfl
  | delayed ms he hh hm => exact h.keep (.same rfl) rfl
  | @joined m capabilities hfree e he d hd =>
      subst hd he
      by_cases hmn : m = n
      · subst m
        have hb : s.abandonedAfter n (.attachRemote none capabilities) b = false := by
          simp [abandonedAfter, forgetsId, joinsId, hfree]
        rw [hb]
        have hw := connect_wrote (s := s.putNode n (anonymousEntry now n capabilities)) now
          n n capabilities (anonymousEntry now n capabilities)
        rw [if_pos rfl] at hw
        refine Filed.write ((Wrote.same (n := n) (s := s) rfl).trans hw |>.refresh.working
          (Working.refl _).dispatch) ?_ ?_
        · exact RoleSet.contains_insert _ _ _ |>.trans (by simp)
        · intro e he
          rw [dispatch_nodes, refreshLeadership_nodes, connect_nodes, Table.get_insert_self] at he
          cases he
          rfl
      · have hb : s.abandonedAfter n (.attachRemote none capabilities) b = b := by
          simp [abandonedAfter, forgetsId, joinsId, hfree, hmn]
        rw [hb]
        have hw := connect_wrote (s := s.putNode m (anonymousEntry now m capabilities)) now
          n m capabilities (anonymousEntry now m capabilities)
        rw [if_neg hmn] at hw
        refine h.keep ((Wrote.same (n := n) (s := s) rfl).trans hw |>.refresh.working
          (Working.refl _).dispatch) ?_
        rw [dispatch_nodes, refreshLeadership_nodes, connect_nodes, roles_insert_ne hmn]
        exact roles_insert_ne hmn
  | @attached m e capabilities he ha d hd =>
      subst hd
      have hb : s.abandonedAfter n (.attachRemote (some m) capabilities) b = b := rfl
      rw [hb]
      have hw := connect_wrote (s := s) now n m capabilities e
      by_cases hmn : m = n
      · subst m
        rw [if_pos rfl] at hw
        refine Filed.write (hw.refresh.working (Working.refl _).dispatch) (h.entry e he) ?_
        intro e' he'
        rw [dispatch_nodes, refreshLeadership_nodes, connect_nodes, Table.get_insert_self] at he'
        cases he'
        rfl
      · rw [if_neg hmn] at hw
        refine h.keep (hw.refresh.working (Working.refl _).dispatch) ?_
        rw [dispatch_nodes, refreshLeadership_nodes, connect_nodes]
        exact roles_insert_ne hmn
  | @detached m e c he hh hk d hd =>
      subst hd
      have hb : s.abandonedAfter n (.detachRemote m e.generation) b = b := by
        by_cases hmn : m = n
        · subst m; simp [abandonedAfter, forgetsId, joinsId, he, hk]
        · simp [abandonedAfter, forgetsId, joinsId, hmn]
      rw [hb]
      refine h.keep ((lose_wrote _ n m e).refresh.working (Working.refl _).dispatch) ?_
      rw [dispatch_nodes, refreshLeadership_nodes, lose_nodes]
      exact roles_insert he rfl
  | @forgotten m e c he hh hk d hd =>
      subst hd
      have hw : Wrote n (if m = n then some .empty else none) s ((s.lose now m e).forget now m) := by
        have hp := (lose_wrote (s := s) now n m e).trans
          (show Wrote n none _ { s.lose now m e with nodes := (s.lose now m e).nodes.erase m } from .same rfl)
        exact hp.persistRoles now m .empty
      by_cases hmn : m = n
      · subst m
        have hb : s.abandonedAfter n (.detachRemote n e.generation) b = true := by
          simp [abandonedAfter, forgetsId, he, hk, hh]
        rw [hb]
        rw [if_pos rfl] at hw
        refine Filed.write (hw.refresh.working (Working.refl _).dispatch) rfl ?_
        intro e' he'
        rw [dispatch_nodes, refreshLeadership_nodes, forget_nodes, Table.get_erase, if_pos rfl] at he'
        cases he'
      · have hb : s.abandonedAfter n (.detachRemote m e.generation) b = b := by
          simp [abandonedAfter, forgetsId, joinsId, hmn]
        rw [hb]
        rw [if_neg hmn] at hw
        refine h.keep (hw.refresh.working (Working.refl _).dispatch) ?_
        rw [dispatch_nodes, refreshLeadership_nodes, forget_nodes, Table.get_erase, if_neg hmn,
          lose_nodes]
        exact roles_insert_ne hmn
  | beat hb he => exact h.keep (.same rfl) (roles_insert he rfl)
  | taskStarted m t => exact h.work (Working.taskStarted (.refl s) m t)
  | taskFinished m t outcome hd =>
      exact hd ▸ h.work (Working.finishTask (.refl s) m t.id outcome).dispatch
  | ticked hd =>
      subst hd
      have hsweep : Wrote n none s (s.sweepHealth now) :=
        (show Wrote n none s (s.swept now) from .same rfl).working (sweepHealth_working s now)
      refine h.keep (hsweep.refresh.working (Working.refl _).dispatch.pruneMemory) ?_
      rw [prune_nodes, dispatch_nodes, refreshLeadership_nodes, sweepHealth_nodes,
        Std.TreeMap.getElem?_map, Option.map_map]
      rfl
  | received c => exact h.keep (.same rfl) rfl
  | closed c hc => exact h.keep (.same rfl) rfl

/-! ## Startup -/

end Supervisor

/-- Spreading the roles leaves nobody without compute. -/
theorem assignInitialRoles_compute (policies : RolePolicies) (nodes : Table NodeEntry) :
    Entries (fun _ e => e.node.roles.contains .compute = true) (assignInitialRoles policies nodes) := by
  unfold assignInitialRoles
  dsimp only
  split
  · rename_i hempty
    intro n e he
    have hm : n ∈ nodes.keys := Std.TreeMap.mem_keys.mpr (Std.TreeMap.mem_iff_isSome_getElem?.mpr
      (by rw [he]; rfl))
    rw [List.isEmpty_iff.mp hempty] at hm
    cases hm
  · rename_i hempty
    clear hempty
    refine spreadRoles_entries (fun n e role h => ?_) policies _ _ 0 ?_
    · exact (RoleSet.contains_insert _ _ _).trans (by rw [h]; rfl)
    · -- Every entry computes already or is still to come.
      have hstart : Entries (fun n e => e.node.roles.contains .compute = true ∨ n ∈ nodes.keys) nodes := by
        intro n e he
        exact .inr (Std.TreeMap.mem_keys.mpr (Std.TreeMap.mem_iff_isSome_getElem?.mpr (by rw [he]; rfl)))
      revert hstart
      generalize nodes.keys = ids
      induction ids generalizing nodes with
      | nil =>
          intro h n e he
          exact (h n e he).resolve_right (by simp)
      | cons id ids ih =>
          intro h
          refine ih _ ?_
          intro n e he
          rw [Table.get_modify] at he
          split at he
          · obtain ⟨e₀, -, rfl⟩ := Option.map_eq_some_iff.mp he
            exact .inl ((RoleSet.contains_insert _ _ _).trans (by simp))
          · rename_i hne
            refine (h n e he).imp (fun hc => hc) fun hm => ?_
            exact (List.mem_cons.mp hm).resolve_left fun heq => hne heq.symm

private theorem restore_others (rows : List (NodeId × RoleSet)) (nodes : Table NodeEntry)
    (h : ∀ r ∈ rows, r.1 ≠ n) :
    (rows.foldl (fun nodes r => nodes.modify r.1 fun e =>
      { e with node := { e.node with roles := r.2 } }) nodes)[n]? = nodes[n]? := by
  induction rows generalizing nodes with
  | nil => rfl
  | cons r rows ih =>
      rw [List.foldl_cons, ih _ fun r' hr' => h r' (List.mem_cons_of_mem _ hr'), Table.get_modify,
        if_neg (h r List.mem_cons_self)]

/-- The stored row, if there is one, is what the node comes back with. -/
theorem restoreRoles_get (stored : Table RoleSet) (nodes : Table NodeEntry) (n : NodeId) :
    (restoreRoles stored nodes)[n]? = nodes[n]?.map fun e => (stored[n]?).elim e e.withRoles := by
  unfold restoreRoles
  have hkeys := Table.keys_sorted stored
  rw [List.pairwise_map] at hkeys
  cases hs : stored[n]? with
  | none =>
      rw [restore_others]
      · cases nodes[n]? <;> rfl
      · rintro ⟨k, r⟩ hm rfl
        have hk := Std.TreeMap.mem_toList_iff_getElem?_eq_some.mp hm
        rw [hs] at hk
        cases hk
  | some roles =>
      have hm : (n, roles) ∈ stored.toList := Std.TreeMap.mem_toList_iff_getElem?_eq_some.mpr hs
      obtain ⟨before, after, hsplit⟩ := List.append_of_mem hm
      rw [hsplit, List.pairwise_append] at hkeys
      rw [hsplit, List.foldl_append, List.foldl_cons, restore_others, Table.get_modify, if_pos rfl,
        restore_others]
      · cases nodes[n]? <;> rfl
      · exact fun r hr => Nat.ne_of_lt (hkeys.2.2 r hr _ List.mem_cons_self)
      · exact fun r hr => Ne.symm (Nat.ne_of_lt ((List.pairwise_cons.mp hkeys.2.1).1 r hr))

namespace Supervisor

variable {st : Store} {b : Bool}

theorem bringUp_filed {s : Supervisor} {now : Millis} (h : Filed n b st s) (m : NodeId) :
    Filed n b st (bringUp now s m) := by
  have hroles : (bringUp now s m).nodes[n]?.map (·.node.roles) = s.nodes[n]?.map (·.node.roles) := by
    rcases bringUp_nodes s now m with heq | ⟨e, he, -, heq⟩
    · rw [heq]
    · rw [heq]; exact roles_insert he rfl
  cases he : s.nodes[m]? with
  | none =>
      have heq : bringUp now s m = s := by simp [bringUp, he]
      rw [heq]
      exact h
  | some e =>
      have hw : Wrote n (if m = n then some e.node.roles else none) s (bringUp now s m) := by
        have hp := (show Wrote n none s s from .same rfl).persistRoles now m e.node.roles
        have heq : bringUp now s m = if e.kind = .simulated then
            (s.persistRoles now m e.node.roles).rejoin now m else s.persistRoles now m e.node.roles := by
          simp only [bringUp, he, rejoin]
        rw [heq]
        by_cases hk : e.kind = .simulated
        · rw [if_pos hk]
          exact hp.trans (rejoin_wrote n m)
        · rw [if_neg hk]
          exact hp
      by_cases hmn : m = n
      · subst m
        rw [if_pos rfl] at hw
        refine Filed.write hw (h.entry e he) ?_
        intro e' he'
        rw [he', he] at hroles
        exact Option.some.inj hroles
      · rw [if_neg hmn] at hw
        exact h.keep hw hroles

/-- A supervisor started over a fitting row is fitting. -/
theorem bootstrap_filed (config : LocalClusterConfig) (scheduler : Scheduler) (elector : Elector)
    (boot : Millis) (h : FitsRow b st.nodeRoles[n]?) :
    Filed n b st (bootstrap config scheduler elector st boot) := by
  have hregistered : Filed n b st (registered config scheduler elector st boot) := by
    refine ⟨h, ?_⟩
    intro e he
    rw [registered, restoreRoles_get] at he
    obtain ⟨e₀, he₀, rfl⟩ := Option.map_eq_some_iff.mp he
    have hcompute := assignInitialRoles_compute config.policies _ n e₀ he₀
    unfold FitsRow at h
    unfold FitsRoles
    cases hrow : st.nodeRoles[n]? with
    | none =>
        cases b with
        | true => rw [hrow] at h; cases h
        | false => exact hcompute
    | some roles =>
        rw [hrow] at h
        cases b with
        | true => exact Option.some.inj h
        | false => exact h roles rfl
  have hlaunched : Filed n b st (launched config scheduler elector st boot) := by
    unfold launched
    dsimp only
    generalize (registered config scheduler elector st boot).nodes.keys = ids
    generalize registered config scheduler elector st boot = s at hregistered
    induction ids generalizing s with
    | nil => exact hregistered
    | cons m ids ih => exact ih _ (bringUp_filed hregistered m)
  rw [bootstrap_eq_loaded]
  have hloaded := hlaunched.work (restoreJobs_working _ boot st)
  refine hloaded.keep (Wrote.same rfl).refresh ?_
  rw [refreshLeadership_nodes]
  rfl

end Supervisor

/-! ## In-process nodes -/

/-- The two registries hold the same nodes, each of the same kind. -/
def SameKinds (nodes nodes' : Table NodeEntry) : Prop :=
  ∀ n : NodeId, nodes'[n]?.map NodeEntry.kind = nodes[n]?.map NodeEntry.kind

namespace SameKinds

variable {nodes nodes' nodes'' : Table NodeEntry}

theorem refl (nodes : Table NodeEntry) : SameKinds nodes nodes := fun _ => rfl

theorem trans (h : SameKinds nodes nodes') (h' : SameKinds nodes' nodes'') : SameKinds nodes nodes'' :=
  fun n => (h' n).trans (h n)

theorem insert {e e' : NodeEntry} (he : nodes[m]? = some e) (hk : e'.kind = e.kind) :
    SameKinds nodes (nodes.insert m e') := by
  intro n
  rw [Table.get_insert]
  split
  · subst m; simp [he, hk]
  · rfl

theorem modify (m : NodeId) {f : NodeEntry → NodeEntry} (hf : ∀ e, (f e).kind = e.kind) :
    SameKinds nodes (nodes.modify m f) := by
  intro n
  rw [Table.get_modify]
  split
  · subst m; cases nodes[n]? <;> simp [hf]
  · rfl

theorem foldl {β : Type} {g : Table NodeEntry → β → Table NodeEntry} (l : List β)
    (hg : ∀ nodes x, SameKinds nodes (g nodes x)) : SameKinds nodes (l.foldl g nodes) := by
  induction l generalizing nodes with
  | nil => exact .refl nodes
  | cons x l ih => exact (hg nodes x).trans ih

end SameKinds

theorem placeReplicas_kinds (role : Role) (ids : List NodeId) (count cursor : Nat)
    (nodes : Table NodeEntry) : SameKinds nodes (placeReplicas role ids count (cursor, nodes)).2 := by
  induction count generalizing cursor nodes with
  | zero => exact .refl nodes
  | succ count ih =>
      unfold placeReplicas
      cases hp : placeRole role ids cursor nodes with
      | none => exact .refl nodes
      | some r =>
          obtain ⟨id, e, he, hr⟩ := placeRole_some (show placeRole role ids cursor nodes = some (r.1, r.2) from hp)
          refine SameKinds.trans ?_ (ih _ _)
          rw [hr]
          exact .insert he rfl

theorem assignInitialRoles_kinds (policies : RolePolicies) (nodes : Table NodeEntry) :
    SameKinds nodes (assignInitialRoles policies nodes) := by
  unfold assignInitialRoles
  dsimp only
  split
  · exact .refl nodes
  · have hcompute : SameKinds nodes (nodes.keys.foldl (fun nodes id => nodes.modify id fun e =>
        { e with node := { e.node with roles := e.node.roles.insert .compute } }) nodes) :=
      SameKinds.foldl _ fun _ id => .modify id fun _ => rfl
    refine hcompute.trans ?_
    generalize degradationPriority.filter (fun role => decide (role ≠ .compute)) = roles
    generalize nodes.keys.foldl _ nodes = start, 0 = cursor
    induction roles generalizing cursor start with
    | nil => exact .refl start
    | cons role roles ih => exact (placeReplicas_kinds role _ _ cursor start).trans (ih _ _)

theorem initialNodes_simulated (config : LocalClusterConfig) (now : Millis) (hpos : 0 < n)
    (hle : n ≤ config.nodeCount) :
    (initialNodes config now)[n]?.map NodeEntry.kind = some .simulated := by
  unfold initialNodes
  -- Declared workers only take ids nobody has.
  suffices hsim : ((List.range config.nodeCount).foldl (fun (nodes : Table NodeEntry) index =>
      nodes.insert (index + 1) (simulatedEntry config now index)) ∅)[n]?.map NodeEntry.kind =
        some .simulated by
    revert hsim
    generalize (List.range config.nodeCount).foldl _ _ = nodes
    generalize config.remoteNodes = declared
    intro hsim
    induction declared generalizing nodes with
    | nil => exact hsim
    | cons d declared ih =>
        refine ih _ ?_
        dsimp only
        split
        · exact hsim
        · rename_i hnew
          rw [Table.get_insert]
          split
          · subst n
            rw [Table.contains_eq_isSome] at hnew
            cases hd : nodes[d.1]? with
            | none => rw [hd] at hsim; cases hsim
            | some e => rw [hd] at hnew; exact absurd rfl hnew
          · exact hsim
  have hkey : ∀ count : Nat, n ≤ count → ((List.range count).foldl (fun (nodes : Table NodeEntry) index =>
      nodes.insert (index + 1) (simulatedEntry config now index)) ∅)[n]?.map NodeEntry.kind =
        some .simulated := by
    intro count
    induction count with
    | zero => intro h; exact absurd hpos (Nat.not_lt.mpr h)
    | succ count ih =>
        intro h
        rw [List.range_succ, List.foldl_append, List.foldl_cons, List.foldl_nil, Table.get_insert]
        split
        · rfl
        · rename_i hne
          exact ih (Nat.le_of_lt_succ (Nat.lt_of_le_of_ne h (Ne.symm hne)))
  exact hkey config.nodeCount hle

namespace Supervisor

theorem bootstrap_simulated (config : LocalClusterConfig) (scheduler : Scheduler) (elector : Elector)
    (store : Store) (boot : Millis) (hpos : 0 < n) (hle : n ≤ config.nodeCount) :
    ∃ e, (bootstrap config scheduler elector store boot).nodes[n]? = some e ∧ e.kind = .simulated := by
  have hregistered : (registered config scheduler elector store boot).nodes[n]?.map NodeEntry.kind =
      some .simulated := by
    have hassign := assignInitialRoles_kinds config.policies (initialNodes config boot)
    have hrestore : SameKinds (assignInitialRoles config.policies (initialNodes config boot))
        (registered config scheduler elector store boot).nodes :=
      SameKinds.foldl _ fun nodes r => .modify r.1 fun _ => rfl
    exact ((hassign.trans hrestore) n).trans (initialNodes_simulated config boot hpos hle)
  have hlaunched : SameKinds (registered config scheduler elector store boot).nodes
      (launched config scheduler elector store boot).nodes := by
    unfold launched
    dsimp only
    generalize (registered config scheduler elector store boot).nodes.keys = ids
    generalize registered config scheduler elector store boot = s
    induction ids generalizing s with
    | nil => exact .refl s.nodes
    | cons m ids ih =>
        refine SameKinds.trans ?_ (ih _)
        rcases bringUp_nodes s boot m with heq | ⟨e, he, -, heq⟩
        · rw [heq]; exact .refl s.nodes
        · rw [heq]; exact .insert he rfl
  have hn := (hlaunched n).trans hregistered
  rw [bootstrap_eq_loaded, refreshLeadership_nodes,
    (loadedState_fields _ config scheduler elector store).1.nodes]
  exact Option.map_eq_some_iff.mp hn

end Supervisor

/-! ## Histories -/

namespace Session

/-- Whether the id stands abandoned at the end of the session. -/
def abandonedIn (x : Session) (n : NodeId) (store : Store) (before : Bool) : Bool :=
  (x.turns.foldl (fun (acc : Supervisor × Bool) turn =>
    (acc.1.step turn, acc.1.abandonedAfter n turn.2 acc.2)) (x.start store, before)).2

/-- Whether the id stands abandoned at the end of a history: an undeclared worker that had it was
dropped from the registry, and no other was given it since. -/
def abandoned (n : NodeId) : Store → Bool → List Session → Bool
  | _, before, [] => before
  | store, before, x :: xs => abandoned n (x.left store) (x.abandonedIn n store before) xs

/-- No role of the node is ever set by an operator. -/
def RolesUntouched (n : NodeId) (history : List Session) : Prop :=
  ∀ x ∈ history, ∀ turn ∈ x.turns, ∀ role enabled, turn.2 ≠ .setRole n role enabled

theorem finish_filed (x : Session) {st : Store} {b : Bool} (h : FitsRow b st.nodeRoles[n]?)
    (hset : ∀ turn ∈ x.turns, ∀ role enabled, turn.2 ≠ .setRole n role enabled) :
    Filed n (x.abandonedIn n st b) st (x.finish st) := by
  have hstart : Filed n b st (x.start st) := bootstrap_filed x.config x.scheduler x.elector x.boot h
  unfold abandonedIn finish
  revert hset
  generalize x.turns = turns
  generalize x.start st = s at hstart
  clear h
  intro hset
  induction turns generalizing s b with
  | nil => exact hstart
  | cons turn turns ih =>
      have hstep := handle_filed turn.1 hstart (hset turn List.mem_cons_self)
      exact ih _ hstep fun t ht => hset t (List.mem_cons_of_mem _ ht)

theorem leftBy_fits (history : List Session) {st : Store} {b : Bool}
    (h : FitsRow b st.nodeRoles[n]?) (hset : RolesUntouched n history) :
    FitsRow (abandoned n st b history) (leftBy st history).nodeRoles[n]? := by
  induction history generalizing st b with
  | nil => exact h
  | cons x xs ih =>
      have hx := (finish_filed x h (hset x List.mem_cons_self)).row
      rw [← replay_nodeRoles] at hx
      exact ih hx fun y hy => hset y (List.mem_cons_of_mem _ hy)

/-- After any history in which its roles were never set, an in-process node computes at startup
exactly when its id does not stand abandoned. -/
theorem compute_restored_iff (history : List Session) (next : Session) (n : NodeId) (hpos : 0 < n)
    (hle : n ≤ next.config.nodeCount) (hset : RolesUntouched n history) :
    (∀ e, (next.start (leftBy .empty history)).nodes[n]? = some e → e.kind = .simulated →
      e.node.roles.contains .compute = true) ↔ abandoned n .empty false history = false := by
  have hnew : FitsRow false Store.empty.nodeRoles[n]? := by simp [FitsRow, Store.empty]
  have hrow := leftBy_fits history hnew hset
  have hfiled := bootstrap_filed next.config next.scheduler next.elector next.boot hrow
  constructor
  · intro h
    obtain ⟨e, he, hk⟩ := bootstrap_simulated next.config next.scheduler next.elector
      (leftBy .empty history) next.boot hpos hle
    have hfits := hfiled.entry e he
    cases hb : abandoned n .empty false history with
    | false => rfl
    | true =>
        rw [hb] at hfits
        have hcompute := h e he hk
        rw [show e.node.roles = .empty from hfits, RoleSet.contains_empty] at hcompute
        cases hcompute
  · intro hb e he _
    have hfits := hfiled.entry e he
    rw [hb] at hfits
    exact hfits

/-- A session without in-process nodes, in which workers come and go. -/
def remoteOnly (turns : List Turn) : Session :=
  ⟨.anonymousOnly ⟨4, 8⟩, leastLoaded, lowestHealthyId, 0, turns⟩

/-- A session with one in-process node. -/
def oneNode : Session :=
  ⟨{ LocalClusterConfig.default ⟨4, 8⟩ with nodeCount := 1 }, leastLoaded, lowestHealthyId, 10, []⟩

set_option maxRecDepth 20000 in
/-- A worker leaves and another is given its id: the in-process node of the next session computes. -/
theorem compute_restored_after_rejoin :
    abandoned 1 .empty false [remoteOnly [(1, .attachRemote none ⟨4, 8⟩), (2, .detachRemote 1 1),
      (3, .attachRemote none ⟨4, 8⟩)]] = false ∧
    ∀ e, (oneNode.start (leftBy .empty [remoteOnly [(1, .attachRemote none ⟨4, 8⟩),
      (2, .detachRemote 1 1), (3, .attachRemote none ⟨4, 8⟩)]])).nodes[1]? = some e →
      e.kind = .simulated → e.node.roles.contains .compute = true := by
  have hkept : abandoned 1 .empty false [remoteOnly [(1, .attachRemote none ⟨4, 8⟩),
      (2, .detachRemote 1 1), (3, .attachRemote none ⟨4, 8⟩)]] = false := by decide
  refine ⟨hkept, (compute_restored_iff _ oneNode 1 (by decide) (by decide) ?_).mpr hkept⟩
  simp only [RolesUntouched, remoteOnly, forall_eq, List.mem_cons,
    List.not_mem_nil, or_false]
  rintro turn (rfl | rfl | rfl) role enabled <;> simp

set_option maxRecDepth 20000 in
/-- A worker is given id 1 and leaves; in the next session node 1 runs in-process without compute. -/
theorem compute_lost_after_detach :
    ¬ ∀ (history : List Session) (next : Session) (n : NodeId), 0 < n → n ≤ next.config.nodeCount →
      RolesUntouched n history →
      ∀ e, (next.start (leftBy .empty history)).nodes[n]? = some e → e.kind = .simulated →
        e.node.roles.contains .compute = true := by
  intro h
  have hlost : (oneNode.start (leftBy .empty [remoteOnly [(1, .attachRemote none ⟨4, 8⟩),
      (2, .detachRemote 1 1)]])).nodes[1]?.any (fun e => e.kind == .simulated &&
        !e.node.roles.contains .compute) = true := by decide
  obtain ⟨e, he, hprops⟩ := Option.any_eq_true _ _ |>.mp hlost
  simp only [Bool.and_eq_true, beq_iff_eq, Bool.not_eq_true'] at hprops
  have huntouched : RolesUntouched 1 [remoteOnly [(1, .attachRemote none ⟨4, 8⟩),
      (2, .detachRemote 1 1)]] := by
    simp only [RolesUntouched, remoteOnly, forall_eq, List.mem_cons,
      List.not_mem_nil, or_false]
    rintro turn (rfl | rfl) role enabled <;> simp
  have hcompute := h _ oneNode 1 (by decide) (by decide) huntouched e he hprops.1
  rw [hprops.2] at hcompute
  cases hcompute

end Session

end Gavel.Cluster
