import Gavel.Cluster.Lemmas.Shape
import Gavel.Cluster.Lemmas.Dispatch

/-!
# Every input is a sequence of moves, bounces and quiet changes
-/

namespace Gavel.Cluster.Supervisor

variable {s s' : Supervisor} {now : Millis}

/-! ## Reports and lost nodes -/

/-- A failed attempt of a held task ends in a retry or in a failure. -/
theorem retryOrGiveUp_move {t : Task} {n : NodeId} (ht : s.tasks[t.id]? = some t)
    (hheld : t.state.isHeld = true) (hn : t.assignedTo = some n) (reason : FailureReason)
    (detail : String) :
    Move now s ((s.noteFailure now n t reason detail).retryOrGiveUp now t.id) := by
  have hf := noteFailure_frame s now n t reason detail
  unfold retryOrGiveUp
  rw [hf.tasks, hf.config, ht]
  dsimp only
  split
  · rename_i hlt
    rw [(Task.requeue_ok _).mpr ⟨.inl hheld, rfl⟩]
    exact .retry reason detail ht hheld hn hlt
  · rename_i hge
    rw [Task.fail_ok.mpr ⟨hheld, rfl⟩]
    exact .giveUp reason detail ht hheld hn (Nat.le_of_not_lt hge)

theorem held_of_assigned (h : s.Wf) {id : TaskId} {t : Task} {n : NodeId}
    (ht : s.tasks[id]? = some t) (hn : t.assignedTo = some n) (hnt : t.state.isTerminal = false) :
    t.state.isHeld = true := by
  rcases TaskState.not_terminal_iff.mp hnt with hq | ha | hr
  · rw [h.unassigned id t ht hq] at hn; cases hn
  · rw [ha]; rfl
  · rw [hr]; rfl

theorem finishTask_moves (h : s.Wf) (n : NodeId) (id : TaskId) (outcome : TaskOutcome) :
    Moves now s (s.finishTask now n id outcome) := by
  unfold finishTask
  cases ht : s.tasks[id]? with
  | none => exact .refl
  | some t =>
      obtain rfl := h.taskKey id t ht
      by_cases hskip : t.assignedTo ≠ some n ∨ t.state.isTerminal = true
      · simp only [hskip, if_true]
        exact .refl
      · obtain ⟨hn, hnt⟩ := not_or.mp hskip
        simp only [hskip, if_false]
        have hn : t.assignedTo = some n := by simpa using hn
        have hheld := held_of_assigned h ht hn (by simpa using hnt)
        cases outcome with
        | completed output =>
            cases hc : t.complete output now with
            | error e => simp only [hc]; exact .refl
            | ok t' =>
                obtain ⟨hst, rfl⟩ := Task.complete_ok.mp hc
                simp only [hc]
                exact .single (.complete output ht hst hn)
        | failed reason detail => exact .single (retryOrGiveUp_move ht hheld hn reason detail)

theorem taskStarted_moves (h : s.Wf) (n : NodeId) (u : Task) :
    Moves now s (s.handleReport now (.taskStarted n u)) := by
  simp only [handleReport]
  cases ht : s.tasks[u.id]? with
  | none => exact .refl
  | some t =>
      have hid := h.taskKey u.id t ht
      by_cases hn : t.assignedTo = some n
      · simp only [hn, if_true]
        cases hs : t.start now with
        | error e => exact .refl
        | ok t' =>
            obtain ⟨hst, rfl⟩ := Task.start_ok.mp hs
            simp only [← hid]
            exact .single (.start (hid ▸ ht) hst hn)
      · simp only [hn, if_false]
        exact .refl

/-- Requeuing one task of a lost node that still holds it. -/
theorem requeueTask_moves (h : s.Wf) {n : NodeId} {id : TaskId}
    (hheld : ∀ t, s.tasks[id]? = some t → t.state.isHeld = true ∧ t.assignedTo = some n) :
    Moves now s (requeueTask now n s id) := by
  unfold requeueTask
  cases ht : s.tasks[id]? with
  | none => exact .refl
  | some t =>
      obtain ⟨hh, hn⟩ := hheld t ht
      obtain rfl := h.taskKey id t ht
      exact .single (retryOrGiveUp_move ht hh hn .nodeOffline "node went offline")

theorem requeueTask_other {n : NodeId} {id : TaskId} (h : s.Wf) {a : TaskId} (hne : id ≠ a) :
    (requeueTask now n s id).tasks[a]? = s.tasks[a]? := by
  unfold requeueTask
  cases ht : s.tasks[id]? with
  | none => rfl
  | some t =>
      obtain rfl := h.taskKey id t ht
      show ((s.noteFailure now n t .nodeOffline "node went offline").retryOrGiveUp now t.id).tasks[a]? = _
      have hf := noteFailure_frame s now n t .nodeOffline "node went offline"
      unfold retryOrGiveUp
      rw [hf.tasks, ht]
      dsimp only
      split
      · split
        · rw [hf.tasks]
        · rename_i t' heq
          obtain ⟨-, rfl⟩ := (Task.requeue_ok _).mp heq
          simp [Table.get_insert, hne, hf.tasks]
      · split
        · rw [hf.tasks]
        · rename_i t' heq
          obtain ⟨-, rfl⟩ := Task.fail_ok.mp heq
          rw [(JobsOnly.settleJob _ _ _).tasks, (JobsOnly.updateJob _ _ _).tasks]
          simp [Table.get_insert, hne, hf.tasks]

theorem requeue_list (n : NodeId) (ids : List TaskId) (hnd : ids.Nodup) (h : s.Wf)
    (hheld : ∀ id ∈ ids, ∀ t, s.tasks[id]? = some t → t.state.isHeld = true ∧ t.assignedTo = some n) :
    Moves now s (ids.foldl (requeueTask now n) s) := by
  induction ids generalizing s with
  | nil => exact .refl
  | cons id ids ih =>
      obtain ⟨hnot, hnd⟩ := List.nodup_cons.mp hnd
      have hm : Moves now s (requeueTask now n s id) :=
        requeueTask_moves h (hheld id List.mem_cons_self)
      refine hm.trans (ih hnd (hm.wf h) ?_)
      intro a ha t ht
      have hne : id ≠ a := fun heq => hnot (heq ▸ ha)
      rw [requeueTask_other h hne] at ht
      exact hheld a (List.mem_cons_of_mem _ ha) t ht

theorem mem_tasksOf (h : s.Wf) {n : NodeId} {id : TaskId} : id ∈ s.tasksOf n ↔
    ∃ t, s.tasks[id]? = some t ∧ t.assignedTo = some n ∧ t.state.isTerminal = false := by
  unfold tasksOf
  simp only [List.mem_map, List.mem_filter, Table.mem_rows]
  constructor
  · rintro ⟨t, ⟨⟨k, hk⟩, ht⟩, rfl⟩
    rw [h.taskKey k t hk]
    exact ⟨t, hk, by simpa using ht⟩
  · rintro ⟨t, ht, hn, hnt⟩
    exact ⟨t, ⟨⟨id, ht⟩, by simp [hn, hnt]⟩, h.taskKey id t ht⟩

theorem tasksOf_nodup (h : s.Wf) (n : NodeId) : (s.tasksOf n).Nodup := by
  have hs := Table.rows_sorted (f := Task.id) h.taskKey
  have hnd : (s.tasks.rows.map Task.id).Nodup := List.pairwise_map.mpr (hs.imp Nat.ne_of_lt)
  exact hnd.sublist (List.filter_sublist.map _)

variable (now) in
theorem requeueTasksOf_moves (h : s.Wf) (n : NodeId) :
    Moves now s (s.requeueTasksOf now n) := by
  refine requeue_list n _ (tasksOf_nodup h n) h ?_
  intro id hid t ht
  obtain ⟨u, hu, hn, hnt⟩ := (mem_tasksOf h).mp hid
  cases ht.symm.trans hu
  exact ⟨held_of_assigned h ht hn hnt, hn⟩

/-! ## Quiet operations -/

@[simp] theorem emitIf_nodes (s : Supervisor) (now : Millis) (ev : Option ClusterEvent) :
    (s.emitIf now ev).nodes = s.nodes := by cases ev <;> rfl

@[simp] theorem refreshLeadership_nodes (s : Supervisor) (now : Millis) :
    (s.refreshLeadership now).nodes = s.nodes := by
  unfold refreshLeadership changeLeader
  split <;> simp

/-- The tables stay well formed, and the steps in between are smooth. -/
def Evolves (now : Millis) (s s' : Supervisor) : Prop := s.Wf → Smooths now s s' ∧ s'.Wf

namespace Evolves

variable {s'' : Supervisor}

theorem refl (s : Supervisor) : Evolves now s s := fun h => ⟨.refl, h⟩

theorem trans (h : Evolves now s s') (h' : Evolves now s' s'') : Evolves now s s'' := by
  intro hw
  obtain ⟨hs, hw⟩ := h hw
  obtain ⟨hs', hw⟩ := h' hw
  exact ⟨hs.trans hs', hw⟩

theorem moves (h : s.Wf → Moves now s s') : Evolves now s s' :=
  fun hw => ⟨(h hw).smooths, (h hw).wf hw⟩

/-- A quiet change whose new registry rows carry their key. -/
theorem quiet (hq : Quiet s s')
    (hn : ∀ (n : NodeId) e, s'.nodes[n]? = some e → s.nodes[n]? = some e ∨ e.node.id = n) :
    Evolves now s s' := by
  intro hw
  refine ⟨hq.smooths, hq.wf hw ?_⟩
  intro n e he
  rcases hn n e he with hs | hk
  · exact hw.nodeKey n e hs
  · exact hk

theorem quiet_same (hq : Quiet s s') (hn : s'.nodes = s.nodes) : Evolves now s s' :=
  quiet hq fun _ _ he => .inl (hn ▸ he)

theorem putNode (h : Evolves now s s') {n : NodeId} {e : NodeEntry} (hk : e.node.id = n) :
    Evolves now s (s'.putNode n e) := by
  refine h.trans (.quiet (Quiet.putNode s' n e) ?_)
  intro a x hx
  rw [putNode_nodes, Table.get_insert] at hx
  split at hx
  · cases hx; exact .inr (hk.trans ‹_›)
  · exact .inl hx

theorem deliver (h : Evolves now s s') (c : ChannelId) (m : Mailbox) :
    Evolves now s (s'.deliver c m) :=
  h.trans (.quiet_same ⟨rfl, rfl, rfl, rfl, rfl, rfl, [], by simp, by simp [Supervisor.deliver]⟩ rfl)

theorem newChannel (h : Evolves now s s') (c : ChannelId) :
    Evolves now s { s' with nextChannel := c } :=
  h.trans (.quiet_same ⟨rfl, rfl, rfl, rfl, rfl, rfl, [], by simp, by simp⟩ rfl)

theorem emit (h : Evolves now s s') {ev : ClusterEvent}
    (hq : (Write.event ⟨s'.eventSeq + 1, now, ev⟩).isQuiet = true) :
    Evolves now s (s'.emit now ev) := h.trans (.quiet_same (Quiet.emit s' now hq) rfl)

theorem persistRoles (h : Evolves now s s') (n : NodeId) (roles : RoleSet) :
    Evolves now s (s'.persistRoles now n roles) :=
  h.trans (.quiet_same (Quiet.persistRoles s' now n roles) rfl)

theorem erase (h : Evolves now s s') (n : NodeId) :
    Evolves now s { s' with nodes := s'.nodes.erase n } := by
  refine h.trans (.quiet ⟨rfl, rfl, rfl, rfl, rfl, rfl, [], by simp, by simp⟩ ?_)
  intro a e he
  simp only [Table.get_erase] at he
  split at he
  · cases he
  · exact .inl he

theorem refresh (h : Evolves now s s') : Evolves now s (s'.refreshLeadership now) :=
  h.trans (.quiet_same (Quiet.refreshLeadership s' now) (refreshLeadership_nodes s' now))

theorem requeue (h : Evolves now s s') (n : NodeId) : Evolves now s (s'.requeueTasksOf now n) :=
  h.trans (.moves fun hw => requeueTasksOf_moves _ hw n)

end Evolves

theorem lose_evolves {n : NodeId} {e : NodeEntry} (hk : e.node.id = n) :
    Evolves now s (s.lose now n e) := by
  unfold lose
  refine .requeue (.emit (.putNode (.refl s) ?_) rfl) n
  exact hk

theorem forget_evolves (n : NodeId) : Evolves now s (s.forget now n) :=
  .persistRoles (.erase (.refl s) n) n .empty

theorem connect_evolves {n : NodeId} {e : NodeEntry} (capabilities : NodeCapabilities)
    (hk : e.node.id = n) : Evolves now s (s.connect now n capabilities e) := by
  unfold connect
  refine .emit (.persistRoles (.newChannel (.putNode (.refl s) ?_) _) n _) rfl
  exact hk

theorem rejoin_evolves (n : NodeId) : Evolves now s (s.rejoin now n) := by
  refine (show Evolves now s (s.launchNode now n) from ?_).emit rfl
  unfold launchNode
  cases he : s.nodes[n]? with
  | none => exact .refl s
  | some e =>
      intro hw
      refine (Evolves.newChannel (.putNode (.refl s) ?_) _) hw
      exact hw.nodeKey n e he

theorem changeRole_evolves {n : NodeId} {e : NodeEntry} (role : Role) (enabled : Bool)
    (hk : e.node.id = n) : Evolves now s (s.changeRole now n e role enabled) := by
  unfold changeRole
  refine .emit (.persistRoles (.putNode (.refl s) ?_) n _) ?_
  · exact hk
  · cases enabled <;> rfl

theorem noteTransition_evolves (tr : NodeId × NodeStatus) :
    Evolves now s (noteTransition now s tr) := by
  unfold noteTransition
  cases tr.2 with
  | suspect => exact .emit (.refl s) rfl
  | offline => exact .requeue (.emit (.refl s) rfl) tr.1
  | healthy => exact .emit (.refl s) rfl
  | starting => exact .refl s

theorem noteTransitions_evolves (trs : List (NodeId × NodeStatus)) :
    Evolves now s (trs.foldl (noteTransition now) s) := by
  induction trs generalizing s with
  | nil => exact .refl s
  | cons tr trs ih => exact (noteTransition_evolves tr).trans ih

theorem sweepHealth_evolves : Evolves now s (s.sweepHealth now) := by
  unfold sweepHealth
  refine Evolves.trans ?_ (noteTransitions_evolves _)
  intro hw
  refine Evolves.quiet ?_ ?_ hw
  · exact ⟨rfl, rfl, rfl, rfl, rfl, rfl, [], by simp, by simp⟩
  · intro n e he
    simp only [Std.TreeMap.getElem?_map] at he
    obtain ⟨e', he', rfl⟩ := Option.map_eq_some_iff.mp he
    exact .inr (hw.nodeKey n e' he')

/-! ## Every input -/

/-- Up to dispatch, or to the end if dispatch is not reached, every step is smooth. -/
theorem atDispatch_evolves {i : Input} {d : Supervisor} (h : s.atDispatch now i = some d) :
    Evolves now s d := by
  intro hw
  have hd := handled s now i
  rw [h] at hd
  generalize s.handle now i = s' at hd
  revert hw
  cases hd with
  | admitted spec => exact Evolves.moves fun _ => .single (.enrol spec)
  | stopped he hh hd =>
      subst hd
      intro hw
      exact (lose_evolves (hw.nodeKey _ _ he)).refresh hw
  | started he hh hk hd =>
      subst hd
      exact (rejoin_evolves _).refresh
  | joined capabilities hfree he hd =>
      subst hd
      have hid := congrArg (fun e => e.node.id) he
      exact (((Evolves.refl s).putNode hid).trans (connect_evolves capabilities hid)).refresh
  | attached capabilities he ha hd =>
      subst hd
      intro hw
      exact (connect_evolves capabilities (hw.nodeKey _ _ he)).refresh hw
  | detached he hh hk hd =>
      subst hd
      intro hw
      exact (lose_evolves (hw.nodeKey _ _ he)).refresh hw
  | forgotten he hh hk hd =>
      subst hd
      intro hw
      exact ((lose_evolves (hw.nodeKey _ _ he)).trans (forget_evolves _)).refresh hw
  | taskFinished n t outcome hd =>
      subst hd
      exact Evolves.moves fun hw => finishTask_moves hw n t.id outcome
  | ticked hd =>
      subst hd
      exact sweepHealth_evolves.refresh

theorem handle_evolves {i : Input} (h : s.atDispatch now i = none) :
    Evolves now s (s.handle now i) := by
  intro hw
  have hd := handled s now i
  rw [h] at hd
  generalize s.handle now i = s' at hd ⊢
  revert hw
  cases hd with
  | ignored => exact Evolves.refl s
  | reservedJob spec detail => exact Evolves.moves fun _ => .single .reserveJob
  | reservedTasks spec detail =>
      exact Evolves.moves fun _ => .tail (.single .reserveJob) (.reserveTasks spec.split.length)
  | roleKept role enabled he hr =>
      intro hw
      have hid := hw.nodeKey _ _ he
      refine Evolves.putNode (.refl s) ?_ hw
      exact hid
  | roleChanged role enabled he hr =>
      intro hw
      exact (changeRole_evolves role enabled (hw.nodeKey _ _ he)).refresh hw
  | paused paused he hh hm =>
      intro hw
      have hid := hw.nodeKey _ _ he
      refine ((Evolves.refl s).deliver _ _).putNode ?_ hw
      exact hid
  | injected count he hh hm => exact (Evolves.refl s).deliver _ _
  | delayed ms he hh hm => exact (Evolves.refl s).deliver _ _
  | beat hb he =>
      intro hw
      have hid := hw.nodeKey _ _ he
      refine Evolves.putNode (.refl s) ?_ hw
      exact hid
  | taskStarted n t => exact Evolves.moves fun hw => taskStarted_moves hw n t
  | received c => exact (Evolves.refl s).deliver _ _
  | closed c hc => exact (Evolves.refl s).deliver _ _

/-- After dispatch there is only the pruning of a tick. -/
theorem handle_after_dispatch {i : Input} {d : Supervisor} (h : s.atDispatch now i = some d) :
    s.handle now i = d.dispatch now ∨ s.handle now i = (d.dispatch now).pruneMemory := by
  have hd := handled s now i
  rw [h] at hd
  generalize s.handle now i = s' at hd
  cases hd <;> simp

/-- No assignment made while handling the input is refused. -/
def accepted (s : Supervisor) (now : Millis) (i : Input) : Bool :=
  (s.atDispatch now i).all fun d => !d.refusal now

variable (now) in
theorem handle_wf (h : s.Wf) (i : Input) : (s.handle now i).Wf := by
  cases hd : s.atDispatch now i with
  | none => exact (handle_evolves hd h).2
  | some d =>
      have hw := (dispatch_steps now (atDispatch_evolves hd h).2).wf (atDispatch_evolves hd h).2
      rcases handle_after_dispatch hd with heq | heq
      · rw [heq]; exact hw
      · rw [heq]; exact (show Move now _ _ from .prune).wf hw

variable (now) in
theorem handle_changes (h : s.Wf) (i : Input) : Changes now s (s.handle now i) := by
  cases hd : s.atDispatch now i with
  | none => exact (handle_evolves hd h).1.changes
  | some d =>
      obtain ⟨hs, hw⟩ := atDispatch_evolves hd h
      have hc := hs.changes.trans (dispatch_steps now hw).changes
      rcases handle_after_dispatch hd with heq | heq
      · rw [heq]; exact hc
      · rw [heq]; exact hc.tail (.smooth (.move .prune))

theorem handle_smooths (h : s.Wf) {i : Input} (hok : s.accepted now i = true) :
    Smooths now s (s.handle now i) := by
  cases hd : s.atDispatch now i with
  | none => exact (handle_evolves hd h).1
  | some d =>
      obtain ⟨hs, hw⟩ := atDispatch_evolves hd h
      have hr : d.refusal now = false := by simpa [accepted, hd] using hok
      have hsteps := dispatch_steps now hw
      rw [hr] at hsteps
      have hc := hs.trans (Moves.smooths hsteps)
      rcases handle_after_dispatch hd with heq | heq
      · rw [heq]; exact hc
      · rw [heq]; exact hc.tail (.move .prune)

/-! ## The journal grows -/

theorem Move.ops_prefix (h : Move now s s') : s.ops <+: s'.ops := by
  cases h with
  | drop => exact List.prefix_rfl
  | place => exact ⟨_, (place_ops ..).symm⟩
  | start => exact ⟨_, markStarted_ops.symm⟩
  | complete => exact ⟨_, markCompleted_ops.symm⟩
  | @retry t n reason detail =>
      exact List.IsPrefix.trans ⟨_, (noteFailure_ops reason detail).symm⟩ ⟨_, (putBack_ops _).symm⟩
  | @giveUp t n reason detail =>
      exact List.IsPrefix.trans ⟨_, (noteFailure_ops reason detail).symm⟩ ⟨_, (markFailed_ops _).symm⟩
  | reserveJob => exact ⟨_, (issue_ops _).symm⟩
  | reserveTasks => exact ⟨_, (issue_ops _).symm⟩
  | enrol spec => exact ⟨_, (enrol_ops s now spec).symm⟩
  | prune => exact ⟨[], by simp [ops, prune_journal]⟩

theorem Change.ops_prefix (h : Change now s s') : s.ops <+: s'.ops := by
  rcases h with (hm | hq) | hb
  · exact hm.ops_prefix
  · obtain ⟨ws, -, hj⟩ := hq.journal
    exact ⟨ws.map .queued, by simp [ops, hj]⟩
  · cases hb
    exact ⟨_, (bounce_ops _).symm⟩

theorem Changes.ops_prefix (h : Changes now s s') : s.ops <+: s'.ops := by
  induction h with
  | refl => exact List.prefix_rfl
  | tail _ hstep ih => exact ih.trans hstep.ops_prefix

end Gavel.Cluster.Supervisor
