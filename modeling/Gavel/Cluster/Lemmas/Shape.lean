import Gavel.Cluster.Moves

/-!
# The shape of every operation

Each input is inverted once: under which guards it does what, and in which state it reaches dispatch.
Everything about runs is derived from `Handled`; no later proof unfolds an operation.
-/

namespace Gavel.Cluster.Supervisor

/-! ## What the operations share -/

/-- A node's handle is gone and its work put back: the common part of a stop and a detach. -/
def lose (s : Supervisor) (now : Millis) (id : NodeId) (e : NodeEntry) : Supervisor :=
  let s := s.putNode id
    { e with handle := none, node := { e.node with status := .offline, load := .zero } }
  (s.emit now (.nodeLeft id)).requeueTasksOf now id

/-- The registry drops an undeclared worker. -/
def forget (s : Supervisor) (now : Millis) (id : NodeId) : Supervisor :=
  { s with nodes := s.nodes.erase id }.persistRoles now id .empty

/-- The entry of a worker whose connection listens on `c`. -/
def connectedEntry (now : Millis) (capabilities : NodeCapabilities) (c : ChannelId) (e : NodeEntry) :
    NodeEntry :=
  { e with
    node := { e.node with
      capabilities := capabilities, status := .healthy, lastSeen := now, load := .zero }
    heartbeatPaused := false
    generation := wrapSucc e.generation
    handle := some c }

/-- A worker takes its place in the registry. -/
def connect (s : Supervisor) (now : Millis) (id : NodeId) (capabilities : NodeCapabilities)
    (e : NodeEntry) : Supervisor :=
  let e := connectedEntry now capabilities s.nextChannel e
  let s := { s.putNode id e with nextChannel := s.nextChannel + 1 }
  (s.persistRoles now id e.node.roles).emit now (.nodeJoined id)

/-- An in-process node starts and joins. -/
def rejoin (s : Supervisor) (now : Millis) (id : NodeId) : Supervisor :=
  (s.launchNode now id).emit now (.nodeJoined id)

def withRole (e : NodeEntry) (role : Role) (enabled : Bool) : NodeEntry :=
  { e with node := { e.node with
    roles := if enabled then e.node.roles.insert role else e.node.roles.remove role } }

/-- A role is turned on or off, written down and announced. -/
def changeRole (s : Supervisor) (now : Millis) (id : NodeId) (e : NodeEntry) (role : Role)
    (enabled : Bool) : Supervisor :=
  let s := s.putNode id (withRole e role enabled)
  let s := s.persistRoles now id (withRole e role enabled).node.roles
  s.emit now (if enabled then .roleAssigned id role else .roleRemoved id role)

/-- A message reaches a channel. -/
def deliver (s : Supervisor) (c : ChannelId) (m : Mailbox) : Supervisor :=
  { s with mailboxes := Function.update s.mailboxes c m }

/-- A fixed id is free to attach: it is a worker's, and no healthy connection holds it. -/
def attachable (e : NodeEntry) : Bool :=
  e.kind ≠ .simulated && !(e.handle.isSome && e.node.status.acceptsWork)

/-- The state in which handling an input reaches dispatch, if it does. -/
def atDispatch (s : Supervisor) (now : Millis) : Input → Option Supervisor
  | .submitJob spec none => some (s.enrol now spec)
  | .stopNode id => do
      let e ← s.nodes[id]?
      let _ ← e.handle
      return (s.lose now id e).refreshLeadership now
  | .startNode id => do
      let e ← s.nodes[id]?
      if e.handle.isNone && e.kind = .simulated then
        return (s.rejoin now id).refreshLeadership now
      else none
  | .attachRemote none capabilities => do
      let id ← s.nextFreeId
      let e := anonymousEntry now id capabilities
      return ((s.putNode id e).connect now id capabilities e).refreshLeadership now
  | .attachRemote (some id) capabilities => do
      let e ← s.nodes[id]?
      if attachable e then return (s.connect now id capabilities e).refreshLeadership now
      else none
  | .detachRemote id generation => do
      let e ← s.nodes[id]?
      if e.generation = generation && e.handle.isSome then
        let s := s.lose now id e
        let s := if e.kind = .remote true then s else s.forget now id
        return s.refreshLeadership now
      else none
  | .report (.taskFinished node task outcome) => some (s.finishTask now node task.id outcome)
  | .tick => some ((s.sweepHealth now).refreshLeadership now)
  | _ => none

/-! ## Inversion -/

variable {now : Millis} {s : Supervisor}

/-- What handling an input does: the state dispatch finds, if it is reached, and the state after. -/
inductive Handled (now : Millis) (s : Supervisor) :
    Input → Option Supervisor → Supervisor → Prop where
  | ignored (i : Input) : Handled now s i none s
  | reservedJob (spec : JobSpec) (detail : String) :
      Handled now s (.submitJob spec (some (.reserveTaskIds, detail))) none s.reserveJob
  | reservedTasks (spec : JobSpec) (detail : String) :
      Handled now s (.submitJob spec (some (.createJob, detail))) none
        (s.reserveJob.reserveTasks spec.split.length)
  | admitted (spec : JobSpec) :
      Handled now s (.submitJob spec none) (some (s.enrol now spec)) ((s.enrol now spec).dispatch now)
  | roleKept {n : NodeId} {e : NodeEntry} (role : Role) (enabled : Bool) (he : s.nodes[n]? = some e)
      (hr : e.node.roles.contains role = enabled) :
      Handled now s (.setRole n role enabled) none (s.putNode n (withRole e role enabled))
  | roleChanged {n : NodeId} {e : NodeEntry} (role : Role) (enabled : Bool)
      (he : s.nodes[n]? = some e) (hr : e.node.roles.contains role ≠ enabled) :
      Handled now s (.setRole n role enabled) none
        ((s.changeRole now n e role enabled).refreshLeadership now)
  | stopped {n : NodeId} {e : NodeEntry} {c : ChannelId} (he : s.nodes[n]? = some e)
      (hh : e.handle = some c) {d : Supervisor} (hd : d = (s.lose now n e).refreshLeadership now) :
      Handled now s (.stopNode n) (some d) (d.dispatch now)
  | started {n : NodeId} {e : NodeEntry} (he : s.nodes[n]? = some e) (hh : e.handle = none)
      (hk : e.kind = .simulated) {d : Supervisor} (hd : d = (s.rejoin now n).refreshLeadership now) :
      Handled now s (.startNode n) (some d) (d.dispatch now)
  | paused {n : NodeId} {e : NodeEntry} {c : ChannelId} {m : Mailbox} (paused : Bool)
      (he : s.nodes[n]? = some e) (hh : e.handle = some c)
      (hm : (s.mailboxes c).trySend (.pauseHeartbeat paused) = some m) :
      Handled now s (.pauseHeartbeat n paused) none
        ((s.deliver c m).putNode n { e with heartbeatPaused := paused })
  | injected {n : NodeId} {e : NodeEntry} {c : ChannelId} {m : Mailbox} (count : Nat)
      (he : s.nodes[n]? = some e) (hh : e.handle = some c)
      (hm : (s.mailboxes c).trySend (.injectFailures count) = some m) :
      Handled now s (.injectFailures n count) none (s.deliver c m)
  | delayed {n : NodeId} {e : NodeEntry} {c : ChannelId} {m : Mailbox} (ms : Nat)
      (he : s.nodes[n]? = some e) (hh : e.handle = some c)
      (hm : (s.mailboxes c).trySend (.setDelay ms) = some m) :
      Handled now s (.setTaskDelay n ms) none (s.deliver c m)
  | joined {n : NodeId} (capabilities : NodeCapabilities) (hfree : s.nextFreeId = some n)
      {e : NodeEntry} (he : e = anonymousEntry now n capabilities) {d : Supervisor}
      (hd : d = ((s.putNode n e).connect now n capabilities e).refreshLeadership now) :
      Handled now s (.attachRemote none capabilities) (some d) (d.dispatch now)
  | attached {n : NodeId} {e : NodeEntry} (capabilities : NodeCapabilities)
      (he : s.nodes[n]? = some e) (ha : attachable e = true) {d : Supervisor}
      (hd : d = (s.connect now n capabilities e).refreshLeadership now) :
      Handled now s (.attachRemote (some n) capabilities) (some d) (d.dispatch now)
  | detached {n : NodeId} {e : NodeEntry} {c : ChannelId} (he : s.nodes[n]? = some e)
      (hh : e.handle = some c) (hk : e.kind = .remote true) {d : Supervisor}
      (hd : d = (s.lose now n e).refreshLeadership now) :
      Handled now s (.detachRemote n e.generation) (some d) (d.dispatch now)
  | forgotten {n : NodeId} {e : NodeEntry} {c : ChannelId} (he : s.nodes[n]? = some e)
      (hh : e.handle = some c) (hk : e.kind ≠ .remote true) {d : Supervisor}
      (hd : d = ((s.lose now n e).forget now n).refreshLeadership now) :
      Handled now s (.detachRemote n e.generation) (some d) (d.dispatch now)
  | beat {e : NodeEntry} (hb : Heartbeat) (he : s.nodes[hb.node]? = some e) :
      Handled now s (.report (.heartbeat hb)) none (s.putNode hb.node
        { e with node := { e.node with lastSeen := now, load := hb.load } })
  | taskStarted (n : NodeId) (t : Task) :
      Handled now s (.report (.taskStarted n t)) none (s.handleReport now (.taskStarted n t))
  | taskFinished (n : NodeId) (t : Task) (outcome : TaskOutcome) {d : Supervisor}
      (hd : d = s.finishTask now n t.id outcome) :
      Handled now s (.report (.taskFinished n t outcome)) (some d) (d.dispatch now)
  | ticked {d : Supervisor} (hd : d = (s.sweepHealth now).refreshLeadership now) :
      Handled now s .tick (some d) (d.dispatch now).pruneMemory
  | received (c : ChannelId) : Handled now s (.receive c) none (s.deliver c (s.mailboxes c).receive)
  | closed (c : ChannelId) (hc : c < s.nextChannel) :
      Handled now s (.close c) none (s.deliver c (s.mailboxes c).close)

theorem Handled.unchanged {i : Input} {d : Option Supervisor} {s' : Supervisor} (hd : d = none)
    (hs : s' = s) : Handled now s i d s' := by
  subst hd hs
  exact .ignored i

theorem handled_submit (spec : JobSpec) (fault : Option (StoreCall × String)) :
    Handled now s (.submitJob spec fault) (s.atDispatch now (.submitJob spec fault))
      (s.submitJob now spec fault).2 := by
  rcases fault with _ | ⟨call, detail⟩
  · exact .admitted spec
  · cases call with
    | nextJobId => exact .ignored _
    | reserveTaskIds => exact .reservedJob spec detail
    | createJob => exact .reservedTasks spec detail

theorem handled_setRole (n : NodeId) (role : Role) (enabled : Bool) :
    Handled now s (.setRole n role enabled) none (s.setRole now n role enabled).2 := by
  cases he : s.nodes[n]? with
  | none => exact .unchanged rfl (by simp [setRole, he])
  | some e =>
      by_cases hr : e.node.roles.contains role = enabled
      · have hs : (s.setRole now n role enabled).2 = s.putNode n (withRole e role enabled) := by
          cases enabled <;> simp [setRole, he, hr, withRole]
        rw [hs]
        exact .roleKept role enabled he hr
      · have hs : (s.setRole now n role enabled).2 =
            (s.changeRole now n e role enabled).refreshLeadership now := by
          cases enabled <;> simp at hr <;> simp [setRole, he, hr, withRole, changeRole]
        rw [hs]
        exact .roleChanged role enabled he hr

theorem handled_stop (n : NodeId) : Handled now s (.stopNode n) (s.atDispatch now (.stopNode n))
    (s.stopNode now n).2 := by
  cases he : s.nodes[n]? with
  | none => exact .unchanged (by simp [atDispatch, he]) (by simp [stopNode, he])
  | some e =>
      cases hh : e.handle with
      | none => exact .unchanged (by simp [atDispatch, he, hh]) (by simp [stopNode, he, hh])
      | some c =>
          have hd : s.atDispatch now (.stopNode n) = some ((s.lose now n e).refreshLeadership now) := by
            simp [atDispatch, he, hh]
          have hs : (s.stopNode now n).2 =
              ((s.lose now n e).refreshLeadership now).dispatch now := by
            simp only [stopNode, he, hh, lose]
          rw [hd, hs]
          exact .stopped he hh rfl

theorem handled_start (n : NodeId) : Handled now s (.startNode n) (s.atDispatch now (.startNode n))
    (s.startNode now n).2 := by
  cases he : s.nodes[n]? with
  | none => exact .unchanged (by simp [atDispatch, he]) (by simp [startNode, he])
  | some e =>
      cases hh : e.handle with
      | some c => exact .unchanged (by simp [atDispatch, he, hh]) (by simp [startNode, he, hh])
      | none =>
          by_cases hk : e.kind = .simulated
          · have hd : s.atDispatch now (.startNode n) =
                some ((s.rejoin now n).refreshLeadership now) := by
              simp [atDispatch, he, hh, hk]
            have hs : (s.startNode now n).2 =
                ((s.rejoin now n).refreshLeadership now).dispatch now := by
              simp [startNode, he, hh, hk, rejoin]
            rw [hd, hs]
            exact .started he hh hk rfl
          · exact .unchanged (by simp [atDispatch, he, hk]) (by simp [startNode, he, hh, hk])

theorem sendToNode_eq {n : NodeId} {e : NodeEntry} {c : ChannelId} (he : s.nodes[n]? = some e)
    (hh : e.handle = some c) (msg : NodeInbox) : s.sendToNode n msg =
      match (s.mailboxes c).trySend msg with
      | none => (.error (.unavailable (nodeName n ++ " is not responding")), s)
      | some m => (.ok (), s.deliver c m) := by
  simp only [sendToNode, he, hh]
  rfl

theorem sendToNode_none {n : NodeId} (h : s.nodes[n]?.bind NodeEntry.handle = none)
    (msg : NodeInbox) : ∃ err, s.sendToNode n msg = (.error err, s) := by
  unfold sendToNode
  cases he : s.nodes[n]? with
  | none => exact ⟨_, rfl⟩
  | some e =>
      have hh : e.handle = none := by simpa [he] using h
      simp only [hh]
      exact ⟨_, rfl⟩

theorem handled_send (n : NodeId) (msg : NodeInbox) (i : Input)
    (hsent : ∀ e c m, s.nodes[n]? = some e → e.handle = some c →
      (s.mailboxes c).trySend msg = some m → Handled now s i none (s.deliver c m)) :
    Handled now s i none (s.sendToNode n msg).2 := by
  cases hb : s.nodes[n]?.bind NodeEntry.handle with
  | none =>
      obtain ⟨err, heq⟩ := sendToNode_none hb msg
      rw [heq]
      exact .ignored _
  | some c =>
      obtain ⟨e, he, hh⟩ := Option.bind_eq_some_iff.mp hb
      rw [sendToNode_eq he hh]
      cases hm : (s.mailboxes c).trySend msg with
      | none => exact .ignored _
      | some m => exact hsent e c m he hh hm

theorem handled_pause (n : NodeId) (paused : Bool) :
    Handled now s (.pauseHeartbeat n paused) none (s.pauseHeartbeat n paused).2 := by
  unfold pauseHeartbeat
  cases hb : s.nodes[n]?.bind NodeEntry.handle with
  | none =>
      obtain ⟨err, heq⟩ := sendToNode_none hb (.pauseHeartbeat paused)
      simp only [heq]
      exact .ignored _
  | some c =>
      obtain ⟨e, he, hh⟩ := Option.bind_eq_some_iff.mp hb
      rw [sendToNode_eq he hh]
      cases hm : (s.mailboxes c).trySend (.pauseHeartbeat paused) with
      | none => exact .ignored _
      | some m =>
          have hnodes : (s.deliver c m).nodes[n]? = some e := he
          simp only [hnodes]
          exact .paused paused he hh hm

theorem handled_attach (id : Option NodeId) (capabilities : NodeCapabilities) :
    Handled now s (.attachRemote id capabilities) (s.atDispatch now (.attachRemote id capabilities))
      (s.attachRemote now id capabilities).2 := by
  cases id with
  | none =>
      cases hfree : s.nextFreeId with
      | none => exact .unchanged (by simp [atDispatch, hfree]) (by simp [attachRemote, hfree])
      | some n =>
          have hd : s.atDispatch now (.attachRemote none capabilities) =
              some (((s.putNode n (anonymousEntry now n capabilities)).connect now n capabilities
                (anonymousEntry now n capabilities)).refreshLeadership now) := by
            simp [atDispatch, hfree]
          rw [hd]
          simp only [attachRemote, hfree]
          exact .joined capabilities hfree rfl rfl
  | some n =>
      cases he : s.nodes[n]? with
      | none => exact .unchanged (by simp [atDispatch, he]) (by simp [attachRemote, he])
      | some e =>
          by_cases ha : attachable e = true
          · have hd : s.atDispatch now (.attachRemote (some n) capabilities) =
                some ((s.connect now n capabilities e).refreshLeadership now) := by
              simp [atDispatch, he, ha]
            have hs : (s.attachRemote now (some n) capabilities).2 =
                (s.attachEntry now n capabilities e).2 := by
              simp only [attachable, ne_eq, decide_not, Bool.and_eq_true, Bool.not_eq_true',
                decide_eq_false_iff_not] at ha
              simp [attachRemote, he, ha.1, ha.2]
            rw [hd, hs]
            exact .attached capabilities he ha rfl
          · refine .unchanged (by simp [atDispatch, he, ha]) ?_
            by_cases hk : e.kind = .simulated
            · simp [attachRemote, he, hk]
            · have hl : (e.handle.isSome && e.node.status.acceptsWork) = true := by
                simpa only [attachable, hk, ne_eq, not_false_eq_true, decide_true, Bool.true_and,
                  Bool.not_eq_true', Bool.not_eq_false] using ha
              simp only [attachRemote, he, hk, hl, if_false, if_true]

variable (now) in
theorem handled_detach (n : NodeId) (generation : Nat) :
    Handled now s (.detachRemote n generation) (s.atDispatch now (.detachRemote n generation))
      (s.detachRemote now n generation) := by
  cases he : s.nodes[n]? with
  | none => exact .unchanged (by simp [atDispatch, he]) (by simp [detachRemote, he])
  | some e =>
      by_cases hg : e.generation = generation
      · subst hg
        cases hh : e.handle with
        | none => exact .unchanged (by simp [atDispatch, he, hh]) (by simp [detachRemote, he, hh])
        | some c =>
            by_cases hk : e.kind = .remote true
            · have hd : s.atDispatch now (.detachRemote n e.generation) =
                  some ((s.lose now n e).refreshLeadership now) := by
                simp [atDispatch, he, hh, hk]
              have hs : s.detachRemote now n e.generation =
                  ((s.lose now n e).refreshLeadership now).dispatch now := by
                simp [detachRemote, he, hh, hk, lose]
              rw [hd, hs]
              exact .detached he hh hk rfl
            · have hd : s.atDispatch now (.detachRemote n e.generation) =
                  some (((s.lose now n e).forget now n).refreshLeadership now) := by
                simp [atDispatch, he, hh, hk]
              have hs : s.detachRemote now n e.generation =
                  (((s.lose now n e).forget now n).refreshLeadership now).dispatch now := by
                simp [detachRemote, he, hh, hk, lose, forget]
              rw [hd, hs]
              exact .forgotten he hh hk rfl
      · exact .unchanged (by simp [atDispatch, he, hg]) (by simp [detachRemote, he, hg])

theorem handled_report (r : NodeReport) : Handled now s (.report r)
    (s.atDispatch now (.report r)) (s.handleReport now r) := by
  cases r with
  | heartbeat hb =>
      simp only [handleReport, atDispatch]
      cases he : s.nodes[hb.node]? with
      | none => exact .ignored _
      | some e => exact .beat hb he
  | taskStarted n t => exact .taskStarted n t
  | taskFinished n t outcome => exact .taskFinished n t outcome rfl

/-- Inversion of one step of a run. -/
theorem handled (s : Supervisor) (now : Millis) (i : Input) :
    Handled now s i (s.atDispatch now i) (s.handle now i) := by
  cases i with
  | submitJob spec fault => exact handled_submit spec fault
  | setRole n role enabled => exact handled_setRole n role enabled
  | stopNode n => exact handled_stop n
  | startNode n => exact handled_start n
  | pauseHeartbeat n paused => exact handled_pause n paused
  | injectFailures n count =>
      exact handled_send n _ _ fun _ _ _ he hh hm => .injected count he hh hm
  | setTaskDelay n ms => exact handled_send n _ _ fun _ _ _ he hh hm => .delayed ms he hh hm
  | attachRemote id capabilities => exact handled_attach id capabilities
  | detachRemote n generation => exact handled_detach _ n generation
  | report r => exact handled_report r
  | tick => exact .ticked rfl
  | receive c => exact .received c
  | close c =>
      unfold handle
      dsimp only
      split
      · exact .closed c ‹_›
      · exact .ignored _

end Gavel.Cluster.Supervisor
