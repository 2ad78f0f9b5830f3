import Gavel.Cluster.Lemmas.Placement
import Gavel.Cluster.Lemmas.Fleet

/-!
# Who owns a channel

Every launch and every connection makes a channel of its own: no two nodes send into one channel, and
nothing was sent into a channel that is still to come.
-/

namespace Gavel.Cluster

/-- The task an assignment hands over. -/
def NodeInbox.ask? : NodeInbox → Option TaskId
  | .assign task => some task.id
  | _ => none

/-- The tasks whose assignments wait in the channel, the oldest first. -/
def Mailbox.asks (m : Mailbox) : List TaskId := m.pending.filterMap NodeInbox.ask?

namespace Supervisor

variable {s s' : Supervisor} {now : Millis} {n m : NodeId} {e e' : NodeEntry} {c : ChannelId}
  {i : Input}

/-! ## What an input does to the handles -/

theorem channel_of_nodes (h : s'.nodes = s.nodes) (n : NodeId) : s'.channel n = s.channel n := by
  rw [channel, channel, h]

theorem channel_insert (h : s'.nodes = s.nodes.insert m e') (n : NodeId) :
    s'.channel n = if m = n then e'.handle else s.channel n := by
  rw [channel, h, Table.get_insert]
  split <;> rfl

/-- A node keeps its channel, loses it, or held nothing and gets the next one. -/
def Rewired (m : NodeId) (s s' : Supervisor) : Prop :=
  ∀ n, s'.channel n = s.channel n ∨ s'.channel n = none ∨
    (n = m ∧ s.Idle n ∧ s'.channel n = some s.nextChannel ∧ s.nextChannel < s'.nextChannel)

namespace Rewired

theorem same (h : s'.nodes = s.nodes) : Rewired 0 s s' := fun n => .inl (channel_of_nodes h n)

theorem kept (he : s.nodes[n]? = some e) (h : s'.nodes = s.nodes.insert n e')
    (hh : e'.handle = e.handle) : Rewired 0 s s' := by
  intro a
  rw [channel_insert h]
  split
  · subst a; exact .inl (by rw [hh, channel, he]; rfl)
  · exact .inl rfl

theorem lost (h : s'.nodes = s.nodes.insert n (lostEntry e)) : Rewired 0 s s' := by
  intro a
  rw [channel_insert h]
  split
  · exact .inr (.inl rfl)
  · exact .inl rfl

theorem forgotten (h : s'.nodes = (s.nodes.insert n (lostEntry e)).erase n) : Rewired 0 s s' := by
  intro a
  have hc : s'.channel a = if n = a then none else s.channel a := by
    rw [channel, h, Table.get_erase]
    split
    · rfl
    · rename_i hne
      rw [Table.get_insert_ne hne]
      rfl
  rw [hc]
  split
  · exact .inr (.inl rfl)
  · exact .inl rfl

theorem fresh (e' : NodeEntry) (h : s'.nodes = s.nodes.insert m e') (hidle : s.Idle m)
    (hh : e'.handle = some s.nextChannel) (hnext : s'.nextChannel = s.nextChannel + 1) :
    Rewired m s s' := by
  intro n
  rw [channel_insert h]
  split
  · subst n
    exact .inr (.inr ⟨rfl, hidle, hh, hnext ▸ Nat.lt_succ_self _⟩)
  · exact .inl rfl

end Rewired

theorem dispatch_nextChannel (s : Supervisor) (now : Millis) :
    (s.dispatch now).nextChannel = s.nextChannel := (Working.refl s).dispatch.nextChannel

/-- What a dispatch is preceded by decides the registry and the next channel. -/
theorem dispatched_after {d : Supervisor} (hd : s = (d.refreshLeadership now).dispatch now) :
    s.nodes = d.nodes ∧ s.nextChannel = d.nextChannel := by
  subst hd
  rw [dispatch_nodes, dispatch_nextChannel, refreshLeadership_nodes, refreshLeadership_nextChannel]
  exact ⟨rfl, rfl⟩

/-- A worker that dials in finds its id without unfinished work. -/
theorem attached_idle (h : Settled s) {capabilities : NodeCapabilities} (he : s.nodes[n]? = some e)
    (ha : attachable e = true)
    (hok : s.evictsHolder (.attachRemote (some n) capabilities) = false) : s.Idle n := by
  cases hh : e.handle with
  | none => exact h.idle (by rw [channel, he]; exact hh)
  | some c =>
      refine idle_of_tasksOf h.wf ?_
      simpa [evictsHolder, he, ha, hh] using hok

variable (now) in
theorem handle_rewired (h : Settled s) (hok : s.evictsHolder i = false) :
    ∃ m, Rewired m s (s.handle now i) := by
  have hd := handled s now i
  generalize s.atDispatch now i = d, s.handle now i = s' at hd
  cases hd with
  | ignored | reservedJob | reservedTasks | received | closed | injected | delayed => exact ⟨0, .same rfl⟩
  | admitted spec =>
      refine ⟨0, .same ?_⟩
      rw [dispatch_nodes, ((Working.refl s).enrol spec).nodes]
  | roleKept role enabled he hr => exact ⟨0, .kept he rfl rfl⟩
  | roleChanged role enabled he hr =>
      refine ⟨0, .kept he ?_ (show (withRole _ role enabled).handle = _ from rfl)⟩
      rw [refreshLeadership_nodes]
      rfl
  | @stopped n e c he hh d hd =>
      refine ⟨0, .lost (n := n) (e := e) ?_⟩
      rw [(dispatched_after (congrArg (dispatch · now) hd)).1, lose_nodes]
  | @started n e he hh hk d hd =>
      have hidle : s.Idle n := h.idle (by rw [channel, he]; exact hh)
      obtain ⟨hnodes, hnext⟩ := dispatched_after (congrArg (dispatch · now) hd)
      refine ⟨n, .fresh (launchedEntry now s.nextChannel e) ?_ hidle rfl ?_⟩
      · rw [hnodes, rejoin_nodes he]
      · rw [hnext]
        simp [rejoin, launchNode, he]
  | paused paused he hh hm => exact ⟨0, .kept he rfl rfl⟩
  | @joined n capabilities hfree e he d hd =>
      have hidle : s.Idle n := h.idle (by rw [channel, nextFreeId_none hfree]; rfl)
      obtain ⟨hnodes, hnext⟩ := dispatched_after (congrArg (dispatch · now) hd)
      have hput : Rewired n (s.putNode n e) (d.dispatch now) :=
        .fresh (connectedEntry now capabilities s.nextChannel e)
          (by rw [hnodes, connect_nodes]; rfl) hidle rfl (by rw [hnext]; rfl)
      refine ⟨n, fun a => ?_⟩
      rcases hput a with hsame | hnone | hnew
      · refine .inl (hsame.trans ?_)
        rw [channel_insert (putNode_nodes s n e)]
        split
        · subst a
          rw [he, channel, nextFreeId_none hfree]
          rfl
        · rfl
      · exact .inr (.inl hnone)
      · exact .inr (.inr hnew)
  | @attached n e capabilities he ha d hd =>
      obtain ⟨hnodes, hnext⟩ := dispatched_after (congrArg (dispatch · now) hd)
      refine ⟨n, .fresh (connectedEntry now capabilities s.nextChannel e) ?_
        (attached_idle h he ha hok) rfl ?_⟩
      · rw [hnodes, connect_nodes]
      · rw [hnext]
        rfl
  | @detached n e c he hh hk d hd =>
      refine ⟨0, .lost (n := n) (e := e) ?_⟩
      rw [(dispatched_after (congrArg (dispatch · now) hd)).1, lose_nodes]
  | @forgotten n e c he hh hk d hd =>
      refine ⟨0, .forgotten (n := n) (e := e) ?_⟩
      rw [(dispatched_after (congrArg (dispatch · now) hd)).1, forget_nodes, lose_nodes]
  | beat hb he => exact ⟨0, .kept he rfl rfl⟩
  | taskStarted n t => exact ⟨0, .same ((Working.refl s).taskStarted n t).nodes⟩
  | taskFinished n t outcome hd =>
      refine ⟨0, .same ?_⟩
      rw [hd, dispatch_nodes, ((Working.refl s).finishTask n t.id outcome).nodes]
  | ticked hd =>
      refine ⟨0, fun n => .inl ?_⟩
      rw [channel, prune_nodes, (dispatched_after (congrArg (dispatch · now) hd)).1,
        sweepHealth_nodes, channel, Std.TreeMap.getElem?_map]
      cases s.nodes[n]? <;> rfl

/-! ## Ownership -/

/-- A channel in use has one owner and comes before the next one; the next one is empty. -/
structure Channelled (s : Supervisor) : Prop where
  below : ∀ n c, s.channel n = some c → c < s.nextChannel
  own : ∀ n m c, s.channel n = some c → s.channel m = some c → n = m

theorem Rewired.channelled (h : Channelled s) (hr : Rewired m s s')
    (hle : s.nextChannel ≤ s'.nextChannel) : Channelled s' := by
  have hcase (n : NodeId) (c : ChannelId) (hc : s'.channel n = some c) :
      s.channel n = some c ∨ (n = m ∧ c = s.nextChannel ∧ s.nextChannel < s'.nextChannel) := by
    rcases hr n with hsame | hnone | ⟨hn, -, hnew, hlt⟩
    · exact .inl (hsame ▸ hc)
    · rw [hnone] at hc; cases hc
    · exact .inr ⟨hn, Option.some.inj (hc.symm.trans hnew), hlt⟩
  refine ⟨?_, ?_⟩
  · intro n c hc
    rcases hcase n c hc with hold | ⟨-, rfl, hlt⟩
    · exact Nat.lt_of_lt_of_le (h.below n c hold) hle
    · exact hlt
  · intro n n' c hc hc'
    rcases hcase n c hc with hold | ⟨hn, hnext, -⟩ <;>
      rcases hcase n' c hc' with hold' | ⟨hn', hnext', -⟩
    · exact h.own n n' c hold hold'
    · exact absurd (h.below n c hold) (hnext' ▸ Nat.lt_irrefl _)
    · exact absurd (h.below n' c hold') (hnext ▸ Nat.lt_irrefl _)
    · rw [hn, hn']

theorem handle_channelled (h : Channelled s) (hs : Settled s) (hok : s.evictsHolder i = false) :
    Channelled (s.handle now i) := by
  obtain ⟨m, hr⟩ := handle_rewired now hs hok
  exact hr.channelled h (Fleet.handle_nextChannel_le s now i)

/-- A node that holds a task before and after an input keeps its channel. -/
theorem handle_channel (hs : Settled s) (hok : s.evictsHolder i = false) (hbusy : ¬ s.Idle n)
    (hc : (s.handle now i).channel n = some c) : s.channel n = some c := by
  obtain ⟨m, hr⟩ := handle_rewired now hs hok
  rcases hr n with hsame | hnone | ⟨-, hidle, -⟩
  · exact hsame ▸ hc
  · rw [hnone] at hc; cases hc
  · exact absurd hidle hbusy

/-- A node that gets a channel it did not have gets the next one. -/
theorem handle_channel_new (hs : Settled s) (hok : s.evictsHolder i = false)
    (hc : (s.handle now i).channel n = some c) : s.channel n = some c ∨ c = s.nextChannel := by
  obtain ⟨m, hr⟩ := handle_rewired now hs hok
  rcases hr n with hsame | hnone | ⟨-, -, hnew, -⟩
  · exact .inl (hsame ▸ hc)
  · rw [hnone] at hc; cases hc
  · exact .inr (Option.some.inj (hc.symm.trans hnew))

/-! ## Startup -/

section Boot

/-- An in-process node that holds nothing is started on the next channel. -/
theorem bringUp_channelled (h : Channelled s) (hidle : ∀ n, s.Idle n) (n : NodeId) :
    Channelled (bringUp now s n) := by
  unfold bringUp
  cases he : s.nodes[n]? with
  | none => exact h
  | some e =>
      dsimp only
      split
      · have hr : Rewired n s (((s.persistRoles now n e.node.roles).launchNode now n).emit now
            (.nodeJoined n)) := by
          refine .fresh (launchedEntry now s.nextChannel e) ?_ (hidle n) rfl ?_
          · simp [launchNode, he, launchedEntry]
          · simp [launchNode, he]
        refine hr.channelled h ?_
        simp [launchNode, he]
      · exact ⟨h.below, h.own⟩

theorem bringUp_mailboxes (s : Supervisor) (n : NodeId) :
    (bringUp now s n).mailboxes = s.mailboxes := by
  unfold bringUp
  cases he : s.nodes[n]? with
  | none => rfl
  | some e =>
      dsimp only
      split
      · simp only [launchNode, persistRoles_nodes, he]
        rfl
      · rfl

variable (now) in
theorem bringUp_all_channelled (ids : List NodeId) (h : Channelled s) (hidle : ∀ n, s.Idle n) :
    Channelled (ids.foldl (bringUp now) s) ∧
      (ids.foldl (bringUp now) s).mailboxes = s.mailboxes := by
  induction ids generalizing s with
  | nil => exact ⟨h, rfl⟩
  | cons n ids ih =>
      have hq := bringUp_quiet s now n
      obtain ⟨hc, hm⟩ := ih (bringUp_channelled h hidle n) fun m => by
        unfold Idle
        rw [hq.tasks]
        exact hidle m
      exact ⟨hc, hm.trans (bringUp_mailboxes s n)⟩

/-- At startup channels have one owner each, and nothing was sent yet. -/
theorem bootstrap_channelled (config : LocalClusterConfig) (scheduler : Scheduler) (elector : Elector)
    (store : Store) (now : Millis) : Channelled (bootstrap config scheduler elector store now) ∧
      (bootstrap config scheduler elector store now).mailboxes = fun _ => .fresh := by
  have hnone : Entries (fun _ e => e.handle = none)
      (registered config scheduler elector store now).nodes :=
    registered_entries config scheduler elector store now (fun _ _ => rfl) (fun _ _ => rfl)
      fun _ _ _ h => h
  have hchan (n : NodeId) : (registered config scheduler elector store now).channel n = none := by
    rw [channel]
    cases he : (registered config scheduler elector store now).nodes[n]? with
    | none => rfl
    | some e => exact hnone n e he
  obtain ⟨hlaunched, hmail⟩ := bringUp_all_channelled now
    (registered config scheduler elector store now).nodes.keys
    (s := registered config scheduler elector store now)
    ⟨fun n c hc => (by rw [hchan] at hc; cases hc), fun n m c hc => (by rw [hchan] at hc; cases hc)⟩
    fun n id t ht => (by simp [registered, new] at ht)
  have hf := (loadedState_fields now config scheduler elector store).1
  have hsame (n : NodeId) : (bootstrap config scheduler elector store now).channel n =
      (launched config scheduler elector store now).channel n :=
    channel_of_nodes ((refreshLeadership_nodes _ now).trans hf.nodes) n
  have hnext : (bootstrap config scheduler elector store now).nextChannel =
      (launched config scheduler elector store now).nextChannel :=
    (refreshLeadership_nextChannel _ now).trans hf.nextChannel
  refine ⟨⟨?_, ?_⟩, ?_⟩
  · intro n c hc
    rw [hnext]
    exact hlaunched.below n c (hsame n ▸ hc)
  · intro n m c hc hc'
    exact hlaunched.own n m c (hsame n ▸ hc) (hsame m ▸ hc')
  · exact (refreshLeadership_mailboxes _ now).trans (hf.mailboxes.trans hmail)

end Boot

end Supervisor

end Gavel.Cluster
