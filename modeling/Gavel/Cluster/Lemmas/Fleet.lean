import Gavel.Cluster.Remote
import Gavel.Cluster.Lemmas.Registry
import Gavel.Cluster.Lemmas.Startup

/-!
# Steps of a fleet

An action is handled by the supervisor, changes one connection, or both. Each action is inverted once,
and what the connections and the registry have to do with each other is kept as an invariant.
-/

namespace Gavel.Cluster

open Supervisor

namespace Fleet

variable {f f' : Fleet} {c : ChannelId} {k : Connection} {now : Millis} {i : Input}

/-! ## Inversion -/

/-- What an action does. -/
inductive Moved (f : Fleet) : FleetAction → Fleet → Prop where
  | idle (a : FleetAction) : Moved f a f
  | command (now : Millis) {i : Input} (hi : i.isCommand = true) :
      Moved f (.command now i) (f.supervise now i)
  | inProcess (now : Millis) {i : Input} (hi : f.isInProcess i = true) :
      Moved f (.inProcess now i) (f.supervise now i)
  | attached (now : Millis) (id : Option NodeId) (capabilities : NodeCapabilities) (interval : Nat)
      (workload : Option Workload) {agent : Agent} {a : RemoteAttachment}
      (hagent : agent = { Agent.new id capabilities interval with workload := workload })
      (hok : (f.supervisor.attachRemote now id capabilities).1 = .ok a) :
      Moved f (.attach now id capabilities interval workload)
        { f.supervise now (.attachRemote id capabilities) with
          connections := f.connections.insert a.channel (.new a agent) }
  | welcomed {c : ChannelId} {k : Connection} (hk : f.connections[c]? = some k)
      (hp : k.phase = .greeting) : Moved f (.welcome c true) (f.put c { k with
        phase := .serving
        toWorker := [.welcome protocolVersion k.id k.attachment.heartbeatIntervalMs] } none)
  | unwelcomed {c : ChannelId} {k : Connection} (hk : f.connections[c]? = some k)
      (hp : k.phase = .greeting) : Moved f (.welcome c false) (f.put c { k with phase := .gone } none)
  | relayed {c : ChannelId} {k : Connection} (input : Option Bytes) (refusal : Option String)
      {msg : NodeInbox} {rest : List NodeInbox} (hk : f.connections[c]? = some k)
      (hp : k.phase = .serving) (hm : (f.supervisor.mailboxes c).pending = msg :: rest) :
      Moved f (.relay c input refusal) ((f.supervise 0 (.receive c)).put c
        (k.relay msg input refusal).1 (k.relay msg input refusal).2)
  | workerHandled {c : ChannelId} {k : Connection} (now : Millis) (hk : f.connections[c]? = some k)
      (hp : k.phase = .serving) :
      Moved f (.workerHandles c now) (f.put c (k.workerHandles now) none)
  | workerPolled {c : ChannelId} {k : Connection} (now : Millis) (hk : f.connections[c]? = some k)
      (hp : k.phase = .serving) : Moved f (.workerPolls c now) (f.put c (k.workerPolls now) none)
  | taken {c : ChannelId} {k : Connection} {message : NodeMessage} {rest : List NodeMessage}
      (hk : f.connections[c]? = some k) (hp : k.phase = .serving)
      (hm : k.fromWorker = message :: rest) :
      Moved f (.take c) (f.put c ({ k with fromWorker := rest }.take message).1
        ({ k with fromWorker := rest }.take message).2)
  | reported (now : Millis) {r : NodeReport} {rest : List NodeReport} (hr : f.reports = r :: rest) :
      Moved f (.report now) ({ f with reports := rest }.supervise now (.report r))
  | hungUp {c : ChannelId} {k : Connection} (hk : f.connections[c]? = some k)
      (hp : k.phase = .serving) : Moved f (.hangUp c) (f.put c { k with phase := .leaving } none)
  | dropped {c : ChannelId} {k : Connection} (hk : f.connections[c]? = some k)
      (hp : k.isOpen = false) : Moved f (.dropInbox c) (f.supervise 0 (.close c))
  | detached {c : ChannelId} {k : Connection} (now : Millis) (hk : f.connections[c]? = some k)
      (hp : k.phase = .leaving) :
      Moved f (.detach now c) ((f.supervise now (.detachRemote k.id k.attachment.generation)).put c
        { k with phase := .gone } none)

theorem moved_inPhase {a : FleetAction} {phase : Phase} {g : Connection → Fleet}
    (h : ∀ k, f.connections[c]? = some k → k.phase = phase → Moved f a (g k)) :
    Moved f a ((f.inPhase c phase).elim f g) := by
  cases hk : f.inPhase c phase with
  | none => exact .idle a
  | some k =>
      obtain ⟨hk, hp⟩ := Option.filter_eq_some_iff.mp hk
      exact h k hk (by simpa using hp)

theorem moved_attach (now : Millis) (id : Option NodeId) (capabilities : NodeCapabilities)
    (interval : Nat) (workload : Option Workload) :
    Moved f (.attach now id capabilities interval workload)
      (f.step (.attach now id capabilities interval workload)) := by
  simp only [step, attach]
  cases hr : (f.supervisor.attachRemote now id capabilities).1 with
  | ok a => exact .attached now id capabilities interval workload rfl hr
  | error reason =>
      simp only [(attachRemote_error hr).1]
      exact .idle _

theorem step_attached {id : Option NodeId} {capabilities : NodeCapabilities} {b : RemoteAttachment}
    (interval : Nat) (workload : Option Workload)
    (h : (f.supervisor.attachRemote now id capabilities).1 = .ok b) :
    f.step (.attach now id capabilities interval workload) =
      { f.supervise now (.attachRemote id capabilities) with
        connections := f.connections.insert b.channel (.new b
          { Agent.new id capabilities interval with workload := workload }) } := by
  simp only [step, attach, h]
  rfl

theorem moved (f : Fleet) (a : FleetAction) : Moved f a (f.step a) := by
  cases a with
  | command now i =>
      simp only [step]
      split
      · exact .command now ‹_›
      · exact .idle _
  | inProcess now i =>
      simp only [step]
      split
      · exact .inProcess now ‹_›
      · exact .idle _
  | attach now id capabilities interval workload => exact moved_attach now id capabilities interval workload
  | welcome c written =>
      refine moved_inPhase fun k hk hp => ?_
      cases written with
      | true => exact .welcomed hk hp
      | false => exact .unwelcomed hk hp
  | relay c input refusal =>
      refine moved_inPhase fun k hk hp => ?_
      unfold relay
      cases hm : (f.supervisor.mailboxes c).pending with
      | nil => exact .idle _
      | cons msg rest => exact .relayed input refusal hk hp hm
  | workerHandles c now => exact moved_inPhase fun k hk hp => .workerHandled now hk hp
  | workerPolls c now => exact moved_inPhase fun k hk hp => .workerPolled now hk hp
  | take c =>
      refine moved_inPhase fun k hk hp => ?_
      unfold take
      cases hm : k.fromWorker with
      | nil => exact .idle _
      | cons message rest => exact .taken hk hp hm
  | report now =>
      simp only [step, report]
      cases hr : f.reports with
      | nil => exact .idle _
      | cons r rest => exact .reported now hr
  | hangUp c => exact moved_inPhase fun k hk hp => .hungUp hk hp
  | dropInbox c =>
      simp only [step]
      split
      · rename_i h
        obtain ⟨k, hk, hp⟩ := Option.any_eq_true _ _ |>.mp h
        exact .dropped hk (by simpa using hp)
      · exact .idle _
  | detach now c => exact moved_inPhase fun k hk hp => .detached now hk hp

/-! ## What a step does to the connections -/

@[simp] theorem relay_attachment (k : Connection) (msg : NodeInbox) (input : Option Bytes)
    (refusal : Option String) : (k.relay msg input refusal).1.attachment = k.attachment := by
  unfold Connection.relay
  split
  · split <;> rfl
  · split <;> rfl

@[simp] theorem relay_phase (k : Connection) (msg : NodeInbox) (input : Option Bytes)
    (refusal : Option String) : (k.relay msg input refusal).1.phase = k.phase := by
  unfold Connection.relay
  split
  · split <;> rfl
  · split <;> rfl

@[simp] theorem take_attachment (k : Connection) (message : NodeMessage) :
    (k.take message).1.attachment = k.attachment := by
  unfold Connection.take
  split <;> first | rfl | (split <;> rfl)

@[simp] theorem take_phase (k : Connection) (message : NodeMessage) :
    (k.take message).1.phase = k.phase := by
  unfold Connection.take
  split <;> first | rfl | (split <;> rfl)

@[simp] theorem workerHandles_attachment (k : Connection) (now : Millis) :
    (k.workerHandles now).attachment = k.attachment := by
  unfold Connection.workerHandles
  split <;> rfl

@[simp] theorem workerHandles_phase (k : Connection) (now : Millis) :
    (k.workerHandles now).phase = k.phase := by
  unfold Connection.workerHandles
  split <;> rfl

/-- A connection never changes what it was told, and never comes back. -/
structure Ages (k k' : Connection) : Prop where
  attachment : k'.attachment = k.attachment
  gone : k.phase = .gone → k'.phase = .gone

theorem Ages.refl (k : Connection) : Ages k k := ⟨rfl, id⟩

theorem Ages.id {k k' : Connection} (h : Ages k k') : k'.id = k.id :=
  congrArg RemoteAttachment.id h.attachment

/-- Rows after one row was replaced by an older or younger self. -/
theorem get_put {k' k'' : Connection} {report : Option NodeReport} {d : ChannelId}
    (hk : f.connections[c]? = some k) (h : (f.put c k' report).connections[d]? = some k'')
    (ha : Ages k k') :
    ∃ k₀, f.connections[d]? = some k₀ ∧ Ages k₀ k'' := by
  rw [show (f.put c k' report).connections = f.connections.insert c k' from rfl,
    Table.get_insert] at h
  split at h
  · subst d; cases h; exact ⟨k, hk, ha⟩
  · exact ⟨k'', h, .refl k''⟩

/-- Every connection after a step was there before it, or has just attached. -/
theorem Moved.connection {a : FleetAction} (h : Moved f a f') {d : ChannelId} {k' : Connection}
    (hk' : f'.connections[d]? = some k') :
    (∃ k₀, f.connections[d]? = some k₀ ∧ Ages k₀ k') ∨
    ∃ now id capabilities interval workload b agent,
      a = .attach now id capabilities interval workload ∧
      (f.supervisor.attachRemote now id capabilities).1 = .ok b ∧
      d = b.channel ∧ k' = .new b agent := by
  cases h with
  | idle | command | inProcess | reported | dropped => exact .inl ⟨k', hk', .refl k'⟩
  | @attached now id capabilities interval workload agent b hagent hok =>
      rw [show ({ f.supervise now (.attachRemote id capabilities) with
          connections := f.connections.insert b.channel (.new b agent) } : Fleet).connections =
        f.connections.insert b.channel (.new b agent) from rfl, Table.get_insert] at hk'
      split at hk'
      · rename_i hd
        cases hk'
        exact .inr ⟨now, id, capabilities, interval, workload, b, agent, rfl, hok, hd.symm, rfl⟩
      · exact .inl ⟨k', hk', .refl k'⟩
  | welcomed hk hp => exact .inl (get_put hk hk' ⟨rfl, fun hg => by rw [hp] at hg; cases hg⟩)
  | unwelcomed hk hp => exact .inl (get_put hk hk' ⟨rfl, fun _ => rfl⟩)
  | relayed input refusal hk hp hm =>
      exact .inl (get_put (f := f.supervise 0 _) hk hk' ⟨by simp, by simp⟩)
  | workerHandled now hk hp => exact .inl (get_put hk hk' ⟨by simp, by simp⟩)
  | workerPolled now hk hp => exact .inl (get_put hk hk' ⟨rfl, id⟩)
  | taken hk hp hm => exact .inl (get_put hk hk' ⟨by simp, by simp⟩)
  | hungUp hk hp => exact .inl (get_put hk hk' ⟨rfl, fun hg => by rw [hp] at hg; cases hg⟩)
  | detached now hk hp =>
      exact .inl (get_put (f := f.supervise now _) hk hk' ⟨rfl, fun _ => rfl⟩)

/-- The supervisor handles at most one input per action. -/
theorem Moved.supervisor {a : FleetAction} (h : Moved f a f') :
    f'.supervisor = f.supervisor ∨ ∃ now i, f'.supervisor = f.supervisor.handle now i ∧
      ((∃ id capabilities, i = .attachRemote id capabilities) → ∃ interval workload,
        ∃ id capabilities, i = .attachRemote id capabilities ∧
          a = .attach now id capabilities interval workload) := by
  cases h with
  | idle | welcomed | unwelcomed | workerHandled | workerPolled | taken | hungUp => exact .inl rfl
  | command now hi =>
      refine .inr ⟨now, _, rfl, ?_⟩
      rintro ⟨id, capabilities, rfl⟩
      cases hi
  | inProcess now hi =>
      refine .inr ⟨now, _, rfl, ?_⟩
      rintro ⟨id, capabilities, rfl⟩
      cases hi
  | attached now id capabilities interval workload hagent hok =>
      exact .inr ⟨now, _, rfl, fun _ => ⟨interval, workload, id, capabilities, rfl, rfl⟩⟩
  | relayed input refusal hk hp hm => exact .inr ⟨0, .receive _, rfl, by simp⟩
  | reported now hr => exact .inr ⟨now, .report _, rfl, by simp⟩
  | dropped hk hp => exact .inr ⟨0, .close _, rfl, by simp⟩
  | detached now hk hp => exact .inr ⟨now, .detachRemote _ _, rfl, by simp⟩

/-! ## Channels -/

theorem handle_nextChannel_le (s : Supervisor) (now : Millis) (i : Input) :
    s.nextChannel ≤ (s.handle now i).nextChannel := by
  have h := handled s now i
  generalize s.atDispatch now i = d, s.handle now i = s' at h
  have hd (t : Supervisor) : (t.dispatch now).nextChannel = t.nextChannel :=
    (Working.refl t).dispatch.nextChannel
  have hp (t : Supervisor) : t.pruneMemory.nextChannel = t.nextChannel :=
    (Working.refl t).pruneMemory.nextChannel
  have hl (n : NodeId) (e : NodeEntry) : (s.lose now n e).nextChannel = s.nextChannel :=
    (lose_working s now n e).nextChannel
  cases h with
  | ignored | reservedJob | reservedTasks | roleKept | paused | injected | delayed | beat | received
  | closed => exact Nat.le_refl _
  | admitted spec => rw [hd, ((Working.refl s).enrol spec).nextChannel]
  | roleChanged role enabled he hr => rw [refreshLeadership_nextChannel]; exact Nat.le_refl _
  | stopped he hh hs => rw [hs, hd, refreshLeadership_nextChannel, hl]
  | @started n e he hh hk d hs =>
      rw [hs, hd, refreshLeadership_nextChannel]
      simp [rejoin, launchNode, he]
  | joined capabilities hfree he hs =>
      rw [hs, hd, refreshLeadership_nextChannel]
      exact Nat.le_succ _
  | attached capabilities he ha hs =>
      rw [hs, hd, refreshLeadership_nextChannel]
      exact Nat.le_succ _
  | detached he hh hk hs => rw [hs, hd, refreshLeadership_nextChannel, hl]
  | @forgotten n e c he hh hk d hs =>
      rw [hs, hd, refreshLeadership_nextChannel]
      exact Nat.le_of_eq (hl n e).symm
  | taskStarted n t => rw [((Working.refl s).taskStarted n t).nextChannel]
  | taskFinished n t outcome hs => rw [hs, hd, ((Working.refl s).finishTask n t.id outcome).nextChannel]
  | ticked hs =>
      rw [hs, hp, hd, refreshLeadership_nextChannel, sweepHealth_nextChannel]

/-- Connections sit under the channel they were given, and only workers' entries are theirs. -/
structure Wired (f : Fleet) : Prop where
  channel : ∀ (c : ChannelId) k, f.connections[c]? = some k →
    k.attachment.channel = c ∧ c < f.supervisor.nextChannel
  worker : ∀ (c : ChannelId) k e, f.connections[c]? = some k →
    f.supervisor.nodes[k.id]? = some e → e.kind ≠ .simulated

theorem boot_wired (config : LocalClusterConfig) (scheduler : Scheduler) (elector : Elector)
    (store : Store) (now : Millis) : (boot config scheduler elector store now).Wired :=
  ⟨by simp [boot], by simp [boot]⟩

theorem Moved.nextChannel_le {a : FleetAction} (h : Moved f a f') :
    f.supervisor.nextChannel ≤ f'.supervisor.nextChannel := by
  rcases h.supervisor with hs | ⟨now, i, hs, -⟩
  · exact Nat.le_of_eq (congrArg Supervisor.nextChannel hs.symm)
  · rw [hs]; exact handle_nextChannel_le _ now i

theorem Moved.wired {a : FleetAction} (hw : f.Wired) (h : Moved f a f') : f'.Wired := by
  refine ⟨?_, ?_⟩
  · intro d k' hk'
    rcases h.connection hk' with ⟨k₀, hk₀, hage⟩ | ⟨now, id, caps, interval, wl, b, agent, ha, hok, hd, rfl⟩
    · obtain ⟨hc, hlt⟩ := hw.channel d k₀ hk₀
      exact ⟨by rw [hage.attachment]; exact hc, Nat.lt_of_lt_of_le hlt h.nextChannel_le⟩
    · subst ha hd
      refine ⟨rfl, ?_⟩
      obtain ⟨-, -, hch, hnext, -⟩ := attachRemote_ok hok
      cases h with
      | idle =>
          -- The connection is new, so the step is not idle.
          have := (hw.channel _ _ hk').2
          rw [hch] at this
          exact absurd this (Nat.lt_irrefl _)
      | attached => exact Nat.lt_of_lt_of_eq (by rw [hch]; exact Nat.lt_succ_self _) hnext.symm
  · intro d k' e hk' he
    have hentry : (∃ e₀, f.supervisor.nodes[k'.id]? = some e₀ ∧ e.kind = e₀.kind) ∨
        e.kind ≠ .simulated := by
      rcases h.supervisor with hs | ⟨now, i, hs, -⟩
      · exact .inl ⟨e, by rw [← hs]; exact he, rfl⟩
      · rw [hs] at he
        rcases handle_entry _ now i he with ⟨e₀, he₀, hp⟩ | hatt
        · exact .inl ⟨e₀, he₀, hp.kind⟩
        · exact .inr hatt.kind
    rcases hentry with ⟨e₀, he₀, hkind⟩ | hkind
    · rcases h.connection hk' with ⟨k₀, hk₀, hage⟩ | ⟨now, id, caps, interval, wl, b, agent, ha, hok, hd, rfl⟩
      · rw [hkind]
        exact hw.worker d k₀ e₀ hk₀ (by rw [← hage.id]; exact he₀)
      · obtain ⟨htarget, -⟩ := attachRemote_ok hok
        rw [hkind]
        change f.supervisor.nodes[b.id]? = some e₀ at he₀
        cases id with
        | none =>
            rw [nextFreeId_none (n := b.id) htarget] at he₀
            cases he₀
        | some n =>
            simp only [attachTarget] at htarget
            split at htarget
            · rename_i hany
              cases htarget
              obtain ⟨x, hx, hax⟩ := Option.any_eq_true _ _ |>.mp hany
              rw [he₀] at hx
              cases hx
              exact attachable_remote hax
            · cases htarget
    · exact hkind

theorem step_wired (hw : f.Wired) (a : FleetAction) : (f.step a).Wired := (moved f a).wired hw

end Fleet

end Gavel.Cluster
