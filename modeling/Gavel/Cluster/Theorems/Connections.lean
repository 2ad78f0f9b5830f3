import Gavel.Cluster.Lemmas.Fleet

/-!
# Connections and the entries they stand for

A connection's detach names a node id and a generation, and arrives arbitrarily late. Two questions are
settled here: whether it can hit the entry of another connection, and whether the registry forgets the
undeclared workers that are gone.
-/

namespace Gavel.Cluster

open Supervisor

/-- The entry of a node and the tasks assigned to it are as before. -/
structure Supervisor.Spared (s s' : Supervisor) (n : NodeId) : Prop where
  entry : s'.nodes[n]? = s.nodes[n]?
  tasks : ∀ (id : TaskId) t, s.tasks[id]? = some t → t.assignedTo = some n → s'.tasks[id]? = some t

namespace Fleet

variable {f f' : Fleet} {c : ChannelId} {k : Connection} {now : Millis} {i : Input}

/-! ## Whose entry a detach hits -/

/-- Processing the detach of any connection, now or whenever it is issued, spares the entry of its
node while the handle there is another connection's. -/
def DetachesSpare (f : Fleet) : Prop :=
  ∀ (c c' : ChannelId) (k : Connection) (e : NodeEntry), f.connections[c]? = some k →
    k.phase ≠ .gone → f.supervisor.nodes[k.id]? = some e → e.handle = some c' → c' ≠ c →
    ∀ now, f.supervisor.Spared
      (f.supervisor.handle now (.detachRemote k.id k.attachment.generation)) k.id

/-- The generation a new worker is given is not that of a connection under the same id whose detach
is still to come. -/
def FreshGeneration (f : Fleet) : FleetAction → Prop
  | .attach _ id _ _ _ => ∀ n, f.supervisor.attachTarget id = some n →
      ∀ (c : ChannelId) k, f.connections[c]? = some k → k.phase ≠ .gone → k.id = n →
        k.attachment.generation ≠ f.supervisor.nextGeneration n
  | _ => True

/-- An entry whose handle is another connection's has another generation. -/
def Distinct (f : Fleet) : Prop :=
  ∀ (c c' : ChannelId) (k : Connection) (e : NodeEntry), f.connections[c]? = some k →
    k.phase ≠ .gone → f.supervisor.nodes[k.id]? = some e → e.handle = some c' → c' ≠ c →
    e.generation ≠ k.attachment.generation

theorem Distinct.spare (h : f.Distinct) : f.DetachesSpare := by
  intro c c' k e hk hp he hh hne now
  rw [detachRemote_stale he (h c c' k e hk hp he hh hne)]
  exact ⟨rfl, fun _ _ ht _ => ht⟩

/-- An entry that persists keeps its distance from every connection. -/
theorem Distinct.persists (hw : f.Wired) (h : f.Distinct) {c' : ChannelId} {e₀ e : NodeEntry}
    (hk : f.connections[c]? = some k) (hp : k.phase ≠ .gone)
    (he₀ : f.supervisor.nodes[k.id]? = some e₀) (hpers : Persists f.supervisor k.id i e₀ e)
    (hh : e.handle = some c') (hne : c' ≠ c) : e.generation ≠ k.attachment.generation := by
  rw [hpers.generation]
  rcases hpers.handle with hsame | ⟨hnone, -⟩ | ⟨hsim, -⟩
  · exact h c c' k e₀ hk hp he₀ (hsame ▸ hh) hne
  · rw [hnone] at hh; cases hh
  · exact absurd hsim (hw.worker c k e₀ hk he₀)

theorem step_distinct (hw : f.Wired) (h : f.Distinct) {a : FleetAction} (hc : f.FreshGeneration a) :
    (f.step a).Distinct := by
  intro d c' k' e hk' hp' he hh hne
  have hm := moved f a
  rcases hm.connection hk' with ⟨k₀, hk₀, hage⟩ | ⟨now, id, caps, interval, wl, b, agent, ha, hok, hd, rfl⟩
  · have hp₀ : k₀.phase ≠ .gone := fun hg => hp' (hage.gone hg)
    rw [hage.id] at he
    rw [hage.attachment]
    rcases hm.supervisor with hs | ⟨now, i, hs, hattach⟩
    · rw [hs] at he
      exact h d c' k₀ e hk₀ hp₀ he hh hne
    · rw [hs] at he
      rcases handle_entry _ now i he with ⟨e₀, he₀, hpers⟩ | hatt
      · exact h.persists hw hk₀ hp₀ he₀ hpers hh hne
      · obtain ⟨id, caps, hi, htarget⟩ := hatt.input
        obtain ⟨interval, wl, id', caps', hi', rfl⟩ := hattach ⟨id, caps, hi⟩
        rw [hi] at hi'
        cases hi'
        rw [hatt.generation]
        exact Ne.symm (hc k₀.id htarget d k₀ hk₀ hp₀ rfl)
  · -- The new connection's own entry carries its own channel.
    subst ha hd
    obtain ⟨-, -, hch, -, e', he', hatt⟩ := attachRemote_ok hok
    rw [step_attached interval wl hok] at he
    change (f.supervisor.handle now (.attachRemote id caps)).nodes[b.id]? = some e at he
    rw [he'] at he
    cases he
    rw [hatt.handle, ← hch] at hh
    exact absurd (Option.some.inj hh).symm hne

/-- A reused generation lets an older connection's detach hit the new entry. -/
theorem step_reused (hw : f.Wired) {a : FleetAction} (hc : ¬ f.FreshGeneration a) :
    ¬ (f.step a).DetachesSpare := by
  intro hspare
  cases a with
  | attach now id caps interval wl =>
      simp only [FreshGeneration, not_forall, not_not] at hc
      obtain ⟨n, htarget, c, k, hk, hp, rfl, hg⟩ := hc
      cases hr : (f.supervisor.attachRemote now id caps).1 with
      | error reason =>
          rw [(attachRemote_error hr).2] at htarget
          cases htarget
      | ok b =>
          obtain ⟨htarget', -, hch, -, e', he', hatt⟩ := attachRemote_ok hr
          rw [htarget] at htarget'
          rw [← Option.some.inj htarget'] at he' hatt
          have hlt := (hw.channel c k hk).2
          have hne : b.channel ≠ c := by rw [hch]; exact Ne.symm (Nat.ne_of_lt hlt)
          rw [step_attached interval wl hr] at hspare
          have hs := hspare c f.supervisor.nextChannel k e'
            ((Table.get_insert_ne hne).trans hk) hp he' hatt.handle (by rw [← hch]; exact hne) 0
          have hgone := hs.entry
          rw [hg, ← hatt.generation] at hgone
          change ((f.supervisor.handle now (.attachRemote id caps)).handle 0
            (.detachRemote k.id e'.generation)).nodes[k.id]? =
            (f.supervisor.handle now (.attachRemote id caps)).nodes[k.id]? at hgone
          rw [detachRemote_current he' hatt.handle, he'] at hgone
          split at hgone
          · have hhandle := congrArg NodeEntry.handle (Option.some.inj hgone)
            rw [hatt.handle] at hhandle
            cases hhandle
          · cases hgone
  | _ => exact hc trivial

variable (config : LocalClusterConfig) (scheduler : Scheduler) (elector : Elector) (store : Store)

/-- In every state of a run no detach can hit the entry of another connection, exactly when every
worker that attaches is given a generation no outstanding detach under its id carries. -/
theorem detaches_spare_iff (boot : Millis) (actions : List FleetAction) :
    (∀ f ∈ run config scheduler elector store boot actions, f.DetachesSpare) ↔
      Run.AllSteps step FreshGeneration (Fleet.boot config scheduler elector store boot) actions := by
  refine Run.forall_visited_iff (I := fun f => f.Wired ∧ f.Distinct) ?_ ?_ ?_
    ⟨boot_wired config scheduler elector store boot, ?_⟩
  · exact fun f h => h.2.spare
  · exact fun f a h hc => ⟨step_wired h.1 a, step_distinct h.1 h.2 hc⟩
  · exact fun f a h hc => step_reused h.1 hc
  · intro c c' k e hk
    simp [Fleet.boot] at hk

/-- An undeclared worker falls silent, a second one takes over its id and leaves, so that the entry is
removed; a third is given the same id, and with it the first one's generation. Then the first
connection ends. -/
def reusedIdActions : List FleetAction :=
  [.attach 0 none ⟨4, 8⟩ 1000 none, .welcome 0 true, .command 3500 .tick,
    .attach 3600 (some 1) ⟨4, 8⟩ 1000 none, .welcome 1 true, .hangUp 1, .detach 3700 1,
    .attach 3800 none ⟨4, 8⟩ 1000 none, .hangUp 0]

set_option maxRecDepth 20000 in
theorem late_detach_hits_reused_id :
    ¬ ∀ f ∈ run (.anonymousOnly ⟨4, 8⟩) leastLoaded lowestHealthyId .empty 0 reusedIdActions,
      f.DetachesSpare := by
  intro h
  have hlast := h _ (Run.final_mem_visited _ reusedIdActions)
  have hold : (Run.final step (boot (.anonymousOnly ⟨4, 8⟩) leastLoaded lowestHealthyId .empty 0)
      reusedIdActions).connections[0]?.any (fun k => k.phase == .leaving && k.id == 1 &&
        k.attachment.generation == 1) = true := by decide
  have hnew : (Run.final step (boot (.anonymousOnly ⟨4, 8⟩) leastLoaded lowestHealthyId .empty 0)
      reusedIdActions).supervisor.nodes[1]?.any (fun e => e.handle == some 2) = true := by decide
  have hgone : ((Run.final step (boot (.anonymousOnly ⟨4, 8⟩) leastLoaded lowestHealthyId .empty 0)
      reusedIdActions).supervisor.handle 3900 (.detachRemote 1 1)).nodes[1]?.isNone = true := by decide
  obtain ⟨k, hk, hkp⟩ := Option.any_eq_true _ _ |>.mp hold
  obtain ⟨e, he, heh⟩ := Option.any_eq_true _ _ |>.mp hnew
  simp only [Bool.and_eq_true, beq_iff_eq] at hkp heh
  obtain ⟨⟨hphase, hid⟩, hgen⟩ := hkp
  have hspared := hlast 0 2 k e hk (by rw [hphase]; simp) (by rw [hid]; exact he) heh (by decide) 3900
  have hentry := hspared.entry
  rw [hid, hgen, Option.isNone_iff_eq_none.mp hgone] at hentry
  rw [← hentry] at he
  cases he

/-! ## Undeclared workers that are gone -/

/-- Once every detach of an ended connection is processed, each undeclared worker in the registry has
a handle, and the connection behind it is open. -/
def ForgetsTheGone (f : Fleet) : Prop :=
  (∀ (c : ChannelId) k, f.connections[c]? = some k → k.phase ≠ .leaving) →
  ∀ (n : NodeId) e, f.supervisor.nodes[n]? = some e → e.kind = .remote false →
    ∃ c k, e.handle = some c ∧ f.connections[c]? = some k ∧ k.isOpen = true

/-- No connected undeclared worker is stopped, and none fails to get its welcome. -/
def KeepsTrack (f : Fleet) : FleetAction → Prop
  | .command _ (.stopNode n) =>
      ∀ e, f.supervisor.nodes[n]? = some e → e.kind = .remote false → e.handle = none
  | .welcome c false => ∀ k e, f.connections[c]? = some k → k.phase = .greeting →
      f.supervisor.nodes[k.id]? = some e → e.kind = .remote false → e.handle ≠ some c
  | _ => True

/-- The handle of an entry is that of a connection under the same id and generation, which will
still send its detach. -/
def Attended (f : Fleet) (n : NodeId) (e : NodeEntry) : Prop :=
  ∃ c k, e.handle = some c ∧ f.connections[c]? = some k ∧ k.id = n ∧
    k.attachment.generation = e.generation ∧ k.phase ≠ .gone

def AllAttended (f : Fleet) : Prop :=
  ∀ (n : NodeId) e, f.supervisor.nodes[n]? = some e → e.kind = .remote false → f.Attended n e

theorem AllAttended.forgets (h : f.AllAttended) : f.ForgetsTheGone := by
  intro hquiet n e he hkind
  obtain ⟨c, k, hh, hk, -, -, hp⟩ := h n e he hkind
  have hleft := hquiet c k hk
  refine ⟨c, k, hh, hk, ?_⟩
  unfold Connection.isOpen
  cases hphase : k.phase <;> simp_all

variable {n : NodeId} {e : NodeEntry}

theorem Attended.put (h : f.Attended n e) {k' : Connection} {report : Option NodeReport}
    (hk : f.connections[c]? = some k) (ha : k'.attachment = k.attachment)
    (hp : k'.phase = .gone → k.phase = .gone) : (f.put c k' report).Attended n e := by
  obtain ⟨d, k₀, hh, hk₀, hid, hg, hp₀⟩ := h
  by_cases hd : c = d
  · subst d
    cases hk.symm.trans hk₀
    refine ⟨c, k', hh, Table.get_insert_self, ?_, ha ▸ hg, fun hgone => hp₀ (hp hgone)⟩
    rw [← hid]
    exact congrArg RemoteAttachment.id ha
  · exact ⟨d, k₀, hh, (Table.get_insert_ne hd).trans hk₀, hid, hg, hp₀⟩

/-- A connection ends for good, and it is not the one behind this entry. -/
theorem Attended.put_other (h : f.Attended n e) (hne : e.handle ≠ some c) (k' : Connection)
    (report : Option NodeReport) : (f.put c k' report).Attended n e := by
  obtain ⟨d, k₀, hh, hk₀, rest⟩ := h
  have hd : c ≠ d := fun heq => hne (heq ▸ hh)
  exact ⟨d, k₀, hh, (Table.get_insert_ne hd).trans hk₀, rest⟩

variable (now) in
/-- What the supervisor handles keeps an undeclared worker attended, unless it attaches or stops. -/
theorem AllAttended.handle (h : f.AllAttended)
    (he : (f.supervisor.handle now i).nodes[n]? = some e) (hkind : e.kind = .remote false)
    (hattach : ¬ Attaches f.supervisor n i e)
    (hstop : i = .stopNode n → ∀ e, f.supervisor.nodes[n]? = some e → e.kind = .remote false →
      e.handle = none) :
    f.Attended n e ∧ ∃ e₀, f.supervisor.nodes[n]? = some e₀ ∧ e₀.kind = .remote false ∧
      e₀.handle = e.handle ∧ e₀.generation = e.generation := by
  obtain ⟨e₀, he₀, hpers⟩ := (handle_entry _ now i he).resolve_right hattach
  have hkind₀ : e₀.kind = .remote false := hpers.kind.symm.trans hkind
  obtain ⟨c, k, hh, hk, hid, hg, hp⟩ := h n e₀ he₀ hkind₀
  have hsame : e.handle = e₀.handle := by
    rcases hpers.handle with hsame | ⟨-, hi | hdecl⟩ | ⟨hsim, -⟩
    · exact hsame
    · rw [hstop hi e₀ he₀ hkind₀] at hh; cases hh
    · rw [hkind₀] at hdecl; cases hdecl
    · rw [hkind₀] at hsim; cases hsim
  exact ⟨⟨c, k, hsame.trans hh, hk, hid, hg.trans hpers.generation.symm, hp⟩, e₀, he₀, hkind₀,
    hsame.symm, hpers.generation.symm⟩

theorem not_attaches (hi : ∀ id capabilities, i ≠ .attachRemote id capabilities) {s : Supervisor} :
    ¬ Attaches s n i e := by
  intro h
  obtain ⟨id, capabilities, heq, -⟩ := h.input
  exact hi id capabilities heq

theorem Moved.allAttended (hw : f.Wired) (h : f.AllAttended) {a : FleetAction} (hc : f.KeepsTrack a)
    (hm : Moved f a f') : f'.AllAttended := by
  intro n e he hkind
  cases hm with
  | idle => exact h n e he hkind
  | @command now i hi =>
      refine (h.handle _ he hkind (not_attaches ?_) ?_).1
      · rintro id capabilities rfl; cases hi
      · rintro rfl; exact hc
  | @inProcess now i hi =>
      refine (h.handle _ he hkind (not_attaches ?_) ?_).1
      · rintro id capabilities rfl; cases hi
      · rintro rfl; cases hi
  | @attached now id capabilities interval workload agent b hagent hok =>
      obtain ⟨htarget, hgen, hch, -, -⟩ := attachRemote_ok hok
      by_cases hatt : Attaches f.supervisor n (.attachRemote id capabilities) e
      · obtain ⟨id', caps', heq, ht⟩ := hatt.input
        cases heq
        rw [htarget] at ht
        cases ht
        exact ⟨b.channel, .new b agent, hch ▸ hatt.handle, Table.get_insert_self, rfl,
          hgen.trans hatt.generation.symm, by simp [Connection.new]⟩
      · obtain ⟨c, k, hh, hk, rest⟩ := (h.handle _ he hkind hatt (by simp)).1
        have hlt := (hw.channel c k hk).2
        have hne : b.channel ≠ c := by rw [hch]; exact Ne.symm (Nat.ne_of_lt hlt)
        exact ⟨c, k, hh, (Table.get_insert_ne hne).trans hk, rest⟩
  | welcomed hk hp => exact (h n e he hkind).put hk rfl (by simp)
  | @unwelcomed c k hk hp =>
      refine (h n e he hkind).put_other ?_ _ _
      intro hh
      obtain ⟨d, k₀, hd, hk₀, hid, -⟩ := h n e he hkind
      rw [hh] at hd
      cases hd
      cases hk.symm.trans hk₀
      exact hc k e hk hp (hid ▸ he) hkind hh
  | relayed input refusal hk hp hm =>
      have hatt := (h.handle 0 he hkind (not_attaches (by simp)) (by simp)).1
      exact Attended.put (f := f.supervise 0 _) hatt hk (by simp) (by simp)
  | workerHandled now hk hp => exact (h n e he hkind).put hk (by simp) (by simp)
  | workerPolled now hk hp => exact (h n e he hkind).put hk rfl id
  | taken hk hp hm => exact (h n e he hkind).put hk (by simp) (by simp)
  | reported now hr => exact (h.handle _ he hkind (not_attaches (by simp)) (by simp)).1
  | hungUp hk hp => exact (h n e he hkind).put hk rfl (by simp)
  | dropped hk hp => exact (h.handle 0 he hkind (not_attaches (by simp)) (by simp)).1
  | @detached c k now hk hp =>
      obtain ⟨hatt, e₀, he₀, hkind₀, hh₀, hg₀⟩ :=
        h.handle now he hkind (not_attaches (by simp)) (by simp)
      refine Attended.put_other (f := f.supervise now _) hatt ?_ _ _
      -- The connection's own entry would have been removed.
      intro hh
      obtain ⟨d, k', hd, hk', hid, hg, -⟩ := hatt
      rw [hh] at hd
      cases hd
      cases hk.symm.trans hk'
      change (f.supervisor.handle now
        (.detachRemote k.id k.attachment.generation)).nodes[n]? = some e at he
      rw [hid, hg, ← hg₀, detachRemote_current he₀ (hh₀.trans hh), hkind₀] at he
      cases he

theorem boot_allAttended (boot : Millis) :
    (Fleet.boot config scheduler elector store boot).AllAttended := by
  have hnone : Entries (fun _ e => e.kind ≠ .remote false)
      (bootstrap config scheduler elector store boot).nodes :=
    bootstrap_entries config scheduler elector store boot (by simp [simulatedEntry])
      (by simp [declaredEntry]) (fun _ _ _ h => h) fun _ _ _ h => h
  intro n e he hkind
  exact absurd hkind (hnone n e he)

/-- In every state of a run in which no connected undeclared worker is stopped or left without its
welcome, the registry holds no undeclared worker that is gone. -/
theorem forgets_the_gone (boot : Millis) (actions : List FleetAction)
    (hc : Run.AllSteps step KeepsTrack (Fleet.boot config scheduler elector store boot) actions) :
    ∀ f ∈ run config scheduler elector store boot actions, f.ForgetsTheGone := by
  intro f hf
  have hinv := Run.invariant (I := fun f => f.Wired ∧ f.AllAttended)
    (fun f a h hc => ⟨step_wired h.1 a, (moved f a).allAttended h.1 h.2 hc⟩)
    ⟨boot_wired config scheduler elector store boot,
      boot_allAttended config scheduler elector store boot⟩ hc
  exact (hinv f hf).2.forgets

/-- A worker joins, is suspected, comes back under its id on a new connection, and both end. -/
def replacedWorkerActions : List FleetAction :=
  [.attach 0 none ⟨4, 8⟩ 1000 none, .welcome 0 true, .command 3500 .tick,
    .attach 3600 (some 1) ⟨4, 8⟩ 1000 none, .welcome 1 true, .hangUp 0, .detach 3700 0, .hangUp 1,
    .detach 3800 1]

set_option maxRecDepth 20000 in
theorem replaced_worker_is_forgotten :
    (∀ f ∈ run (.anonymousOnly ⟨4, 8⟩) leastLoaded lowestHealthyId .empty 0 replacedWorkerActions,
      f.ForgetsTheGone) ∧
    (Run.final step (boot (.anonymousOnly ⟨4, 8⟩) leastLoaded lowestHealthyId .empty 0)
      replacedWorkerActions).supervisor.nodes[1]?.isNone = true := by
  refine ⟨forgets_the_gone _ _ _ _ 0 replacedWorkerActions ?_, by decide⟩
  exact ⟨trivial, trivial, trivial, trivial, trivial, trivial, trivial, trivial, trivial, trivial⟩

/-- An undeclared worker is stopped by an operator; its connection ends and sends its detach, which
finds an entry without a handle. -/
def stoppedWorkerActions : List FleetAction :=
  [.attach 0 none ⟨4, 8⟩ 1000 none, .welcome 0 true, .command 10 (.stopNode 1), .hangUp 0, .detach 20 0]

set_option maxRecDepth 20000 in
theorem stopped_worker_stays_registered :
    ¬ ∀ f ∈ run (.anonymousOnly ⟨4, 8⟩) leastLoaded lowestHealthyId .empty 0 stoppedWorkerActions,
      f.ForgetsTheGone := by
  intro h
  have hlast := h _ (Run.final_mem_visited _ stoppedWorkerActions)
  have hquiet : (Run.final step (boot (.anonymousOnly ⟨4, 8⟩) leastLoaded lowestHealthyId .empty 0)
      stoppedWorkerActions).connections.rows.all (fun k => k.phase != .leaving) = true := by decide
  have hghost : (Run.final step (boot (.anonymousOnly ⟨4, 8⟩) leastLoaded lowestHealthyId .empty 0)
      stoppedWorkerActions).supervisor.nodes[1]?.any (fun e => e.kind == .remote false &&
        e.handle == none) = true := by decide
  obtain ⟨e, he, hgone⟩ := Option.any_eq_true _ _ |>.mp hghost
  simp only [Bool.and_eq_true, beq_iff_eq] at hgone
  obtain ⟨c, k, hh, -⟩ := hlast (fun c k hk => by
    simpa using List.all_eq_true.mp hquiet k (Table.mem_rows.mpr ⟨c, hk⟩)) 1 e he hgone.1
  rw [hgone.2] at hh
  cases hh

end Fleet

end Gavel.Cluster
