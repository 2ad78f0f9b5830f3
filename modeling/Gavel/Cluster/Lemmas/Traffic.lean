import Gavel.Cluster.Lemmas.Handover
import Gavel.Cluster.Lemmas.Signals

/-!
# A task between the supervisor and its worker

The signals of one task are read off a connection, and every step of the connection is followed through
them: it takes the attempt one step on, or ends it with the connection.
-/

namespace Gavel.Cluster

namespace Connection

variable {k : Connection} {x : TaskId} {now : Millis} {st : TaskState} {r q : List Signal}

/-- The signals of the task on the connection, those nearest the supervisor's report channel first. -/
def signals (k : Connection) (x : TaskId) : List Signal :=
  k.fromWorker.filterMap (NodeMessage.signal? x) ++ k.agent.signals x ++
    asked x (k.toWorker.filterMap SupervisorMessage.ask?)

/-- Frames about the task pass the connection. -/
def Holds (k : Connection) (x : TaskId) : Prop := ∃ t, k.assigned = some t ∧ t.id = x

/-- A worker that is not greeted yet was told nothing; one that is has an id, or reads it first. -/
structure Ready (k : Connection) : Prop where
  greeting : k.phase = .greeting → k.toWorker = [] ∧ k.fromWorker = [] ∧ k.agent.running = none
  serving : k.phase = .serving →
    k.agent.id.isSome = true ∨ ∃ p n i rest, k.toWorker = .welcome p n i :: rest

/-- Only the phase, the attachment or the held task differ. -/
theorem signals_congr {k' : Connection} (hfrom : k'.fromWorker = k.fromWorker)
    (hagent : k'.agent = k.agent) (hto : k'.toWorker = k.toWorker) : k'.signals x = k.signals x := by
  rw [signals, signals, hfrom, hagent, hto]

theorem workerHandles_nil (h : k.toWorker = []) : k.workerHandles now = k := by
  rw [workerHandles, h]

theorem workerHandles_signals {message : SupervisorMessage} {rest : List SupervisorMessage}
    (h : k.toWorker = message :: rest) : (k.workerHandles now).signals x =
      k.fromWorker.filterMap (NodeMessage.signal? x) ++
        Agent.outcome x (k.agent.handle message now) ++
        asked x (rest.filterMap SupervisorMessage.ask?) := by
  rw [workerHandles, h]
  simp [signals, Agent.outcome, Agent.heard]

theorem signals_next {message : SupervisorMessage} {rest : List SupervisorMessage}
    (h : k.toWorker = message :: rest) : k.signals x =
      k.fromWorker.filterMap (NodeMessage.signal? x) ++ k.agent.signals x ++
        (asked x message.ask?.toList ++ asked x (rest.filterMap SupervisorMessage.ask?)) := by
  rw [signals, h, ← asked_append]
  cases hm : message.ask? <;> simp [hm]

theorem asked_other {id : Option TaskId} (h : id ≠ some x) : asked x id.toList = [] := by
  cases id with
  | none => rfl
  | some y => exact asked_ne (by simpa using h) []

/-- The agent handles the oldest frame: the attempt goes on. -/
theorem workerHandles_live (hready : k.Ready) (hp : k.phase = .serving)
    (h : Live st (r ++ k.signals x ++ q)) : Live st (r ++ (k.workerHandles now).signals x ++ q) := by
  cases hto : k.toWorker with
  | nil => rw [workerHandles_nil hto]; exact h
  | cons message rest =>
      rw [workerHandles_signals hto]
      rw [signals_next hto] at h
      by_cases hask : message.ask? = some x
      · cases message with
        | assign y wire =>
            obtain rfl : y = x := Option.some.inj hask
            have hid : k.agent.id.isSome = true := by
              refine (hready.serving hp).resolve_right ?_
              rintro ⟨p, n, i, rest', hhead⟩
              rw [hto] at hhead
              cases hhead
            -- The assignment is all there is, so the agent is not running the task.
            obtain ⟨hbefore, hafter⟩ := h.ask
              (r := r ++ k.fromWorker.filterMap (NodeMessage.signal? y) ++ k.agent.signals y)
              (q := asked y (rest.filterMap SupervisorMessage.ask?) ++ q)
              (by simp [SupervisorMessage.ask?])
            simp only [List.append_eq_nil_iff] at hbefore hafter
            rw [hbefore.1.1, hbefore.1.2, hafter.1, hafter.2]
            simpa [Agent.handle] using Agent.accept_self hid hbefore.2 wire
        | _ => cases hask
      · rw [asked_other hask, List.nil_append] at h
        have hw : Worked (k.agent.signals x) (Agent.outcome x (k.agent.handle message now)) :=
          Agent.handle_other hask
        have hlive := hw.live (r := r ++ k.fromWorker.filterMap (NodeMessage.signal? x))
          (q := asked x (rest.filterMap SupervisorMessage.ask?) ++ q) (by simpa using h)
        simpa using hlive

theorem workerHandles_silent (h : k.signals x = []) : (k.workerHandles now).signals x = [] := by
  cases hto : k.toWorker with
  | nil => rw [workerHandles_nil hto]; exact h
  | cons message rest =>
      rw [workerHandles_signals hto]
      rw [signals_next hto] at h
      simp only [List.append_eq_nil_iff] at h
      obtain ⟨⟨hfrom, hagent⟩, hask, hrest⟩ := h
      have hne : message.ask? ≠ some x := by
        intro heq
        rw [heq] at hask
        simp at hask
      have hw : Worked (k.agent.signals x) (Agent.outcome x (k.agent.handle message now)) :=
        Agent.handle_other hne
      rw [hagent] at hw
      rw [hfrom, hw.nil, hrest]
      rfl

theorem workerPolls_signals : (k.workerPolls now).signals x =
    k.fromWorker.filterMap (NodeMessage.signal? x) ++ Agent.outcome x (k.agent.poll now) ++
      asked x (k.toWorker.filterMap SupervisorMessage.ask?) := by
  simp [workerPolls, signals, Agent.outcome, Agent.heard]

/-- The clock of the worker moves on: the attempt goes on. -/
theorem workerPolls_live (h : Live st (r ++ k.signals x ++ q)) :
    Live st (r ++ (k.workerPolls now).signals x ++ q) := by
  have hw := Agent.poll_worked k.agent x now
  have hlive := hw.live (r := r ++ k.fromWorker.filterMap (NodeMessage.signal? x))
    (q := asked x (k.toWorker.filterMap SupervisorMessage.ask?) ++ q) (by simpa [signals] using h)
  simpa [workerPolls_signals] using hlive

theorem workerPolls_silent (h : k.signals x = []) : (k.workerPolls now).signals x = [] := by
  have hw := Agent.poll_worked k.agent x now
  simp only [signals, List.append_eq_nil_iff] at h
  rw [h.1.2] at hw
  rw [workerPolls_signals, h.1.1, hw.nil, h.2]
  rfl

theorem workerHandles_ready (h : k.Ready) (hp : k.phase = .serving) : (k.workerHandles now).Ready := by
  refine ⟨fun hg => ?_, fun _ => ?_⟩
  · rw [Fleet.workerHandles_phase, hp] at hg
    cases hg
  · cases hto : k.toWorker with
    | nil => rw [workerHandles_nil hto]; exact h.serving hp
    | cons message rest =>
        rw [workerHandles, hto]
        refine .inl (Agent.handle_id message ?_)
        rcases h.serving hp with hid | ⟨p, n, i, rest', hhead⟩
        · exact .inl hid
        · rw [hto] at hhead
          cases hhead
          exact .inr ⟨p, n, i, rfl⟩

theorem workerPolls_ready (h : k.Ready) (hp : k.phase = .serving) : (k.workerPolls now).Ready := by
  refine ⟨fun hg => ?_, fun _ => ?_⟩
  · exact absurd (hp.symm.trans hg) (by simp)
  · rw [workerPolls, Agent.poll_id]
    exact h.serving hp

/-! ### Relaying and taking -/

/-- An assignment goes on the wire or fails at once; a control message is no assignment. -/
theorem relay_cases (k : Connection) (msg : NodeInbox) (input : Option Bytes)
    (refusal : Option String) :
    (∃ u frame, msg = .assign u ∧ SupervisorMessage.ask? frame = some u.id ∧
      k.relay msg input refusal =
        ({ k with assigned := some u, toWorker := k.toWorker ++ [frame] }, none)) ∨
    (∃ u why, msg = .assign u ∧
      k.relay msg input refusal = (k, some (.taskFinished k.id u (.failed .executionError why)))) ∨
    (msg.ask? = none ∧ ∃ frames, frames.filterMap SupervisorMessage.ask? = [] ∧
      k.relay msg input refusal = ({ k with toWorker := k.toWorker ++ frames }, none)) := by
  cases msg with
  | assign u =>
      simp only [relay]
      cases hs : ship u.id u.spec input refusal with
      | error why => exact .inr (.inl ⟨u, why, rfl, rfl⟩)
      | ok frame =>
          refine .inl ⟨u, frame, rfl, ?_, rfl⟩
          unfold ship at hs
          split at hs <;> cases hs
          rfl
  | _ =>
      refine .inr (.inr ⟨rfl, ?_⟩)
      simp only [relay]
      split
      · exact ⟨[], rfl, by simp⟩
      · exact ⟨_, by simp [control, SupervisorMessage.ask?], rfl⟩

theorem matchTask_id {slot : Option Task} {reported : TaskId} {t : Task}
    (h : matchTask slot reported = some t) : slot = some t ∧ t.id = reported := by
  unfold matchTask at h
  cases slot with
  | none => cases h
  | some u =>
      dsimp only at h
      split at h
      · cases h; exact ⟨rfl, ‹_›⟩
      · cases h

theorem take_kept (k : Connection) (message : NodeMessage) :
    (k.take message).1.fromWorker = k.fromWorker ∧ (k.take message).1.agent = k.agent ∧
      (k.take message).1.toWorker = k.toWorker := by
  cases message with
  | taskFinished y outcome =>
      simp only [take]
      cases matchTask k.assigned y <;> exact ⟨rfl, rfl, rfl⟩
  | _ => exact ⟨rfl, rfl, rfl⟩

theorem take_signals (k : Connection) (message : NodeMessage) (x : TaskId) :
    (k.take message).1.signals x = k.signals x := by
  obtain ⟨hfrom, hagent, hto⟩ := take_kept k message
  exact signals_congr hfrom hagent hto

/-- A frame that is not about the task makes no report about it, and does not end it. -/
theorem take_other {message : NodeMessage} (h : message.signal? x = none) :
    (∀ n, (k.take message).2.bind (NodeReport.signal? n x) = none) ∧
      (k.Holds x → (k.take message).1.Holds x) := by
  cases message with
  | taskStarted y =>
      have hy : y ≠ x := by simpa [NodeMessage.signal?] using h
      refine ⟨fun n => ?_, fun h => h⟩
      simp only [take]
      cases hm : matchTask k.assigned y with
      | none => rfl
      | some t => simp [NodeReport.signal?, (matchTask_id hm).2, hy]
  | taskFinished y outcome =>
      have hy : y ≠ x := by simpa [NodeMessage.signal?] using h
      simp only [take]
      cases hm : matchTask k.assigned y with
      | none => exact ⟨fun n => rfl, fun h => h⟩
      | some t =>
          obtain ⟨hslot, ht⟩ := matchTask_id hm
          refine ⟨fun n => by simp [NodeReport.signal?, ht, hy], ?_⟩
          rintro ⟨u, hu, hux⟩
          cases hslot.symm.trans hu
          exact absurd (ht.symm.trans hux) hy
  | _ => exact ⟨fun n => rfl, fun h => h⟩

/-- A frame about the task the connection holds is reported. -/
theorem take_self {message : NodeMessage} {g : Signal} (h : message.signal? x = some g)
    (hk : k.Holds x) : (k.take message).2.bind (NodeReport.signal? k.id x) = some g ∧
      (g = .start → (k.take message).1.Holds x) := by
  obtain ⟨t, hslot, rfl⟩ := hk
  cases message with
  | taskStarted y =>
      obtain ⟨rfl, rfl⟩ : y = t.id ∧ Signal.start = g := by simpa [NodeMessage.signal?] using h
      simp only [take, matchTask, hslot]
      exact ⟨by simp [NodeReport.signal?], fun _ => ⟨t, hslot, rfl⟩⟩
  | taskFinished y outcome =>
      obtain ⟨rfl, rfl⟩ : y = t.id ∧ Signal.finish outcome.isFailed = g := by
        simpa [NodeMessage.signal?] using h
      simp only [take, matchTask, hslot]
      exact ⟨by simp [NodeReport.signal?], fun h => by cases h⟩
  | _ => cases h

theorem take_node {message : NodeMessage} {n : NodeId} (h : n ≠ k.id) :
    (k.take message).2.bind (NodeReport.signal? n x) = none := by
  cases message with
  | taskStarted y =>
      simp only [take]
      cases matchTask k.assigned y <;> simp [NodeReport.signal?, Ne.symm h]
  | taskFinished y outcome =>
      simp only [take]
      cases matchTask k.assigned y <;> simp [NodeReport.signal?, Ne.symm h]
  | _ => rfl

theorem take_ready {message : NodeMessage} (h : k.Ready) (hp : k.phase = .serving) :
    (k.take message).1.Ready := by
  obtain ⟨-, hagent, hto⟩ := take_kept k message
  refine ⟨fun hg => ?_, fun _ => ?_⟩
  · rw [Fleet.take_phase, hp] at hg
    cases hg
  · rw [hagent, hto]
    exact h.serving hp

/-! ### One step of a connection -/

/-- What is left of the attempt at the task: signals on the connection, then the assignments in its
inbox. While the worker has the task the inbox holds no assignment, and the connection lets the frames
about it pass. -/
structure Conveys (k : Connection) (asks : List TaskId) (x : TaskId) (left : List Signal) : Prop where
  left : left = k.signals x ++ asked x asks
  holds : k.signals x ≠ [] → k.Holds x ∧ asks = []
  last : x ∈ asks → asks.getLast? = some x

/-- A step of a connection that takes an attempt one step on, and makes no attempt up. -/
structure Progress (k k' : Connection) (report : Option NodeReport) (asks asks' : List TaskId) :
    Prop where
  id : k'.id = k.id
  node : ∀ n x, n ≠ k.id → report.bind (NodeReport.signal? n x) = none
  silent : ∀ x, x ∉ asks → k.signals x = [] →
    x ∉ asks' ∧ k'.signals x = [] ∧ report.bind (NodeReport.signal? k.id x) = none
  conveys : ∀ x st told left, k.Conveys asks x left → Live st (told ++ left) →
    ∃ left', Live st (told ++ (report.bind (NodeReport.signal? k.id x)).toList ++ left') ∧
      (k'.isOpen = true → k'.Conveys asks' x left')

namespace Progress

variable {k' : Connection} {asks : List TaskId}

theorem quiet (hid : k'.id = k.id) (hsilent : ∀ x, k.signals x = [] → k'.signals x = [])
    (hlive : ∀ x st r q, Live st (r ++ k.signals x ++ q) → Live st (r ++ k'.signals x ++ q))
    (hassigned : k'.assigned = k.assigned) : Progress k k' none asks asks where
  id := hid
  node := fun _ _ _ => rfl
  silent := fun x hx hk => ⟨hx, hsilent x hk, rfl⟩
  conveys := by
    intro x st told left hc h
    refine ⟨k'.signals x ++ asked x asks, ?_, fun _ => ⟨rfl, fun hne => ?_, hc.last⟩⟩
    · rw [hc.left, ← List.append_assoc] at h
      simpa using hlive x st told (asked x asks) h
    · obtain ⟨⟨t, ht, hx⟩, hnil⟩ := hc.holds fun hnone => hne (hsilent x hnone)
      exact ⟨⟨t, hassigned.trans ht, hx⟩, hnil⟩

/-- The connection ends: nothing about the attempt comes back from it. -/
theorem ended (hid : k'.id = k.id) (hsame : ∀ x, k'.signals x = k.signals x)
    (hclosed : k'.isOpen = false) : Progress k k' none asks asks where
  id := hid
  node := fun _ _ _ => rfl
  silent := fun x hx hk => ⟨hx, (hsame x).trans hk, rfl⟩
  conveys := by
    intro x st told left _ h
    refine ⟨left, by simpa using h, fun hopen => ?_⟩
    rw [hclosed] at hopen
    cases hopen

end Progress

theorem workerHandles_progress (h : k.Ready) (hp : k.phase = .serving) (asks : List TaskId) :
    Progress k (k.workerHandles now) none asks asks := by
  refine .quiet (congrArg RemoteAttachment.id (Fleet.workerHandles_attachment k now))
    (fun _ => workerHandles_silent) (fun _ _ _ _ => workerHandles_live h hp) ?_
  unfold workerHandles
  split <;> rfl

theorem workerPolls_progress (asks : List TaskId) : Progress k (k.workerPolls now) none asks asks :=
  .quiet rfl (fun _ => workerPolls_silent) (fun _ _ _ _ => workerPolls_live) rfl

theorem welcome_progress (h : k.Ready) (hp : k.phase = .greeting) (p : Nat) (n : NodeId) (i : Nat)
    (asks : List TaskId) :
    Progress k { k with phase := .serving, toWorker := [.welcome p n i] } none asks asks := by
  have hsame (x : TaskId) :
      ({ k with phase := .serving, toWorker := [.welcome p n i] } : Connection).signals x =
        k.signals x := by
    rw [signals, signals, (h.greeting hp).1]
    rfl
  refine .quiet rfl (fun x hx => (hsame x).trans hx) (fun x st r q hl => ?_) rfl
  rw [hsame]
  exact hl

theorem message_signal {message : NodeMessage} {g : Signal} (h : message.signal? x = some g) :
    g = .start ∨ ∃ failed, g = .finish failed := by
  cases message with
  | taskStarted y =>
      simp only [NodeMessage.signal?] at h
      split at h <;> cases h
      exact .inl rfl
  | taskFinished y outcome =>
      simp only [NodeMessage.signal?] at h
      split at h <;> cases h
      exact .inr ⟨_, rfl⟩
  | _ => cases h

theorem take_progress {message : NodeMessage} {rest : List NodeMessage}
    (h : k.fromWorker = message :: rest) (asks : List TaskId) :
    Progress k ({ k with fromWorker := rest }.take message).1
      ({ k with fromWorker := rest }.take message).2 asks asks := by
  have hnext (x : TaskId) : k.signals x =
      (message.signal? x).toList ++ ({ k with fromWorker := rest }.take message).1.signals x := by
    rw [take_signals, signals, signals, h]
    cases hm : message.signal? x <;> simp [hm]
  have hid : ({ k with fromWorker := rest }.take message).1.id = k.id :=
    congrArg RemoteAttachment.id (Fleet.take_attachment _ message)
  refine ⟨hid, fun n x hn => take_node (k := { k with fromWorker := rest }) hn,
    fun x hx hk => ?_, fun x st told left hc hlive => ?_⟩
  · rw [hnext, List.append_eq_nil_iff] at hk
    have hnone : message.signal? x = none := by simpa using hk.1
    exact ⟨hx, hk.2, (take_other hnone).1 k.id⟩
  · rw [hc.left, hnext] at hlive
    cases hm : message.signal? x with
    | none =>
        obtain ⟨hreport, hholds⟩ := take_other (k := { k with fromWorker := rest }) hm
        refine ⟨_, by simpa [hm, hreport] using hlive, fun _ => ⟨rfl, fun hne => ?_, hc.last⟩⟩
        obtain ⟨hk, hnil⟩ := hc.holds (by rw [hnext]; simpa [hm] using hne)
        exact ⟨hholds hk, hnil⟩
    | some g =>
        obtain ⟨hk, hnil⟩ := hc.holds (by rw [hnext, hm]; simp)
        obtain ⟨hreport, hholds⟩ := take_self (k := { k with fromWorker := rest }) hm hk
        have hreport : ({ k with fromWorker := rest }.take message).2.bind
            (NodeReport.signal? k.id x) = some g := hreport
        refine ⟨({ k with fromWorker := rest }.take message).1.signals x ++ asked x asks,
          by simpa [hm, hreport] using hlive, fun _ => ⟨rfl, fun hne => ⟨?_, hnil⟩, hc.last⟩⟩
        rcases message_signal hm with rfl | ⟨failed, rfl⟩
        · exact hholds rfl
        · -- A result is the last signal, so nothing is left to let pass.
          have hend := hlive.after_finish (r := told)
            (q := ({ k with fromWorker := rest }.take message).1.signals x ++ asked x asks)
            (show _ = told ++ .finish failed :: _ by simp [hm])
          exact absurd (List.append_eq_nil_iff.mp hend).1 hne

/-- The last of the assignments is the only one of its task, once it is the oldest. -/
theorem only_ask {asks : List TaskId} (hlast : (x :: asks).getLast? = some x) (hnot : x ∉ asks) :
    asks = [] := by
  cases asks with
  | nil => rfl
  | cons y l =>
      rw [List.getLast?_cons_cons] at hlast
      exact absurd (List.mem_of_getLast? hlast) hnot

/-- The assignment of the task itself is next: it is all there is. -/
theorem Conveys.self {asks : List TaskId} {told left : List Signal} (hc : k.Conveys (x :: asks) x left)
    (h : Live st (told ++ left)) : told = [] ∧ k.signals x = [] ∧ asks = [] := by
  rw [hc.left, asked_self] at h
  obtain ⟨hbefore, hafter⟩ := h.ask (r := told ++ k.signals x) (q := asked x asks) (by simp)
  obtain ⟨htold, hsig⟩ := List.append_eq_nil_iff.mp hbefore
  exact ⟨htold, hsig, only_ask (hc.last List.mem_cons_self) (asked_eq_nil.mp hafter)⟩

/-- The assignment of another task is next: the worker has heard nothing of this one yet. -/
theorem Conveys.other {asks : List TaskId} {left : List Signal} {y : TaskId} (hy : y ≠ x)
    (hc : k.Conveys (y :: asks) x left) :
    k.signals x = [] ∧ left = asked x asks ∧ (x ∈ asks → asks.getLast? = some x) := by
  have hsig : k.signals x = [] := by
    by_contra hne
    exact absurd (hc.holds hne).2 (by simp)
  refine ⟨hsig, by rw [hc.left, hsig, asked_ne hy]; rfl, fun hmem => ?_⟩
  have hlast := hc.last (List.mem_cons_of_mem _ hmem)
  obtain ⟨z, l, rfl⟩ := List.exists_cons_of_ne_nil (List.ne_nil_of_mem hmem)
  rwa [List.getLast?_cons_cons] at hlast

/-- The connection takes the oldest message out of the inbox. -/
theorem relay_progress (msg : NodeInbox) (input : Option Bytes) (refusal : Option String)
    (asks : List TaskId) : Progress k (k.relay msg input refusal).1 (k.relay msg input refusal).2
      (msg.ask?.toList ++ asks) asks := by
  have hid : (k.relay msg input refusal).1.id = k.id :=
    congrArg RemoteAttachment.id (Fleet.relay_attachment k msg input refusal)
  rcases relay_cases k msg input refusal with ⟨u, frame, rfl, hframe, heq⟩ | ⟨u, why, rfl, heq⟩ |
    ⟨hmsg, frames, hframes, heq⟩
  · rw [heq] at hid ⊢
    have hsig (x : TaskId) : ({ k with assigned := some u, toWorker := k.toWorker ++ [frame] } :
        Connection).signals x = k.signals x ++ asked x [u.id] := by
      simp [signals, List.filterMap_append, asked_append, hframe]
    refine ⟨hid, fun _ _ _ => rfl, fun x hx hk => ?_, fun x st told left hc h => ?_⟩
    · have hne : u.id ≠ x := fun he => hx (by simp [NodeInbox.ask?, he])
      refine ⟨fun hm => hx (by simp [hm]), ?_, rfl⟩
      rw [hsig, hk, asked_ne hne]
      rfl
    · by_cases hx : u.id = x
      · subst x
        obtain ⟨rfl, hk, rfl⟩ := Conveys.self hc h
        refine ⟨[.ask], by simpa using Live.asked st, fun _ => ⟨?_, fun _ => ⟨⟨u, rfl, rfl⟩, rfl⟩, by simp⟩⟩
        rw [hsig, hk]
        simp
      · obtain ⟨hk, rfl, hlast⟩ := Conveys.other hx hc
        have hnone : ({ k with assigned := some u, toWorker := k.toWorker ++ [frame] } :
            Connection).signals x = [] := by
          rw [hsig, hk, asked_ne hx]
          rfl
        exact ⟨asked x asks, by simpa using h,
          fun _ => ⟨by rw [hnone]; rfl, fun hne => absurd hnone hne, hlast⟩⟩
  · rw [heq] at hid ⊢
    refine ⟨rfl, fun n x hn => by simp [NodeReport.signal?, Ne.symm hn], fun x hx hk => ?_,
      fun x st told left hc h => ?_⟩
    · have hne : u.id ≠ x := fun he => hx (by simp [NodeInbox.ask?, he])
      exact ⟨fun hm => hx (by simp [hm]), hk, by simp [NodeReport.signal?, hne]⟩
    · by_cases hx : u.id = x
      · subst x
        obtain ⟨rfl, hk, rfl⟩ := Conveys.self hc h
        refine ⟨[], ?_, fun _ => ⟨by rw [hk]; rfl, fun hne => absurd hk hne, by simp⟩⟩
        simpa [NodeReport.signal?, TaskOutcome.isFailed] using Live.failed st
      · obtain ⟨hk, rfl, hlast⟩ := Conveys.other hx hc
        exact ⟨asked x asks, by simpa [NodeReport.signal?, hx] using h,
          fun _ => ⟨by rw [hk]; rfl, fun hne => absurd hk hne, hlast⟩⟩
  · rw [heq] at hid ⊢
    rw [hmsg]
    have hsame (x : TaskId) : ({ k with toWorker := k.toWorker ++ frames } : Connection).signals x =
        k.signals x := by
      rw [signals, signals]
      simp [List.filterMap_append, hframes]
    refine .quiet hid (fun x hx => (hsame x).trans hx) (fun x st r q hl => ?_) rfl
    rw [hsame]
    exact hl

end Connection

end Gavel.Cluster
