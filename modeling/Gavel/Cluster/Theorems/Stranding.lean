import Gavel.Cluster.Lemmas.Traffic
import Gavel.Cluster.Theorems.Placement

/-!
# No task is stranded

A task a node holds is followed from the assignment to the result: through the inbox, the wire, the
agent, the frames on their way back and the report channel. As long as nothing is handed to a worker that
still carries the same task, an attempt under way always has a signal somewhere, and its result counts.
An agent is silent about a task it is already running, so handing it over again strands it.
-/

namespace Gavel.Cluster

open Supervisor

namespace Fleet

variable {f f' : Fleet} {a : FleetAction} {c : ChannelId} {k k' : Connection} {n : NodeId} {t : Task}
  {now : Millis} {i : Input} {x : TaskId}

/-! ## What must not happen -/

/-- No assignment, start or result of the task is in flight on the connection or in the report
channel. -/
structure Silent (f : Fleet) (c : ChannelId) (k : Connection) (x : TaskId) : Prop where
  inbox : ∀ t, .assign t ∈ (f.supervisor.mailboxes c).pending → t.id ≠ x
  toWorker : ∀ task spec, .assign task spec ∈ k.toWorker → task ≠ x
  fromWorker : ∀ task, .taskStarted task ∈ k.fromWorker → task ≠ x
  finished : ∀ task outcome, .taskFinished task outcome ∈ k.fromWorker → task ≠ x
  startReports : ∀ n t, .taskStarted n t ∈ f.reports → t.id ≠ x
  finishReports : ∀ n t outcome, .taskFinished n t outcome ∈ f.reports → t.id ≠ x

/-- A healthy node holds the task, its connection is open, its worker runs nothing, and nothing about
the task is in flight. -/
structure Stranded (f : Fleet) (n : NodeId) (e : NodeEntry) (c : ChannelId) (k : Connection)
    (x : TaskId) (t : Task) : Prop where
  task : f.supervisor.tasks[x]? = some t
  held : t.state.isHeld = true
  assignedTo : t.assignedTo = some n
  entry : f.supervisor.nodes[n]? = some e
  healthy : e.node.status = .healthy
  handle : e.handle = some c
  connection : f.connections[c]? = some k
  isOpen : k.isOpen = true
  idle : k.agent.running = none
  silent : f.Silent c k x

/-- No task is stranded, and the result next to be handled ends the attempt of its sender. -/
structure Unstranded (f : Fleet) : Prop where
  none : ∀ n e c k x t, ¬ f.Stranded n e c k x t
  finishes : ∀ n u outcome rest, f.reports = .taskFinished n u outcome :: rest →
    ∀ t, f.supervisor.tasks[u.id]? = some t → t.state.isHeld = true → t.assignedTo = some n →
    ∀ now t', (f.supervisor.finishTask now n u.id outcome).tasks[u.id]? = some t' →
      t'.state.isHeld = false

/-! ## What has to be avoided -/

/-- The connection carries the task: its assignment is on the way, the worker has it, or frames about it
are on the way back. -/
def Carries (f : Fleet) (c : ChannelId) (k : Connection) (x : TaskId) : Prop :=
  x ∈ (f.supervisor.mailboxes c).asks ∨ k.signals x ≠ []

/-- No open connection of the node carries the task, and none of these reports is the node's about it. -/
def Clear (f : Fleet) (reports : List NodeReport) (n : NodeId) (x : TaskId) : Prop :=
  (∀ c k, f.connections[c]? = some k → k.id = n → k.isOpen = true → ¬ f.Carries c k x) ∧
    ∀ r ∈ reports, r.signal? n x = none

/-- No worker takes over the id of a connection that holds unfinished work, and no node is handed a task
that an open connection of it still carries or that a waiting report of it is about. -/
structure Careful (f : Fleet) (a : FleetAction) : Prop where
  spares : ∀ now id capabilities interval workload, a = .attach now id capabilities interval workload →
    f.supervisor.evictsHolder (.attachRemote id capabilities) = false
  clear : ∀ n c t, Pushed f.supervisor (f.step a).supervisor n c t → f.Clear (f.step a).reports n t.id

/-! ## The attempt under way -/

/-- What the waiting reports of a node say about the task. -/
def told (f : Fleet) (n : NodeId) (x : TaskId) : List Signal :=
  f.reports.filterMap (NodeReport.signal? n x)

/-- The attempt at a task is complete from the reports to what is left of it, and what is left is on the
connection of its node while that is open. No other open connection of the node carries the task. -/
structure Tracked (f : Fleet) (n : NodeId) (t : Task) : Prop where
  others : ∀ c k, f.connections[c]? = some k → k.id = n → k.isOpen = true →
    f.supervisor.channel n ≠ some c → ¬ f.Carries c k t.id
  attempt : ∃ left, Live t.state (f.told n t.id ++ left) ∧
    ∀ c k, f.supervisor.channel n = some c → f.connections[c]? = some k → k.isOpen = true →
      k.Conveys (f.supervisor.mailboxes c).asks t.id left

/-- What holds between steps, the attempts aside. -/
structure Grounded (f : Fleet) : Prop where
  wired : f.Wired
  settled : Settled f.supervisor
  channelled : Channelled f.supervisor
  unused : ∀ c, f.supervisor.nextChannel ≤ c → (f.supervisor.mailboxes c).asks = []
  owner : ∀ (c : ChannelId) k n, f.connections[c]? = some k → f.supervisor.channel n = some c → n = k.id
  ready : ∀ (c : ChannelId) k, f.connections[c]? = some k → k.Ready

structure Sound (f : Fleet) : Prop extends Grounded f where
  tracked : ∀ (x : TaskId) t n, f.supervisor.tasks[x]? = some t → t.state.isHeld = true →
    t.assignedTo = some n → f.Tracked n t

/-! ## A tracked task is not stranded -/

theorem not_carries_iff : ¬ f.Carries c k x ↔
    x ∉ (f.supervisor.mailboxes c).asks ∧ k.signals x = [] := by
  unfold Carries
  rw [not_or, not_not]

/-- An open connection without signals of the task and reports without any: no attempt is under way. -/
theorem Silent.signals (h : f.Silent c k x) (hidle : k.agent.running = none) :
    k.signals x = [] ∧ x ∉ (f.supervisor.mailboxes c).asks ∧ f.told n x = [] := by
  refine ⟨?_, ?_, ?_⟩
  · have hfrom : k.fromWorker.filterMap (NodeMessage.signal? x) = [] := by
      refine List.filterMap_eq_nil_iff.mpr fun m hm => ?_
      cases m with
      | taskStarted task => exact if_neg (h.fromWorker task hm)
      | taskFinished task outcome => exact if_neg (h.finished task outcome hm)
      | _ => rfl
    have hto : x ∉ k.toWorker.filterMap SupervisorMessage.ask? := by
      intro hx
      obtain ⟨m, hm, hask⟩ := List.mem_filterMap.mp hx
      cases m with
      | assign task spec => exact h.toWorker task spec hm (Option.some.inj hask)
      | _ => cases hask
    rw [Connection.signals, hfrom, asked_eq_nil.mpr hto]
    simp [Agent.signals, Agent.open?, hidle]
  · intro hx
    obtain ⟨msg, hmsg, hask⟩ := List.mem_filterMap.mp hx
    cases msg with
    | assign t => exact h.inbox t hmsg (Option.some.inj hask)
    | _ => cases hask
  · refine List.filterMap_eq_nil_iff.mpr fun r hr => ?_
    cases r with
    | heartbeat hb => rfl
    | taskStarted m t => exact if_neg fun hx => h.startReports m t hr hx.2
    | taskFinished m t outcome => exact if_neg fun hx => h.finishReports m t outcome hr hx.2

theorem Sound.unstranded (h : f.Sound) : f.Unstranded where
  none := by
    intro n e c k x t hs
    obtain rfl := h.settled.wf.taskKey x t hs.task
    have hc : f.supervisor.channel n = some c := by rw [channel, hs.entry]; exact hs.handle
    obtain ⟨left, hlive, hleft⟩ := (h.tracked t.id t n hs.task hs.held hs.assignedTo).attempt
    obtain ⟨hsig, hask, htold⟩ := hs.silent.signals (n := n) hs.idle
    have hnone : left = [] := by
      rw [(hleft c k hc hs.connection hs.isOpen).left, hsig, asked_eq_nil.mpr hask]
      rfl
    rw [htold, hnone] at hlive
    exact hlive.ne_nil rfl
  finishes := by
    intro n u outcome rest hreports t ht hheld hto now t' ht'
    have hid := h.settled.wf.taskKey u.id t ht
    obtain ⟨left, hlive, -⟩ := (h.tracked u.id t n ht hheld hto).attempt
    have hhead : f.told n t.id = .finish outcome.isFailed :: rest.filterMap (NodeReport.signal? n t.id) := by
      rw [told, hreports, List.filterMap_cons_some]
      exact if_pos ⟨rfl, hid.symm⟩
    rw [hhead] at hlive
    refine finishTask_released h.settled.wf ht hto hheld (hlive.finish.2.imp_right ?_) ht'
    rintro hfailed output rfl
    cases hfailed

/-! ## A step of one connection -/

/-- One open connection moves; the supervisor changes in the inbox of that connection only. -/
structure Local (f f' : Fleet) (c : ChannelId) (k k' : Connection) (report : Option NodeReport) :
    Prop where
  connection : f.connections[c]? = some k
  isOpen : k.isOpen = true
  connections : f'.connections = f.connections.insert c k'
  reports : f'.reports = f.reports ++ report.toList
  channels : ∀ n, f'.supervisor.channel n = f.supervisor.channel n
  inboxes : ∀ d, d ≠ c → (f'.supervisor.mailboxes d).asks = (f.supervisor.mailboxes d).asks
  progress : k.Progress k' report (f.supervisor.mailboxes c).asks (f'.supervisor.mailboxes c).asks

namespace Local

variable {report : Option NodeReport}

theorem told (h : Local f f' c k k' report) (n : NodeId) (x : TaskId) :
    f'.told n x = f.told n x ++ (report.bind (NodeReport.signal? n x)).toList := by
  rw [Fleet.told, h.reports, List.filterMap_append]
  cases report with
  | none => rfl
  | some r => cases hr : r.signal? n x <;> simp [Fleet.told, hr]

/-- The other connections are as before, and so are their inboxes. -/
theorem other (h : Local f f' c k k' report) {d : ChannelId} {k'' : Connection} (hd : d ≠ c)
    (hk : f'.connections[d]? = some k'') : f.connections[d]? = some k'' ∧
      (f'.supervisor.mailboxes d).asks = (f.supervisor.mailboxes d).asks := by
  rw [h.connections, Table.get_insert_ne (Ne.symm hd)] at hk
  exact ⟨hk, h.inboxes d hd⟩

theorem self (h : Local f f' c k k' report) {k'' : Connection} (hk : f'.connections[c]? = some k'') :
    k'' = k' := by
  rw [h.connections, Table.get_insert_self] at hk
  exact (Option.some.inj hk).symm

theorem tracked (h : Local f f' c k k' report) (howner : f.supervisor.channel n = some c → n = k.id)
    (ht : f.Tracked n t) : f'.Tracked n t := by
  obtain ⟨left, hlive, hleft⟩ := ht.attempt
  -- A connection that is not the node's current one says nothing about the task.
  have hquiet (hc : f.supervisor.channel n ≠ some c) :
      report.bind (NodeReport.signal? n t.id) = none := by
    by_cases hn : n = k.id
    · obtain ⟨hask, hsig⟩ := not_carries_iff.mp (ht.others c k h.connection hn.symm h.isOpen hc)
      rw [hn]
      exact (h.progress.silent t.id hask hsig).2.2
    · exact h.progress.node n t.id hn
  refine ⟨fun d k'' hk'' hid hopen hchan => ?_, ?_⟩
  · rw [h.channels] at hchan
    by_cases hd : d = c
    · subst d
      obtain rfl := h.self hk''
      obtain ⟨hask, hsig⟩ := not_carries_iff.mp
        (ht.others c k h.connection (h.progress.id.symm.trans hid) h.isOpen hchan)
      obtain ⟨hask', hsig', -⟩ := h.progress.silent t.id hask hsig
      exact not_carries_iff.mpr ⟨hask', hsig'⟩
    · obtain ⟨hold, hsame⟩ := h.other hd hk''
      have hnot := ht.others d k'' hold hid hopen hchan
      rwa [Carries, hsame]
  · by_cases hc : f.supervisor.channel n = some c
    · obtain rfl := howner hc
      obtain ⟨left', hlive', hconv⟩ := h.progress.conveys t.id t.state _ left
        (hleft c k hc h.connection h.isOpen) hlive
      refine ⟨left', by rw [h.told]; exact hlive', fun d k'' hd hk'' hopen => ?_⟩
      rw [h.channels] at hd
      obtain rfl : c = d := Option.some.inj (hc.symm.trans hd)
      obtain rfl := h.self hk''
      exact hconv hopen
    · refine ⟨left, by rw [h.told, hquiet hc]; simpa using hlive, fun d k'' hd hk'' hopen => ?_⟩
      rw [h.channels] at hd
      have hne : d ≠ c := by
        rintro rfl
        exact hc hd
      obtain ⟨hold, hsame⟩ := h.other hne hk''
      rw [hsame]
      exact hleft d k'' hd hold hopen

end Local

/-! ## A step of the supervisor -/

/-- The supervisor handles an input other than the taking of a message. An open connection was there
before, or has just attached; at most the report that is handled is gone. -/
structure Supervised (f f' : Fleet) (now : Millis) (i : Input) : Prop where
  supervisor : f'.supervisor = f.supervisor.handle now i
  input : ∀ c, i ≠ .receive c
  spares : f.supervisor.evictsHolder i = false
  connections : ∀ (c : ChannelId) k, f'.connections[c]? = some k → k.isOpen = true →
    f.connections[c]? = some k ∨ c = f.supervisor.nextChannel ∧ (∀ x, k.signals x = []) ∧
      f'.supervisor.channel k.id = some c
  reports : f'.reports = f.reports ∨ ∃ r, i = .report r ∧ f.reports = r :: f'.reports
  clear : ∀ n c t, Pushed f.supervisor f'.supervisor n c t → f.Clear f'.reports n t.id

namespace Supervised

theorem deals (h : Supervised f f' now i) (hg : f.Grounded) : Deals f.supervisor f'.supervisor := by
  rw [h.supervisor]
  exact handle_deals hg.settled hg.channelled h.spares h.input

/-- A connection of the node that is not its current one carries nothing new. -/
theorem others (h : Supervised f f' now i) (hg : f.Grounded) (hg' : f'.Grounded)
    (hk : f'.connections[c]? = some k) (hid : k.id = n) (hopen : k.isOpen = true)
    (hc : f'.supervisor.channel n ≠ some c) :
    f.connections[c]? = some k ∧ (¬ f.Carries c k x → ¬ f'.Carries c k x) := by
  rcases h.connections c k hk hopen with hold | ⟨-, -, hnew⟩
  · refine ⟨hold, fun hnot => ?_⟩
    rcases (h.deals hg).mail c with hsame | ⟨m, u, hp⟩
    · rwa [Carries, hsame]
    · obtain rfl := (hg'.owner c k m hk hp.1).trans hid
      exact absurd hp.1 hc
  · exact absurd (hid ▸ hnew) hc

/-- A task that was handed out is on its way, and nothing else about it is. -/
theorem tracked_given (h : Supervised f f' now i) (hg : f.Grounded) (hg' : f'.Grounded)
    (hp : Pushed f.supervisor f'.supervisor n c t) : f'.Tracked n t := by
  obtain ⟨hclear, hreports⟩ := h.clear n c t hp
  refine ⟨fun d k hk hid hopen hd => ?_, [.ask], ?_, fun d k hd hk hopen => ?_⟩
  · obtain ⟨hold, hnot⟩ := h.others (x := t.id) hg hg' hk hid hopen hd
    exact hnot (hclear d k hold hid hopen)
  · have htold : f'.told n t.id = [] := List.filterMap_eq_nil_iff.mpr hreports
    rw [htold]
    exact .asked _
  · obtain rfl : c = d := Option.some.inj (hp.1.symm.trans hd)
    obtain ⟨hask, hsig⟩ : t.id ∉ (f.supervisor.mailboxes c).asks ∧ k.signals t.id = [] := by
      rcases h.connections c k hk hopen with hold | ⟨hc, hnone, -⟩
      · exact not_carries_iff.mp (hclear c k hold (hg'.owner c k n hk hd).symm hopen)
      · rw [hg.unused c (Nat.le_of_eq hc.symm)]
        exact ⟨by simp, hnone t.id⟩
    refine ⟨?_, fun hne => absurd hsig hne, fun _ => ?_⟩
    · rw [hp.asks, hsig, asked_append, asked_eq_nil.mpr hask]
      simp
    · rw [hp.asks]
      simp

theorem tracked_kept (h : Supervised f f' now i) (hg : f.Grounded) (hg' : f'.Grounded)
    (ht : f.supervisor.tasks[x]? = some t) (hheld : t.state.isHeld = true) (hto : t.assignedTo = some n)
    (htracked : f.Tracked n t) {t' : Task} (hid : t'.id = t.id)
    (hinbox : ∀ c, f'.supervisor.channel n = some c →
      (f'.supervisor.mailboxes c).asks = (f.supervisor.mailboxes c).asks)
    (hlive : ∀ left, Live t.state (f.told n t.id ++ left) → Live t'.state (f'.told n t.id ++ left))
    (hconn : ∃ c, f'.supervisor.channel n = some c) : f'.Tracked n t' := by
  have hbusy : ¬ f.supervisor.Idle n := fun hidle => hidle x t ht hheld hto
  have hchan (c : ChannelId) (hc : f'.supervisor.channel n = some c) :
      f.supervisor.channel n = some c := by
    rw [h.supervisor] at hc
    exact handle_channel hg.settled h.spares hbusy hc
  obtain ⟨c₀, hc₀⟩ := hconn
  obtain ⟨left, hleft, hconv⟩ := htracked.attempt
  refine ⟨fun d k hk hkid hopen hd => ?_, left, ?_, fun d k hd hk hopen => ?_⟩
  · obtain ⟨hold, hnot⟩ := h.others (x := t'.id) hg hg' hk hkid hopen hd
    refine hnot ?_
    rw [hid]
    refine htracked.others d k hold hkid hopen fun hd' => hd ?_
    rw [hc₀, ← hchan c₀ hc₀, hd']
  · rw [hid]
    exact hlive left hleft
  · rw [hid, hinbox d hd]
    refine hconv d k (hchan d hd) ?_ hopen
    rcases h.connections d k hk hopen with hold | ⟨hnew, -⟩
    · exact hold
    · exact absurd (hg.channelled.below n d (hchan d hd)) (hnew ▸ Nat.lt_irrefl _)

theorem tracked (h : Supervised f f' now i) (hf : f.Sound) (hg' : f'.Grounded)
    (ht : f'.supervisor.tasks[x]? = some t) (hheld : t.state.isHeld = true)
    (hto : t.assignedTo = some n) : f'.Tracked n t := by
  have hg := hf.toGrounded
  obtain rfl := hg'.settled.wf.taskKey x t ht
  have hgiven (hgive : ∃ m c, Pushed f.supervisor f'.supervisor m c t) : f'.Tracked n t := by
    obtain ⟨m, c, hp⟩ := hgive
    obtain rfl : m = n := Option.some.inj (hp.2.1.symm.trans hto)
    exact h.tracked_given hg hg' hp
  rcases (h.deals hg).held t.id t ht hheld with ⟨⟨t₀, ht₀, hheld₀, hto₀, hst⟩, hinbox⟩ | ⟨-, hgive⟩
  · have hid : t₀.id = t.id := hg.settled.wf.taskKey t.id t₀ ht₀
    have htracked := hf.tracked t.id t₀ n ht₀ hheld₀ (hto₀ ▸ hto)
    have hkept := h.tracked_kept hg hg' ht₀ hheld₀ (hto₀ ▸ hto) htracked hid.symm
      (fun c hc => hinbox n c hto hc)
    have hconn : ∃ c, f'.supervisor.channel n = some c := by
      obtain ⟨-, m, hm, hd⟩ := hg'.settled.held t.id t ht hheld
      obtain rfl : m = n := Option.some.inj (hm.symm.trans hto)
      exact (hd.resolve_left False.elim).connected
    have hstate {l : List Signal} (hl : Live t₀.state l) : Live t.state l := by
      rcases hst with hsame | hrun
      · rwa [hsame]
      · rw [hrun]; exact hl.running
    rcases h.reports with hsame | ⟨r, rfl, hhead⟩
    · refine hkept (fun left hl => ?_) hconn
      rw [told, hsame]
      exact hstate hl
    · have htold : f.told n t₀.id = (r.signal? n t₀.id).toList ++ f'.told n t₀.id := by
        rw [told, hhead]
        cases hr : r.signal? n t₀.id <;> simp [told, hr]
      cases r with
      | heartbeat hb => exact hkept (fun left hl => hstate (by rw [htold] at hl; exact hl)) hconn
      | taskStarted m u =>
          by_cases hx : m = n ∧ u.id = t₀.id
          · obtain ⟨rfl, hu⟩ := hx
            have hrun : t.state = .running := by
              have hrow := ht
              rw [h.supervisor, ← hid, ← hu] at hrow
              exact started_running hrow hto hheld
            refine hkept (fun left hl => ?_) hconn
            rw [htold, NodeReport.signal?, if_pos ⟨rfl, hu⟩] at hl
            rw [hrun]
            exact hl.start
          · refine hkept (fun left hl => hstate ?_) hconn
            rwa [htold, NodeReport.signal?, if_neg hx] at hl
      | taskFinished m u outcome =>
          by_cases hx : m = n ∧ u.id = t₀.id
          · obtain ⟨rfl, hu⟩ := hx
            obtain ⟨left, hl, -⟩ := htracked.attempt
            rw [htold, NodeReport.signal?, if_pos ⟨rfl, hu⟩] at hl
            have hlegal := hl.finish.2
            have hrow : f.supervisor.tasks[u.id]? = some t₀ := by rw [hu, hid]; exact ht₀
            have hafter := ht
            rw [h.supervisor, ← hid, ← hu] at hafter
            obtain ⟨-, hgive⟩ := finished_given hg.settled hg.channelled (fun t' ht' =>
              finishTask_released hg.settled.wf hrow (hto₀ ▸ hto) hheld₀
                (hlegal.imp_right fun hfailed output hout => by rw [hout] at hfailed; cases hfailed)
                ht') hafter hheld
            rw [← h.supervisor] at hgive
            exact hgiven hgive
          · refine hkept (fun left hl => hstate ?_) hconn
            rwa [htold, NodeReport.signal?, if_neg hx] at hl
  · exact hgiven hgive

end Supervised

/-! ## Every step -/

theorem not_attach_spares (s : Supervisor) (h : ∀ id capabilities, i ≠ .attachRemote id capabilities) :
    s.evictsHolder i = false := by
  cases i with
  | attachRemote id capabilities => exact absurd rfl (h id capabilities)
  | _ => rfl

/-- The supervisor of a careful step never evicts a holder. -/
theorem Careful.input (hc : f.Careful a) (hm : Moved f a f') :
    f'.supervisor = f.supervisor ∨ ∃ now i, f'.supervisor = f.supervisor.handle now i ∧
      f.supervisor.evictsHolder i = false := by
  refine hm.supervisor.imp_right fun ⟨now, i, hs, hattach⟩ => ⟨now, i, hs, ?_⟩
  by_cases hi : ∃ id capabilities, i = .attachRemote id capabilities
  · obtain ⟨interval, workload, id, capabilities, rfl, ha⟩ := hattach hi
    exact hc.spares now id capabilities interval workload ha
  · exact not_attach_spares _ fun id capabilities heq => hi ⟨id, capabilities, heq⟩

theorem receive_asks {m : Mailbox} {msg : NodeInbox} {rest : List NodeInbox}
    (h : m.pending = msg :: rest) : m.asks = msg.ask?.toList ++ m.receive.asks := by
  rw [Mailbox.asks, Mailbox.asks, Mailbox.receive, h]
  cases hm : msg.ask? <;> simp [hm]

theorem receive_asks_nil {m : Mailbox} (h : m.asks = []) : m.receive.asks = [] := by
  cases hp : m.pending with
  | nil => rw [Mailbox.receive, hp]; exact h
  | cons msg rest =>
      rw [receive_asks hp, List.append_eq_nil_iff] at h
      exact h.2

theorem handle_unused {s : Supervisor} (hs : Settled s) (hc : Channelled s)
    (hu : ∀ c, s.nextChannel ≤ c → (s.mailboxes c).asks = []) (hok : s.evictsHolder i = false)
    (hle : (s.handle now i).nextChannel ≤ c) : ((s.handle now i).mailboxes c).asks = [] := by
  have hold := hu c (Nat.le_trans (handle_nextChannel_le s now i) hle)
  by_cases hi : ∃ d, i = .receive d
  · obtain ⟨d, rfl⟩ := hi
    change ((s.deliver d (s.mailboxes d).receive).mailboxes c).asks = []
    by_cases hd : c = d
    · subst c
      rw [deliver_self]
      exact receive_asks_nil hold
    · rw [deliver_other hd]
      exact hold
  · have hdeals : Deals s (s.handle now i) := handle_deals hs hc hok fun d hd => hi ⟨d, hd⟩
    have hch : Channelled (s.handle now i) := handle_channelled hc hs hok
    rcases hdeals.mail c with hsame | ⟨n, t, hp⟩
    · rw [hsame]
      exact hold
    · exact absurd hle (Nat.not_le.mpr (hch.below n c hp.1))

theorem Moved.owner (hg : f.Grounded) (hc : f.Careful a) (hm : Moved f a f')
    (hch : Channelled f'.supervisor) (hk : f'.connections[c]? = some k')
    (hn : f'.supervisor.channel n = some c) : n = k'.id := by
  have hcase : f.supervisor.channel n = some c ∨ c = f.supervisor.nextChannel := by
    rcases hc.input hm with hs | ⟨now, i, hs, hok⟩
    · exact .inl (hs ▸ hn)
    · rw [hs] at hn
      exact handle_channel_new hg.settled hok hn
  rcases hm.connection hk with ⟨k₀, hk₀, hage⟩ | ⟨now, id, caps, interval, wl, b, agent, rfl, hok, rfl, rfl⟩
  · rcases hcase with hold | rfl
    · rw [hage.id]
      exact hg.owner c k₀ n hk₀ hold
    · exact absurd (hg.wired.channel _ k₀ hk₀).2 (Nat.lt_irrefl _)
  · obtain ⟨-, -, hb, -, e, he, hatt⟩ := attachRemote_ok hok
    have hsup : f'.supervisor = f.supervisor.handle now (.attachRemote id caps) := by
      cases hm with
      | idle => exact absurd (hg.wired.channel _ _ hk).2 (by rw [hb]; exact Nat.lt_irrefl _)
      | attached => rfl
    refine hch.own n b.id b.channel hn ?_
    rw [hsup, channel, he, hb]
    exact hatt.handle

theorem Moved.ready (hr : ∀ (c : ChannelId) k, f.connections[c]? = some k → k.Ready)
    (hm : Moved f a f') (hk : f'.connections[c]? = some k') : k'.Ready := by
  have hput {g : Fleet} {d : ChannelId} {k : Connection} {report : Option NodeReport}
      (hg : ∀ (c : ChannelId) k, g.connections[c]? = some k → k.Ready) (h : k.Ready)
      (hk : (g.put d k report).connections[c]? = some k') : k'.Ready := by
    change (g.connections.insert d k)[c]? = some k' at hk
    rw [Table.get_insert] at hk
    split at hk
    · cases hk; exact h
    · exact hg c k' hk
  cases hm with
  | idle | command | inProcess | reported | dropped => exact hr c k' hk
  | @attached now id capabilities interval workload agent b hagent hok =>
      change (f.put b.channel (.new b agent) none).connections[c]? = some k' at hk
      refine hput hr ?_ hk
      rw [hagent]
      exact ⟨fun _ => ⟨rfl, rfl, rfl⟩, fun hp => by cases hp⟩
  | welcomed hk₀ hp =>
      exact hput hr ⟨fun hp => (by cases hp), fun _ => .inr ⟨_, _, _, _, rfl⟩⟩ hk
  | unwelcomed hk₀ hp => exact hput hr ⟨fun hp => (by cases hp), fun hp => (by cases hp)⟩ hk
  | @relayed d k input refusal msg rest hk₀ hp hmsg =>
      refine hput (g := f.supervise 0 (.receive d)) hr ?_ hk
      have hready := hr d k hk₀
      refine ⟨fun hg => ?_, fun _ => ?_⟩
      · rw [relay_phase, hp] at hg
        cases hg
      · rcases Connection.relay_cases k msg input refusal with ⟨u, frame, -, -, heq⟩ | ⟨u, why, -, heq⟩ |
          ⟨-, frames, -, heq⟩
        · rw [heq]
          refine (hready.serving hp).imp_right fun ⟨p, n, i, rest', hto⟩ => ⟨p, n, i, rest' ++ [frame], ?_⟩
          simp [hto]
        · rw [heq]
          exact hready.serving hp
        · rw [heq]
          refine (hready.serving hp).imp_right fun ⟨p, n, i, rest', hto⟩ => ⟨p, n, i, rest' ++ frames, ?_⟩
          simp [hto]
  | workerHandled now hk₀ hp => exact hput hr (Connection.workerHandles_ready (hr _ _ hk₀) hp) hk
  | workerPolled now hk₀ hp => exact hput hr (Connection.workerPolls_ready (hr _ _ hk₀) hp) hk
  | @taken d k message rest hk₀ hp hmsg =>
      refine hput hr (Connection.take_ready (k := { k with fromWorker := rest })
        ⟨fun hg => ?_, (hr d k hk₀).serving⟩ hp) hk
      exact absurd (hp.symm.trans hg) (by simp)
  | hungUp hk₀ hp => exact hput hr ⟨fun hp => (by cases hp), fun hp => (by cases hp)⟩ hk
  | @detached d k now hk₀ hp =>
      exact hput (g := f.supervise now _) hr ⟨fun hp => (by cases hp), fun hp => (by cases hp)⟩ hk

theorem Moved.grounded (hg : f.Grounded) (hc : f.Careful a) (hm : Moved f a f') : f'.Grounded := by
  have hsup : Settled f'.supervisor ∧ Channelled f'.supervisor ∧
      ∀ c, f'.supervisor.nextChannel ≤ c → (f'.supervisor.mailboxes c).asks = [] := by
    rcases hc.input hm with hs | ⟨now, i, hs, hok⟩
    · rw [hs]
      exact ⟨hg.settled, hg.channelled, hg.unused⟩
    · rw [hs]
      exact ⟨handle_settled hg.settled hok, handle_channelled hg.channelled hg.settled hok,
        fun c hle => handle_unused hg.settled hg.channelled hg.unused hok hle⟩
  exact ⟨hm.wired hg.wired, hsup.1, hsup.2.1, hsup.2.2, fun c k n hk hn => hm.owner hg hc hsup.2.1 hk hn,
    fun c k hk => hm.ready hg.ready hk⟩

theorem Local.all_tracked {report : Option NodeReport} (h : Local f f' c k k' report) (hf : f.Sound)
    (htasks : f'.supervisor.tasks = f.supervisor.tasks) (ht : f'.supervisor.tasks[x]? = some t)
    (hheld : t.state.isHeld = true) (hto : t.assignedTo = some n) : f'.Tracked n t :=
  h.tracked (hf.owner c k n h.connection) (hf.tracked x t n (htasks ▸ ht) hheld hto)

theorem local_put {report : Option NodeReport} (hk : f.connections[c]? = some k) (hopen : k.isOpen = true)
    (h : k.Progress k' report (f.supervisor.mailboxes c).asks (f.supervisor.mailboxes c).asks) :
    Local f (f.put c k' report) c k k' report :=
  ⟨hk, hopen, rfl, rfl, fun _ => rfl, fun _ _ => rfl, h⟩

/-- An in-process node takes a message: no connection's inbox changes. -/
theorem Tracked.elsewhere (ht : f.Tracked n t) (hc : f.connections.contains c = false) :
    (f.supervise now (.receive c)).Tracked n t := by
  have hsame {d : ChannelId} {k : Connection} (hk : f.connections[d]? = some k) :
      ((f.supervise now (.receive c)).supervisor.mailboxes d).asks =
        (f.supervisor.mailboxes d).asks := by
    have hd : d ≠ c := by
      rintro rfl
      rw [Table.contains_eq_isSome, hk] at hc
      cases hc
    exact congrArg Mailbox.asks (deliver_other hd _)
  obtain ⟨left, hlive, hleft⟩ := ht.attempt
  refine ⟨fun d k hk hid hopen hd => ?_, left, hlive, fun d k hd hk hopen => ?_⟩
  · rw [Carries, hsame hk]
    exact ht.others d k hk hid hopen hd
  · rw [hsame hk]
    exact hleft d k hd hk hopen

theorem isOpen_of_phase (h : k.phase = .greeting ∨ k.phase = .serving) : k.isOpen = true := by
  rcases h with h | h <;> simp [Connection.isOpen, h]

/-- The connection of an accepted worker: nothing was said on it, and its node sends into it. -/
theorem attached_connection {id : Option NodeId} {capabilities : NodeCapabilities} {b : RemoteAttachment}
    (interval : Nat) (workload : Option Workload)
    (hok : (f.supervisor.attachRemote now id capabilities).1 = .ok b) :
    b.channel = f.supervisor.nextChannel ∧
    (∀ x, (Connection.new b { Agent.new id capabilities interval with workload := workload }).signals x = []) ∧
    (f.supervisor.handle now (.attachRemote id capabilities)).channel b.id = some b.channel := by
  obtain ⟨-, -, hb, -, e, he, hatt⟩ := attachRemote_ok hok
  refine ⟨hb, fun _ => rfl, ?_⟩
  rw [channel, he, hb]
  exact hatt.handle

theorem Moved.tracked (hf : f.Sound) (hg' : f'.Grounded) (hm : Moved f a f')
    (hspares : ∀ now id capabilities interval workload, a = .attach now id capabilities interval workload →
      f.supervisor.evictsHolder (.attachRemote id capabilities) = false)
    (hclear : ∀ n c t, Pushed f.supervisor f'.supervisor n c t → f.Clear f'.reports n t.id)
    (ht : f'.supervisor.tasks[x]? = some t) (hheld : t.state.isHeld = true)
    (hto : t.assignedTo = some n) : f'.Tracked n t := by
  have hg := hf.toGrounded
  cases hm with
  | idle => exact hf.tracked x t n ht hheld hto
  | @command now i hi =>
      have hs : Supervised f (f.supervise now i) now i := by
        refine ⟨rfl, ?_, not_attach_spares _ ?_, fun _ _ hk _ => .inl hk, .inl rfl, hclear⟩
        · rintro c rfl
          cases hi
        · rintro id capabilities rfl
          cases hi
      exact hs.tracked hf hg' ht hheld hto
  | @inProcess now i hi =>
      by_cases hr : ∃ c, i = .receive c
      · obtain ⟨c, rfl⟩ := hr
        exact (hf.tracked x t n ht hheld hto).elsewhere (by simpa [isInProcess] using hi)
      · have hs : Supervised f (f.supervise now i) now i := by
          refine ⟨rfl, fun c hc => hr ⟨c, hc⟩, not_attach_spares _ ?_, fun _ _ hk _ => .inl hk, .inl rfl,
            hclear⟩
          rintro id capabilities rfl
          cases hi
        exact hs.tracked hf hg' ht hheld hto
  | @attached now id capabilities interval workload agent b hagent hok =>
      obtain ⟨hb, hnone, hchan⟩ := attached_connection interval workload hok
      refine Supervised.tracked (show Supervised f _ now (.attachRemote id capabilities) from ?_) hf hg' ht
        hheld hto
      refine ⟨rfl, by simp, hspares now id capabilities interval workload rfl, fun c k hk _ => ?_, .inl rfl,
        hclear⟩
      change (f.connections.insert b.channel _)[c]? = some k at hk
      rw [Table.get_insert] at hk
      split at hk
      · subst c
        cases hk
        rw [hagent]
        exact .inr ⟨hb, hnone, hchan⟩
      · exact .inl hk
  | @welcomed c k hk hp =>
      exact (local_put hk (isOpen_of_phase (.inl hp)) (Connection.welcome_progress (hf.ready c k hk) hp
        _ _ _ _)).all_tracked hf rfl ht hheld hto
  | @unwelcomed c k hk hp =>
      have hl : Local f (f.put c { k with phase := .gone } none) c k { k with phase := .gone } none :=
        local_put hk (isOpen_of_phase (.inl hp)) (.ended rfl (fun _ => rfl) rfl)
      exact hl.all_tracked hf rfl ht hheld hto
  | @relayed c k input refusal msg rest hk hp hmsg =>
      have hself : ((f.supervise 0 (.receive c)).supervisor.mailboxes c) =
          (f.supervisor.mailboxes c).receive := deliver_self _ c _
      have hl : Local f ((f.supervise 0 (.receive c)).put c (k.relay msg input refusal).1
          (k.relay msg input refusal).2) c k (k.relay msg input refusal).1
          (k.relay msg input refusal).2 := by
        refine ⟨hk, isOpen_of_phase (.inr hp), rfl, rfl, fun _ => rfl,
          fun d hd => congrArg Mailbox.asks (deliver_other hd _), ?_⟩
        rw [receive_asks hmsg]
        change Connection.Progress _ _ _ _ (((f.supervise 0 (.receive c)).supervisor.mailboxes c)).asks
        rw [hself]
        exact Connection.relay_progress msg input refusal _
      exact hl.all_tracked hf rfl ht hheld hto
  | @workerHandled c k now hk hp =>
      exact (local_put hk (isOpen_of_phase (.inr hp)) (Connection.workerHandles_progress (hf.ready c k hk) hp
        _)).all_tracked hf rfl ht hheld hto
  | @workerPolled c k now hk hp =>
      exact (local_put hk (isOpen_of_phase (.inr hp)) (Connection.workerPolls_progress _)).all_tracked hf rfl
        ht hheld hto
  | @taken c k message rest hk hp hmsg =>
      exact (local_put hk (isOpen_of_phase (.inr hp)) (Connection.take_progress hmsg _)).all_tracked hf rfl
        ht hheld hto
  | @reported now r rest hr =>
      have hs : Supervised f ({ f with reports := rest }.supervise now (.report r)) now (.report r) :=
        ⟨rfl, by simp, rfl, fun _ _ hk _ => .inl hk, .inr ⟨r, rfl, hr⟩, hclear⟩
      exact hs.tracked hf hg' ht hheld hto
  | @hungUp c k hk hp =>
      have hl : Local f (f.put c { k with phase := .leaving } none) c k { k with phase := .leaving } none :=
        local_put hk (isOpen_of_phase (.inr hp)) (.ended rfl (fun _ => rfl) rfl)
      exact hl.all_tracked hf rfl ht hheld hto
  | @dropped c k hk hp =>
      have hs : Supervised f (f.supervise 0 (.close c)) 0 (.close c) :=
        ⟨rfl, by simp, rfl, fun _ _ hk _ => .inl hk, .inl rfl, hclear⟩
      exact hs.tracked hf hg' ht hheld hto
  | @detached c k now hk hp =>
      refine Supervised.tracked
        (show Supervised f _ now (.detachRemote k.id k.attachment.generation) from ?_) hf hg' ht hheld hto
      refine ⟨rfl, by simp, rfl, fun d k' hk' hopen => ?_, .inl (by simp [put, supervise]), hclear⟩
      change (f.connections.insert c _)[d]? = some k' at hk'
      rw [Table.get_insert] at hk'
      split at hk'
      · cases hk'
        cases hopen
      · exact .inl hk'

theorem step_sound (h : f.Sound) (hc : f.Careful a) : (f.step a).Sound := by
  have hm := moved f a
  have hg' := hm.grounded h.toGrounded hc
  exact ⟨hg', fun x t n ht hheld hto => hm.tracked h hg' hc.spares hc.clear ht hheld hto⟩

/-! ## Runs -/

section Boot

variable (config : LocalClusterConfig) (scheduler : Scheduler) (elector : Elector) {store : Store}

theorem boot_sound (hstore : store.Stored) (start : Millis) :
    (boot config scheduler elector store start).Sound := by
  have hsettled : Settled (bootstrap config scheduler elector store start) :=
    bootstrap_settled config scheduler elector hstore
  obtain ⟨hchannelled, hmail⟩ := bootstrap_channelled config scheduler elector store start
  refine ⟨⟨boot_wired config scheduler elector store start, hsettled, hchannelled, fun c _ => ?_,
    by simp [boot], by simp [boot]⟩, fun x t n ht hheld _ => absurd hheld ?_⟩
  · change ((bootstrap config scheduler elector store start).mailboxes c).asks = []
    rw [hmail]
    rfl
  · have hrow : (loadedState config scheduler elector store start).tasks[x]? = some t := by
      rw [← (Quiet.refreshLeadership _ start).tasks]
      exact ht
    exact loadedState_free config scheduler elector hstore hrow

/-- From any store a process may find, in every state of every run in which no worker takes over the id
of a connection that holds unfinished work and no node is handed a task that it still carries, no task is
stranded and every result that reaches the supervisor from the holder of its task counts. -/
theorem nothing_stranded (hstore : store.Reachable) (start : Millis) (actions : List FleetAction)
    (hcareful : Run.AllSteps step Careful (boot config scheduler elector store start) actions) :
    ∀ f ∈ run config scheduler elector store start actions, f.Unstranded := by
  intro f hf
  exact (Run.invariant (I := Sound) (fun f a h hc => step_sound h hc)
    (boot_sound config scheduler elector hstore.stored start) hcareful f hf).unstranded

end Boot

/-! ## The condition and its failure -/

/-- A quiet fleet is careful about whatever it hands out: no connection carries anything, and no report
waits. -/
theorem careful_of_quiet
    (hspares : ∀ now id capabilities interval workload,
      a = .attach now id capabilities interval workload →
      f.supervisor.evictsHolder (.attachRemote id capabilities) = false)
    (hquiet : f.connections.toList.all (fun row => row.2.fromWorker.isEmpty &&
      row.2.agent.running.isNone && (row.2.toWorker.filterMap SupervisorMessage.ask?).isEmpty &&
      (f.supervisor.mailboxes row.1).asks.isEmpty) = true)
    (hreports : (f.step a).reports = []) : f.Careful a := by
  refine ⟨hspares, fun n c t _ => ⟨fun d k hk _ _ => ?_, by simp [hreports]⟩⟩
  have hrow := List.all_eq_true.mp hquiet (d, k) (Std.TreeMap.mem_toList_iff_getElem?_eq_some.mpr hk)
  simp only [Bool.and_eq_true, List.isEmpty_iff, Option.isNone_iff_eq_none] at hrow
  obtain ⟨⟨⟨hfrom, hidle⟩, hto⟩, hasks⟩ := hrow
  refine not_carries_iff.mpr ⟨by simp [hasks], ?_⟩
  rw [Connection.signals, hfrom, hto]
  simp [Agent.signals, Agent.open?, hidle]

/-- The declared worker dials in and is given a task. -/
def firstTaskActions : List FleetAction :=
  [.attach 0 (some 5) ⟨4, 8⟩ 1000 none, .welcome 0 true, .command 1 (.submitJob (.sleep 100 1) none)]

set_option maxRecDepth 20000 in
theorem first_task_is_not_stranded :
    (Run.final step (boot (.oneWorker 5 ⟨4, 8⟩) leastLoaded lowestHealthyId .empty 0)
      firstTaskActions).Unstranded ∧
    (Run.final step (boot (.oneWorker 5 ⟨4, 8⟩) leastLoaded lowestHealthyId .empty 0)
      firstTaskActions).supervisor.tasks[1]?.any (fun t => t.state.isHeld) = true := by
  refine ⟨nothing_stranded _ _ _ .empty 0 firstTaskActions ⟨?_, ?_, ?_, trivial⟩ _
    (Run.final_mem_visited _ _), by decide⟩
  · refine careful_of_quiet ?_ (by decide) (by decide)
    rintro now id capabilities interval workload ⟨⟩
    decide
  · exact careful_of_quiet (by simp) (by decide) (by decide)
  · exact careful_of_quiet (by simp) (by decide) (by decide)

/-- A worker runs a task, falls silent until its node is offline and the task is queued again, and
is then heard of: the same task goes to the same worker, which says nothing about it until it is done. -/
def handedBackActions : List FleetAction :=
  [.attach 0 (some 5) ⟨4, 8⟩ 1000 none, .welcome 0 true, .workerHandles 0 0, .take 0, .report 0,
    .command 1 (.submitJob (.sleep 100000 1) none), .relay 0 none none, .workerHandles 0 2, .take 0,
    .report 3, .command 7000 .tick, .workerPolls 0 7050, .take 0, .report 7100, .command 7200 .tick,
    .relay 0 none none, .workerHandles 0 7300, .workerPolls 0 200000, .take 0, .take 0,
    .report 200001, .report 200002]

/-- The fleet the worker's result has reached. -/
def handedBack : Fleet :=
  Run.final step (boot (.oneWorker 5 ⟨4, 8⟩) leastLoaded lowestHealthyId .empty 0) handedBackActions

set_option maxRecDepth 20000 in
theorem handed_back_is_stranded :
    ¬ ∀ f ∈ run (.oneWorker 5 ⟨4, 8⟩) leastLoaded lowestHealthyId .empty 0 handedBackActions,
      f.Unstranded := by
  intro h
  have hlast : handedBack.Unstranded := h _ (Run.final_mem_visited _ handedBackActions)
  have htask : ∃ t ∈ handedBack.supervisor.tasks[1]?, t.state = .assigned ∧ t.assignedTo = some 5 := by
    decide
  have hentry : ∃ e ∈ handedBack.supervisor.nodes[5]?, e.node.status = .healthy ∧
      e.handle = some 0 := by decide
  have hconnection : ∃ k ∈ handedBack.connections[0]?, k.isOpen = true ∧ k.agent.running.isNone = true ∧
      k.toWorker.isEmpty = true ∧ k.fromWorker.isEmpty = true := by decide
  have hinbox : (handedBack.supervisor.mailboxes 0).pending.isEmpty = true := by decide
  have hreports : handedBack.reports.isEmpty = true := by decide
  obtain ⟨t, ht, hstate, hto⟩ := htask
  obtain ⟨e, he, hhealthy, hhandle⟩ := hentry
  obtain ⟨k, hk, hopen, hidle, htoWorker, hfromWorker⟩ := hconnection
  simp only [List.isEmpty_iff, Option.isNone_iff_eq_none] at *
  exact hlast.none 5 e 0 k 1 t
    { task := ht, held := by rw [hstate]; rfl, assignedTo := hto, entry := he, healthy := hhealthy
      handle := hhandle, connection := hk, isOpen := hopen, idle := hidle
      silent := by constructor <;> simp [hinbox, hreports, htoWorker, hfromWorker] }

end Fleet

end Gavel.Cluster
