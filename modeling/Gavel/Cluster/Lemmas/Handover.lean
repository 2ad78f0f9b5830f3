import Gavel.Cluster.Lemmas.Channels

/-!
# Who is given a task

An input is handled in two stages. Up to dispatch tasks are only taken away from nodes and nothing is
sent; dispatch gives queued tasks to idle nodes, one assignment each. What an input does to the tasks
nodes hold and to the assignments in their inboxes follows from the two.
-/

namespace Gavel.Cluster.Supervisor

variable {s s' s'' d : Supervisor} {now : Millis} {n : NodeId} {t : Task} {i : Input}

/-! ## Up to dispatch -/

/-- Tasks are taken away from nodes, never given; nothing is sent. -/
structure Sheds (s s' : Supervisor) : Prop where
  held : ∀ (id : TaskId) t, s'.tasks[id]? = some t → t.state.isHeld = true → s.tasks[id]? = some t
  mailboxes : s'.mailboxes = s.mailboxes

namespace Sheds

theorem of_eq (ht : s'.tasks = s.tasks) (hm : s'.mailboxes = s.mailboxes) : Sheds s s' :=
  ⟨fun _ _ h _ => ht ▸ h, hm⟩

theorem refl (s : Supervisor) : Sheds s s := .of_eq rfl rfl

theorem trans (h : Sheds s s') (h' : Sheds s' s'') : Sheds s s'' :=
  ⟨fun id t ht hheld => h.held id t (h'.held id t ht hheld) hheld, h'.mailboxes.trans h.mailboxes⟩

theorem insert (htasks : s'.tasks = s.tasks.insert t.id t) (hm : s'.mailboxes = s.mailboxes)
    (hfree : t.state.isHeld = false) : Sheds s s' := by
  refine ⟨fun id u hu hheld => ?_, hm⟩
  rw [htasks, Table.get_insert] at hu
  split at hu
  · cases hu
    rw [hfree] at hheld
    cases hheld
  · exact hu

variable (s now) in
theorem retryOrGiveUp (id : TaskId) : Sheds s (s.retryOrGiveUp now id) := by
  unfold Supervisor.retryOrGiveUp
  cases ht : s.tasks[id]? with
  | none => exact refl s
  | some t =>
      dsimp only
      split
      · cases hr : t.requeue now with
        | error e => exact refl s
        | ok u =>
            obtain ⟨-, rfl⟩ := (Task.requeue_ok _).mp hr
            have hf := putBack_frame s now (t.requeuedAt now)
            exact insert (t := t.requeuedAt now) hf.tasks hf.mailboxes rfl
      · cases hr : t.fail now with
        | error e => exact refl s
        | ok u =>
            obtain ⟨-, rfl⟩ := Task.fail_ok.mp hr
            have hf := markFailed_frame s now (t.failedAt now)
            exact insert (t := t.failedAt now) hf.tasks hf.mailboxes rfl

variable (s now) in
theorem finishTask (n : NodeId) (id : TaskId) (outcome : TaskOutcome) :
    Sheds s (s.finishTask now n id outcome) := by
  unfold Supervisor.finishTask
  cases ht : s.tasks[id]? with
  | none => exact refl s
  | some t =>
      dsimp only
      split
      · exact refl s
      · cases outcome with
        | completed output =>
            cases hc : t.complete output now with
            | error e => simp only [hc]; exact refl s
            | ok u =>
                obtain ⟨-, rfl⟩ := Task.complete_ok.mp hc
                simp only [hc]
                have hf := markCompleted_frame s now n (t.completedAt output now)
                exact insert (t := t.completedAt output now) hf.tasks hf.mailboxes rfl
        | failed reason detail =>
            exact (of_eq rfl rfl : Sheds s (s.noteFailure now n t reason detail)).trans
              (retryOrGiveUp _ now id)

variable (s now) in
theorem requeueTask (n : NodeId) (id : TaskId) : Sheds s (Supervisor.requeueTask now n s id) := by
  unfold Supervisor.requeueTask
  cases ht : s.tasks[id]? with
  | none => exact refl s
  | some t =>
      have hnoted : Sheds s ((s.recordFailure now t .nodeOffline "node went offline").emit now
          (.taskFailed id (some n) .nodeOffline)) := of_eq rfl rfl
      exact hnoted.trans (retryOrGiveUp _ now id)

variable (s now) in
theorem requeueTasksOf (n : NodeId) : Sheds s (s.requeueTasksOf now n) := by
  unfold Supervisor.requeueTasksOf
  generalize s.tasksOf n = ids
  induction ids generalizing s with
  | nil => exact refl s
  | cons id ids ih => exact (requeueTask s now n id).trans (ih (Supervisor.requeueTask now n s id))

variable (s now) in
theorem noteTransitions (trs : List (NodeId × NodeStatus)) :
    Sheds s (trs.foldl (noteTransition now) s) := by
  induction trs generalizing s with
  | nil => exact refl s
  | cons tr trs ih =>
      refine Sheds.trans ?_ (ih (noteTransition now s tr))
      unfold noteTransition
      cases tr.2 with
      | suspect => exact of_eq rfl rfl
      | offline =>
          have hleft : Sheds s (s.emit now (.nodeLeft tr.1)) := of_eq rfl rfl
          exact hleft.trans (requeueTasksOf _ now tr.1)
      | healthy => exact of_eq rfl rfl
      | starting => exact refl s

variable (now) in
theorem refresh (h : Sheds s s') : Sheds s (s'.refreshLeadership now) :=
  h.trans (of_eq (Quiet.refreshLeadership s' now).tasks (refreshLeadership_mailboxes s' now))

variable (s now) in
theorem enrol (spec : JobSpec) : Sheds s (s.enrol now spec) := by
  have hf := enrol_frame s now spec
  refine ⟨fun id t ht hheld => ?_, hf.mailboxes⟩
  rw [hf.tasks] at ht
  rcases Table.get_insertAll_some ht with ⟨hm, -⟩ | ⟨hold, -⟩
  · obtain ⟨index, sp, -, rfl⟩ := mem_newTasks hm
    cases hheld
  · exact hold

variable (s now n) in
theorem lose (e : NodeEntry) : Sheds s (s.lose now n e) := by
  have hleft : Sheds s ((s.putNode n (lostEntry e)).emit now (.nodeLeft n)) := of_eq rfl rfl
  exact hleft.trans (requeueTasksOf _ now n)

variable (s now n) in
theorem forget : Sheds s (s.forget now n) := of_eq rfl rfl

variable (s now n) in
theorem rejoin : Sheds s (s.rejoin now n) := by
  unfold Supervisor.rejoin launchNode
  cases s.nodes[n]? <;> exact of_eq rfl rfl

variable (s) in
theorem prune : Sheds s s.pruneMemory := by
  refine ⟨fun id t ht _ => ?_, (prune_frame s).mailboxes⟩
  rw [prune_tasks] at ht
  exact (Option.filter_eq_some_iff.mp ht).1

end Sheds

theorem atDispatch_sheds (h : s.atDispatch now i = some d) : Sheds s d := by
  have hd := handled s now i
  rw [h] at hd
  generalize s.handle now i = s' at hd
  cases hd with
  | admitted spec => exact Sheds.enrol s now spec
  | stopped he hh hd => rw [hd]; exact (Sheds.lose s now _ _).refresh now
  | started he hh hk hd => rw [hd]; exact (Sheds.rejoin s now _).refresh now
  | joined capabilities hfree he hd => rw [hd]; exact Sheds.refresh now (.of_eq rfl rfl)
  | attached capabilities he ha hd => rw [hd]; exact Sheds.refresh now (.of_eq rfl rfl)
  | detached he hh hk hd => rw [hd]; exact (Sheds.lose s now _ _).refresh now
  | forgotten he hh hk hd =>
      rw [hd]
      exact ((Sheds.lose s now _ _).trans (Sheds.forget _ now _)).refresh now
  | taskFinished n t outcome hd => rw [hd]; exact Sheds.finishTask s now n t.id outcome
  | ticked hd =>
      have hswept : Sheds s (s.swept now) := .of_eq rfl rfl
      rw [hd]
      exact (hswept.trans (Sheds.noteTransitions _ now _)).refresh now

/-! ## Dispatch -/

theorem trySend_pending {m m' : Mailbox} {msg : NodeInbox} (h : m.trySend msg = some m') :
    m'.pending = m.pending ++ [msg] := by
  unfold Mailbox.trySend at h
  split at h
  · cases h; rfl
  · cases h

/-- The task was given to a node that held nothing: its assignment is the last in the inbox. -/
def Given (s s' : Supervisor) (n : NodeId) (c : ChannelId) (t : Task) : Prop :=
  s.channel n = some c ∧ s.Idle n ∧ t.assignedTo = some n ∧
    (s'.mailboxes c).pending = (s.mailboxes c).pending ++ [.assign t]

/-- Inboxes get one assignment at most; a task that a node did not hold was given to it. -/
structure Fills (s s' : Supervisor) : Prop where
  mail : ∀ c, s'.mailboxes c = s.mailboxes c ∨ ∃ n t, Given s s' n c t
  held : ∀ (id : TaskId) t, s'.tasks[id]? = some t → t.state.isHeld = true →
    s.tasks[id]? = some t ∨ t.state = .assigned ∧ ∃ n c, Given s s' n c t

theorem Sheds.fills (h : Sheds s s') : Fills s s' :=
  ⟨fun c => .inl (congrFun h.mailboxes c), fun id t ht hheld => .inl (h.held id t ht hheld)⟩

/-- One task is given to an idle node before the rest. -/
theorem Fills.place {t : Task} {rest : List TaskId} {c : ChannelId} {m : Mailbox}
    (hidle : s.Idle n) (hc : s.channel n = some c) (hst : t.state = .queued)
    (ht : s.tasks[t.id]? = some t)
    (hown : ∀ n m c, s.channel n = some c → s.channel m = some c → n = m)
    (hm : (s.mailboxes c).trySend (.assign (t.assignedOn n now)) = some m)
    (h : Fills (s.place now rest (t.assignedOn n now) n c m) s') : Fills s s' := by
  have hf := place_frame s now rest (t.assignedOn n now) n c m
  generalize s.place now rest (t.assignedOn n now) n c m = p at h hf
  have hchan (k : NodeId) : p.channel k = s.channel k := channel_of_nodes hf.nodes k
  have hmail (b : ChannelId) (hb : b ≠ c) : p.mailboxes b = s.mailboxes b := by
    rw [hf.mailboxes]
    exact Function.update_of_ne hb m s.mailboxes
  have hself : p.mailboxes c = m := by rw [hf.mailboxes]; exact Function.update_self c m s.mailboxes
  have hbusy : ¬ p.Idle n := by
    intro hi
    refine hi t.id (t.assignedOn n now) ?_ rfl rfl
    rw [hf.tasks]
    exact Table.get_insert_self
  have hidles (k : NodeId) (hk : p.Idle k) : s.Idle k := by
    intro id u hu hheld
    have hne : t.id ≠ id := by
      rintro rfl
      rw [ht] at hu
      cases hu
      rw [hst] at hheld
      cases hheld
    refine hk id u ?_ hheld
    rw [hf.tasks]
    exact (Table.get_insert_ne hne).trans hu
  -- The node is busy now, so its inbox gets nothing more.
  have hlater (k : NodeId) (b : ChannelId) (u : Task) (hg : Given p s' k b u) : b ≠ c ∧ Given s s' k b u := by
    obtain ⟨hk, hi, hu, hp⟩ := hg
    rw [hchan] at hk
    have hb : b ≠ c := by
      rintro rfl
      exact hbusy (hown k n b hk hc ▸ hi)
    exact ⟨hb, hk, hidles k hi, hu, hmail b hb ▸ hp⟩
  have hgiven : Given s s' n c (t.assignedOn n now) := by
    refine ⟨hc, hidle, rfl, ?_⟩
    rcases h.mail c with hsame | ⟨k, u, hg⟩
    · rw [hsame, hself]
      exact trySend_pending hm
    · exact absurd rfl (hlater k c u hg).1
  refine ⟨fun b => ?_, fun id u hu hheld => ?_⟩
  · by_cases hb : b = c
    · subst b
      exact .inr ⟨n, _, hgiven⟩
    · rcases h.mail b with hsame | ⟨k, u, hg⟩
      · exact .inl (hsame.trans (hmail b hb))
      · exact .inr ⟨k, u, (hlater k b u hg).2⟩
  · rcases h.held id u hu hheld with hold | ⟨hst', k, b, hg⟩
    · rw [hf.tasks] at hold
      change (Std.TreeMap.insert _ _ _)[id]? = some u at hold
      rw [Table.get_insert] at hold
      split at hold
      · cases hold
        exact .inr ⟨rfl, n, c, hgiven⟩
      · exact .inl hold
    · exact .inr ⟨hst', k, b, (hlater k b u hg).2⟩

theorem dispatchLoop_fills (queue : List TaskId) (busy : List NodeId) (h : s.Wf)
    (hb : ∀ n, n ∉ busy → s.Idle n)
    (hown : ∀ n m c, s.channel n = some c → s.channel m = some c → n = m) :
    Fills s (dispatchLoop now queue busy s) := by
  induction queue generalizing s busy with
  | nil => exact (Sheds.refl s).fills
  | cons id rest ih =>
      have hspec := decision_spec now h busy id
      rw [dispatchLoop_cons]
      cases hd : s.decision now busy id with
      | skip =>
          have hrest := ih (s := { s with queue := rest }) busy
            ⟨h.taskKey, h.jobKey, h.nodeKey, h.unassigned⟩ hb hown
          exact ⟨hrest.mail, hrest.held⟩
      | wait => exact (Sheds.refl s).fills
      | bounce t n =>
          have hf := bounce_frame s rest ((t.assignedOn n now).requeuedAt now)
          exact (Sheds.insert (t := (t.assignedOn n now).requeuedAt now) hf.tasks hf.mailboxes rfl).fills
      | place t n c m =>
          rw [hd] at hspec
          obtain ⟨rfl, ht, hst, hnb, ⟨e, he, hh, hsch⟩, hm⟩ := hspec
          have hf := place_frame s now rest (t.assignedOn n now) n c m
          have hc : s.channel n = some c := by rw [channel, he]; exact hh
          refine Fills.place (hb n hnb) hc hst ht hown hm (ih (n :: busy) ?_ ?_ ?_)
          · exact h.insert_task (by intro hq; cases hq) hf.tasks hf.nodes
              (h.map_job Job.start_id (place_jobs s now rest _ n c m))
          · intro k hk
            obtain ⟨hkn, hkb⟩ := not_or.mp (mt List.mem_cons.mpr hk)
            refine idle_insert hf.tasks ?_ (hb k hkb)
            intro heq
            exact hkn (Option.some.inj heq).symm
          · intro k k' b hk hk'
            rw [channel_of_nodes hf.nodes] at hk hk'
            exact hown k k' b hk hk'

theorem dispatch_fills (h : s.Wf)
    (hown : ∀ n m c, s.channel n = some c → s.channel m = some c → n = m) :
    Fills s (s.dispatch now) :=
  dispatchLoop_fills s.queue s.busyNodes h (fun _ => idle_of_not_busy) hown

/-! ## Every input -/

/-- The task stays with its node, whose inbox gets no assignment. -/
def Stays (s s' : Supervisor) (id : TaskId) (t' : Task) : Prop :=
  (∃ t, s.tasks[id]? = some t ∧ t.state.isHeld = true ∧ t'.assignedTo = t.assignedTo ∧
    (t'.state = t.state ∨ t'.state = .running)) ∧
  ∀ n c, t'.assignedTo = some n → s'.channel n = some c →
    (s'.mailboxes c).asks = (s.mailboxes c).asks

/-- The assignment was pushed into the inbox of the node's handle. -/
def Pushed (s s' : Supervisor) (n : NodeId) (c : ChannelId) (t : Task) : Prop :=
  s'.channel n = some c ∧ t.assignedTo = some n ∧
    (s'.mailboxes c).pending = (s.mailboxes c).pending ++ [.assign t]

/-- What an input does to the tasks nodes hold and to the assignments on their way. -/
structure Deals (s s' : Supervisor) : Prop where
  mail : ∀ c, (s'.mailboxes c).asks = (s.mailboxes c).asks ∨ ∃ n t, Pushed s s' n c t
  held : ∀ (id : TaskId) t, s'.tasks[id]? = some t → t.state.isHeld = true →
    Stays s s' id t ∨ t.state = .assigned ∧ ∃ n c, Pushed s s' n c t

theorem Pushed.asks {c : ChannelId} (h : Pushed s s' n c t) :
    (s'.mailboxes c).asks = (s.mailboxes c).asks ++ [t.id] := by
  rw [Mailbox.asks, h.2.2, List.filterMap_append]
  rfl

/-- Nothing is sent and no task is given: what a node holds it held before. -/
theorem Deals.quiet (hm : ∀ c, (s'.mailboxes c).asks = (s.mailboxes c).asks)
    (hheld : ∀ (id : TaskId) t', s'.tasks[id]? = some t' → t'.state.isHeld = true →
      ∃ t, s.tasks[id]? = some t ∧ t.state.isHeld = true ∧ t'.assignedTo = t.assignedTo ∧
        (t'.state = t.state ∨ t'.state = .running)) : Deals s s' :=
  ⟨fun c => .inl (hm c), fun id t ht hst => .inl ⟨hheld id t ht hst, fun _ c _ _ => hm c⟩⟩

theorem Deals.of_tasks (ht : s'.tasks = s.tasks)
    (hm : ∀ c, (s'.mailboxes c).asks = (s.mailboxes c).asks) : Deals s s' :=
  .quiet hm fun _ t h hst => ⟨t, ht ▸ h, hst, rfl, .inl rfl⟩

theorem Fills.deals (hs : Sheds s d) (hf : Fills d s') (hn : s'.nodes = d.nodes)
    (hown : ∀ n m c, s'.channel n = some c → s'.channel m = some c → n = m) : Deals s s' := by
  have hchan (n : NodeId) : s'.channel n = d.channel n := channel_of_nodes hn n
  have hpush {n : NodeId} {c : ChannelId} {t : Task} (hg : Given d s' n c t) : Pushed s s' n c t := by
    obtain ⟨hc, -, hto, hp⟩ := hg
    exact ⟨(hchan n).trans hc, hto, by rw [hp, hs.mailboxes]⟩
  refine ⟨fun c => ?_, fun id t ht hheld => ?_⟩
  · rcases hf.mail c with hsame | ⟨n, t, hg⟩
    · exact .inl (by rw [hsame, hs.mailboxes])
    · exact .inr ⟨n, t, hpush hg⟩
  · rcases hf.held id t ht hheld with hold | ⟨hst, n, c, hg⟩
    · refine .inl ⟨⟨t, hs.held id t hold hheld, hheld, rfl, .inl rfl⟩, fun n c hto hc => ?_⟩
      rcases hf.mail c with hsame | ⟨m, u, hg⟩
      · rw [hsame, hs.mailboxes]
      · -- The inbox is that of a node that held nothing, and this one holds a task.
        obtain rfl : m = n := hown m n c ((hchan m).trans hg.1) hc
        exact absurd hto (hg.2.1 id t hold hheld)
    · exact .inr ⟨hst, n, c, hpush hg⟩

theorem Fills.sheds (h : Fills s s') (hs : Sheds s' s'') : Fills s s'' := by
  have hm (c : ChannelId) : s''.mailboxes c = s'.mailboxes c := congrFun hs.mailboxes c
  have hg {n : NodeId} {c : ChannelId} {t : Task} (hg : Given s s' n c t) : Given s s'' n c t := by
    obtain ⟨hc, hidle, hto, hp⟩ := hg
    exact ⟨hc, hidle, hto, by rw [hm, hp]⟩
  refine ⟨fun c => ?_, fun id t ht hheld => ?_⟩
  · exact (h.mail c).imp (hm c).trans fun ⟨n, t, h⟩ => ⟨n, t, hg h⟩
  · exact (h.held id t (hs.held id t ht hheld) hheld).imp_right fun ⟨hst, n, c, h⟩ => ⟨hst, n, c, hg h⟩

theorem handled_some (h : Handled now s i (some d) s') :
    s' = d.dispatch now ∨ s' = (d.dispatch now).pruneMemory := by
  cases h <;> first | exact .inl rfl | exact .inr rfl

/-- The nodes dispatch finds are those the input leaves behind, and they own their channels. -/
theorem handled_fills (hw : s.Wf) (h : s.atDispatch now i = some d) (hc : Channelled (s.handle now i)) :
    (s.handle now i).nodes = d.nodes ∧ Fills d (s.handle now i) := by
  have hd := handled s now i
  rw [h] at hd
  have hdw := (atDispatch_evolves h hw).2
  have hnodes : (s.handle now i).nodes = d.nodes := by
    rcases handled_some hd with heq | heq
    · rw [heq, dispatch_nodes]
    · rw [heq, prune_nodes, dispatch_nodes]
  have hfills : Fills d (d.dispatch now) := dispatch_fills hdw fun n m c hn hm =>
    hc.own n m c ((channel_of_nodes hnodes n).trans hn) ((channel_of_nodes hnodes m).trans hm)
  refine ⟨hnodes, ?_⟩
  rcases handled_some hd with heq | heq
  · rw [heq]; exact hfills
  · rw [heq]; exact hfills.sheds (Sheds.prune _)

theorem deliver_self (s : Supervisor) (c : ChannelId) (m : Mailbox) :
    (s.deliver c m).mailboxes c = m := by simp [Supervisor.deliver]

theorem deliver_other {b c : ChannelId} (hb : b ≠ c) (m : Mailbox) :
    (s.deliver c m).mailboxes b = s.mailboxes b := by simp [Supervisor.deliver, hb]

/-- A message that is no assignment leaves the assignments alone. -/
theorem deliver_asks {c : ChannelId} {m : Mailbox} (hm : m.asks = (s.mailboxes c).asks)
    (b : ChannelId) : ((s.deliver c m).mailboxes b).asks = (s.mailboxes b).asks := by
  by_cases hb : b = c
  · rw [hb, deliver_self, hm]
  · rw [deliver_other hb]

theorem control_asks {m m' : Mailbox} {msg : NodeInbox} (hm : m.trySend msg = some m')
    (hmsg : msg.ask? = none) : m'.asks = m.asks := by
  rw [Mailbox.asks, trySend_pending hm, List.filterMap_append, List.filterMap_cons_none hmsg,
    List.filterMap_nil, List.append_nil]
  rfl

theorem taskStarted_deals (n : NodeId) (u : Task) :
    Deals s (s.handleReport now (.taskStarted n u)) := by
  simp only [handleReport]
  cases ht : s.tasks[u.id]? with
  | none => exact .of_tasks rfl fun _ => rfl
  | some t =>
      dsimp only
      split
      · cases hs : t.start now with
        | error e => exact .of_tasks rfl fun _ => rfl
        | ok t' =>
            obtain ⟨hst, rfl⟩ := Task.start_ok.mp hs
            refine .quiet (fun _ => rfl) fun id x hx hheld => ?_
            change (s.tasks.insert u.id _)[id]? = some x at hx
            rw [Table.get_insert] at hx
            split at hx
            · subst id
              cases hx
              exact ⟨t, ht, by rw [hst]; rfl, rfl, .inr rfl⟩
            · exact ⟨x, hx, hheld, rfl, .inl rfl⟩
      · exact .of_tasks rfl fun _ => rfl

/-- Any input but the one that takes a message out of an inbox. -/
theorem handle_deals (h : Settled s) (hc : Channelled s) (hok : s.evictsHolder i = false)
    (hi : ∀ c, i ≠ .receive c) : Deals s (s.handle now i) := by
  have hch : Channelled (s.handle now i) := handle_channelled hc h hok
  cases hat : s.atDispatch now i with
  | some d =>
      obtain ⟨hnodes, hf⟩ := handled_fills h.wf hat hch
      exact hf.deals (atDispatch_sheds hat) hnodes hch.own
  | none =>
      have hd := handled s now i
      rw [hat] at hd
      generalize s.handle now i = s' at hd
      cases hd with
      | ignored | reservedJob | reservedTasks | roleKept | beat => exact .of_tasks rfl fun _ => rfl
      | @roleChanged n e role enabled he hr =>
          refine .of_tasks (Quiet.refreshLeadership _ now).tasks fun c => ?_
          rw [refreshLeadership_mailboxes]
          rfl
      | paused paused he hh hm => exact .of_tasks rfl (deliver_asks (control_asks hm rfl))
      | injected count he hh hm => exact .of_tasks rfl (deliver_asks (control_asks hm rfl))
      | delayed ms he hh hm => exact .of_tasks rfl (deliver_asks (control_asks hm rfl))
      | taskStarted n t => exact taskStarted_deals n t
      | received c => exact absurd rfl (hi c)
      | closed c hlt => exact .of_tasks rfl (deliver_asks rfl)

/-! ## Reports -/

/-- A task its node reported as started is running, if the node still holds it. -/
theorem started_running {u : Task}
    (ht : (s.handle now (.report (.taskStarted n u))).tasks[u.id]? = some t)
    (hto : t.assignedTo = some n) (hheld : t.state.isHeld = true) : t.state = .running := by
  simp only [handle, handleReport] at ht
  cases hold : s.tasks[u.id]? with
  | none => rw [hold] at ht; rw [hold] at ht; cases ht
  | some t₀ =>
      rw [hold] at ht
      dsimp only at ht
      split at ht
      · cases hs : t₀.start now with
        | error e =>
            rw [hs] at ht
            dsimp only at ht
            cases hold.symm.trans ht
            refine (TaskState.isHeld_iff.mp hheld).resolve_left fun hst => ?_
            rw [Task.start_ok.mpr ⟨hst, rfl⟩] at hs
            cases hs
        | ok t' =>
            obtain ⟨-, rfl⟩ := Task.start_ok.mp hs
            rw [hs] at ht
            change (s.tasks.insert u.id _)[u.id]? = some t at ht
            rw [Table.get_insert_self] at ht
            cases ht
            rfl
      · rename_i hne
        cases hold.symm.trans ht
        exact absurd hto hne

/-- A result ends the attempt: a running task completes, and any held task can fail. -/
theorem finishTask_released (hw : s.Wf) {id : TaskId} {outcome : TaskOutcome} {t t' : Task}
    (ht : s.tasks[id]? = some t) (hto : t.assignedTo = some n) (hheld : t.state.isHeld = true)
    (hlegal : t.state = .running ∨ ∀ output, outcome ≠ .completed output)
    (ht' : (s.finishTask now n id outcome).tasks[id]? = some t') : t'.state.isHeld = false := by
  obtain rfl := hw.taskKey id t ht
  have hopen : ¬ (t.assignedTo ≠ some n ∨ t.state.isTerminal = true) := by
    simp [hto, TaskState.held_not_terminal hheld]
  cases outcome with
  | completed output =>
      have hst := hlegal.resolve_right fun h => h output rfl
      have heq : s.finishTask now n t.id (.completed output) =
          s.markCompleted now n (t.completedAt output now) := by
        simp only [finishTask, ht, if_neg hopen, Task.complete_ok.mpr ⟨hst, rfl⟩]
        rfl
      rw [heq, (markCompleted_frame s now n (t.completedAt output now)).tasks] at ht'
      change (s.tasks.insert t.id _)[t.id]? = some t' at ht'
      rw [Table.get_insert_self] at ht'
      cases ht'
      rfl
  | failed reason detail =>
      have heq : s.finishTask now n t.id (.failed reason detail) =
          (s.noteFailure now n t reason detail).retryOrGiveUp now t.id := by
        simp only [finishTask, ht, if_neg hopen]
        rfl
      rw [heq] at ht'
      exact retryOrGiveUp_self (s := s.noteFailure now n t reason detail)
        (fun u hu => hw.taskKey t.id u hu) ht'

/-- A finished task is held afterwards only if dispatch gave it out again. -/
theorem finished_given (h : Settled s) (hc : Channelled s) {u : Task} {outcome : TaskOutcome}
    (hgone : ∀ t, (s.finishTask now n u.id outcome).tasks[u.id]? = some t → t.state.isHeld = false)
    (ht : (s.handle now (.report (.taskFinished n u outcome))).tasks[u.id]? = some t)
    (hheld : t.state.isHeld = true) : t.state = .assigned ∧
      ∃ m c, Pushed s (s.handle now (.report (.taskFinished n u outcome))) m c t := by
  have hat : s.atDispatch now (.report (.taskFinished n u outcome)) =
      some (s.finishTask now n u.id outcome) := rfl
  obtain ⟨hnodes, hf⟩ := handled_fills h.wf hat (handle_channelled hc h rfl)
  rcases hf.held u.id t ht hheld with hold | ⟨hst, m, c, hg⟩
  · rw [hgone t hold] at hheld
    cases hheld
  · refine ⟨hst, m, c, (channel_of_nodes hnodes m).trans hg.1, hg.2.2.1, ?_⟩
    rw [hg.2.2.2, (atDispatch_sheds hat).mailboxes]

end Gavel.Cluster.Supervisor
