import Gavel.Cluster.Lemmas.Registry
import Gavel.Cluster.Lemmas.Accounting

/-!
# Where every unfinished task is

A task waits in the queue or is held by a node that was told about it. `Arranged` is the invariant; it
excuses a set of nodes from having been told, which is how a node that has just lost its connection looks
until its work is put back.
-/

namespace Gavel.Cluster.Supervisor

variable {s s' : Supervisor} {now : Millis} {n : NodeId} {t : Task} {X X' : NodeId → Prop}

/-! ## Told about a task -/

/-- The channel behind the node's current handle. -/
def channel (s : Supervisor) (n : NodeId) : Option ChannelId := s.nodes[n]?.bind NodeEntry.handle

/-- The assignment of the task's current attempt was pushed into the inbox of the node's current handle. -/
def Delivered (s : Supervisor) (n : NodeId) (t : Task) : Prop :=
  ∃ c u, s.channel n = some c ∧ .assign u ∈ (s.mailboxes c).history ∧ u.id = t.id ∧
    u.attempt = t.attempt ∧ u.assignedTo = some n

/-- Nothing that was pushed into a channel is taken back. -/
def Remembers (s s' : Supervisor) : Prop :=
  ∀ c msg, msg ∈ (s.mailboxes c).history → msg ∈ (s'.mailboxes c).history

theorem Remembers.of_eq (h : s'.mailboxes = s.mailboxes) : Remembers s s' := by
  intro c msg hmsg
  rwa [h]

theorem trySend_history {m m' : Mailbox} {msg : NodeInbox} (h : m.trySend msg = some m') :
    m'.history = m.history ++ [msg] := by
  unfold Mailbox.trySend at h
  split at h
  · cases h; simp [Mailbox.history]
  · cases h

theorem receive_history (m : Mailbox) : m.receive.history = m.history := by
  obtain ⟨taken, pending, listening⟩ := m
  cases pending <;> simp [Mailbox.receive, Mailbox.history]

theorem Remembers.update {c : ChannelId} {m : Mailbox}
    (hm : s'.mailboxes = Function.update s.mailboxes c m)
    (hgrow : ∀ msg ∈ (s.mailboxes c).history, msg ∈ m.history) : Remembers s s' := by
  intro a msg hmsg
  rw [hm]
  by_cases ha : a = c
  · subst ha; simpa using hgrow msg hmsg
  · simpa [Function.update_of_ne ha] using hmsg

theorem Delivered.mono (h : s.Delivered n t) (hc : s'.channel n = s.channel n) (hr : Remembers s s')
    {u : Task} (hid : u.id = t.id) (hattempt : u.attempt = t.attempt) : s'.Delivered n u := by
  obtain ⟨c, a, hch, hmem, ha, hat, hto⟩ := h
  exact ⟨c, a, hc.trans hch, hr c _ hmem, ha.trans hid.symm, hat.trans hattempt.symm, hto⟩

theorem Delivered.connected (h : s.Delivered n t) : ∃ c, s.channel n = some c := by
  obtain ⟨c, -, hc, -⟩ := h
  exact ⟨c, hc⟩

/-! ## The invariant -/

/-- Every unfinished task waits in the queue or is held by one node that knows, or that is excused. -/
structure Arranged (X : NodeId → Prop) (s : Supervisor) : Prop where
  wf : s.Wf
  numbered : s.Numbered
  waiting : ∀ (id : TaskId) t, s.tasks[id]? = some t → t.state = .queued → s.queue.count id = 1
  held : ∀ (id : TaskId) t, s.tasks[id]? = some t → t.state.isHeld = true →
    id ∉ s.queue ∧ ∃ n, t.assignedTo = some n ∧ (X n ∨ s.Delivered n t)
  single : ∀ (id id' : TaskId) t t' n, s.tasks[id]? = some t → s.tasks[id']? = some t' →
    t.state.isHeld = true → t'.state.isHeld = true → t.assignedTo = some n → t'.assignedTo = some n →
    id = id'

namespace Arranged

/-- The work is the same; nodes that are not excused keep their channel. -/
theorem quiet (h : Arranged X s) (hq : Quiet s s') (hw : s'.Wf)
    (hc : ∀ n, ¬ X' n → s'.channel n = s.channel n) (hX : ∀ n, X n → X' n) (hr : Remembers s s') :
    Arranged X' s' where
  wf := hw
  numbered := hq.numbered h.numbered
  waiting := by rw [hq.tasks, hq.queue]; exact h.waiting
  held := by
    intro id t ht hheld
    rw [hq.tasks] at ht
    rw [hq.queue]
    obtain ⟨hnot, n, hn, hd⟩ := h.held id t ht hheld
    refine ⟨hnot, n, hn, ?_⟩
    by_cases hx : X' n
    · exact .inl hx
    · exact .inr ((hd.resolve_left fun hx' => hx (hX n hx')).mono (hc n hx) hr rfl rfl)
  single := by rw [hq.tasks]; exact h.single

theorem clear (h : Arranged X s) (hidle : ∀ n, X n → s.Idle n) : Arranged (fun _ => False) s where
  wf := h.wf
  numbered := h.numbered
  waiting := h.waiting
  held := by
    intro id t ht hheld
    obtain ⟨hnot, n, hn, hd⟩ := h.held id t ht hheld
    refine ⟨hnot, n, hn, .inr (hd.resolve_left fun hx => ?_)⟩
    exact hidle n hx id t ht hheld hn
  single := h.single

theorem idle (h : Arranged (fun _ => False) s) (hc : s.channel n = none) : s.Idle n := by
  intro id t ht hheld hn
  obtain ⟨-, m, hm, hd⟩ := h.held id t ht hheld
  obtain rfl : m = n := Option.some.inj (hm.symm.trans hn)
  obtain ⟨c, hch⟩ := (hd.resolve_left False.elim).connected
  rw [hc] at hch
  cases hch

end Arranged

/-! ## Moves -/

/-- One task row is written back: the others keep their place. -/
theorem Arranged.insert (h : Arranged X s) {t₀ : Task} (hw : s'.Wf) (hnum : s'.Numbered)
    (ht : s.tasks[t.id]? = some t₀) (htasks : s'.tasks = s.tasks.insert t.id t)
    (hnodes : s'.nodes = s.nodes) (hr : Remembers s s')
    (hcount : ∀ id : TaskId, id ≠ t.id → s'.queue.count id = s.queue.count id)
    (hwait : t.state = .queued → s'.queue.count t.id = 1)
    (hheld : t.state.isHeld = true →
      t.id ∉ s'.queue ∧ ∃ n, t.assignedTo = some n ∧ (X n ∨ s'.Delivered n t))
    (hsingle : t.state.isHeld = true → ∀ n, t.assignedTo = some n → ∀ (id : TaskId) u,
      id ≠ t.id → s.tasks[id]? = some u → u.state.isHeld = true → u.assignedTo ≠ some n) :
    Arranged X s' := by
  have hchan (n : NodeId) : s'.channel n = s.channel n := by rw [channel, hnodes]; rfl
  have hrow (id : TaskId) (u : Task) (hu : s'.tasks[id]? = some u) :
      (id = t.id ∧ u = t) ∨ (id ≠ t.id ∧ s.tasks[id]? = some u) := by
    rw [htasks, Table.get_insert] at hu
    split at hu
    · cases hu; exact .inl ⟨Eq.symm ‹_›, rfl⟩
    · exact .inr ⟨Ne.symm ‹_›, hu⟩
  refine ⟨hw, hnum, ?_, ?_, ?_⟩
  · intro id u hu hst
    rcases hrow id u hu with ⟨rfl, rfl⟩ | ⟨hne, hold⟩
    · exact hwait hst
    · rw [hcount id hne]; exact h.waiting id u hold hst
  · intro id u hu hst
    rcases hrow id u hu with ⟨rfl, rfl⟩ | ⟨hne, hold⟩
    · exact hheld hst
    · obtain ⟨hnot, n, hn, hd⟩ := h.held id u hold hst
      refine ⟨?_, n, hn, hd.imp_right fun hd => hd.mono (hchan n) hr rfl rfl⟩
      rw [← List.count_eq_zero, hcount id hne, List.count_eq_zero]
      exact hnot
  · intro id id' u u' n hu hu' hst hst' hn hn'
    rcases hrow id u hu with ⟨rfl, rfl⟩ | ⟨hne, hold⟩ <;>
      rcases hrow id' u' hu' with ⟨rfl, rfl⟩ | ⟨hne', hold'⟩
    · rfl
    · exact absurd hn' (hsingle hst n hn id' u' hne' hold' hst')
    · exact absurd hn (hsingle hst' n hn' id u hne hold hst)
    · exact h.single id id' u u' n hold hold' hst hst' hn hn'

theorem count_append_other {queue : List TaskId} {id a : TaskId} (h : a ≠ id) :
    (queue ++ [id]).count a = queue.count a := by
  simp [List.count_append, Ne.symm h]

theorem count_append_self {queue : List TaskId} {id : TaskId} (h : id ∉ queue) :
    (queue ++ [id]).count id = 1 := by
  simp [List.count_append, List.count_eq_zero.mpr h]

/-- New tasks join the end of the queue under ids nobody has used. -/
theorem enrol_arranged {spec : JobSpec} (h : Arranged X s) (hw : (s.enrol now spec).Wf)
    (hnum : (s.enrol now spec).Numbered) : Arranged X (s.enrol now spec) := by
  have hf := enrol_frame s now spec
  have hchan (n : NodeId) : (s.enrol now spec).channel n = s.channel n := by
    rw [channel, hf.nodes]; rfl
  have hahead : ∀ a ∈ (s.nextTasks now spec).map Task.id, s.taskSeq < a := by
    intro a ha
    rw [newTasks_ids, List.mem_range'_1] at ha
    exact ha.1
  have hrow (id : TaskId) (t : Task) (ht : (s.enrol now spec).tasks[id]? = some t) :
      (t ∈ s.nextTasks now spec ∧ t.id = id) ∨
        (s.tasks[id]? = some t ∧ id ∉ (s.nextTasks now spec).map Task.id) := by
    rw [hf.tasks] at ht
    refine (Table.get_insertAll_some ht).imp_right fun ⟨hold, hne⟩ => ⟨hold, ?_⟩
    intro hin
    obtain ⟨u, hu, he⟩ := List.mem_map.mp hin
    exact hne u hu he
  have hnew (t : Task) (ht : t ∈ s.nextTasks now spec) : t.state = .queued := by
    obtain ⟨i, sp, -, rfl⟩ := mem_newTasks ht
    rfl
  have hold (id : TaskId) (t : Task) (ht : (s.enrol now spec).tasks[id]? = some t)
      (hst : t.state.isHeld = true) :
      s.tasks[id]? = some t ∧ id ∉ (s.nextTasks now spec).map Task.id := by
    refine (hrow id t ht).resolve_left ?_
    rintro ⟨hm, -⟩
    rw [hnew t hm] at hst
    cases hst
  refine ⟨hw, hnum, ?_, ?_, ?_⟩
  · intro id t ht hst
    rw [hf.queue, List.count_append]
    rcases hrow id t ht with ⟨hm, rfl⟩ | ⟨hkept, hnot⟩
    · have hin : t.id ∈ (s.nextTasks now spec).map Task.id := List.mem_map_of_mem hm
      have hfresh : t.id ∉ s.queue := fun hq =>
        Nat.not_le.mpr (hahead _ hin) (h.numbered.queue _ hq)
      rw [List.count_eq_zero.mpr hfresh, List.count_eq_one_of_mem (newTasks_nodup ..) hin]
    · rw [h.waiting id t hkept hst, List.count_eq_zero.mpr hnot]
  · intro id t ht hst
    obtain ⟨hkept, hnot⟩ := hold id t ht hst
    obtain ⟨hq, n, hn, hd⟩ := h.held id t hkept hst
    rw [hf.queue, List.mem_append]
    exact ⟨not_or.mpr ⟨hq, hnot⟩, n, hn,
      hd.imp_right fun hd => hd.mono (hchan n) (.of_eq hf.mailboxes) rfl rfl⟩
  · intro id id' t t' n ht ht' hst hst'
    exact h.single id id' t t' n (hold id t ht hst).1 (hold id' t' ht' hst').1 hst hst'

theorem Move.arranged (h : Arranged X s) (hm : Move now s s') : Arranged X s' := by
  have hw := hm.wf h.wf
  have hnum := hm.numbered h.numbered
  cases hm with
  | @drop id rest hq ht =>
      have hcount : ∀ a, a ≠ id → rest.count a = s.queue.count a := by
        intro a ha
        rw [hq, List.count_cons_of_ne (Ne.symm ha)]
      refine ⟨hw, hnum, ?_, ?_, h.single⟩
      · intro a t hta hst
        have hne : a ≠ id := by rintro rfl; exact ht t hta hst
        rw [hcount a hne]
        exact h.waiting a t hta hst
      · intro a t hta hst
        obtain ⟨hnot, hd⟩ := h.held a t hta hst
        exact ⟨fun hin => hnot (hq ▸ List.mem_cons_of_mem _ hin), hd⟩
  | @place t rest n e c m hq ht hst he hh hsch hidle hsend =>
      have hf := place_frame s now rest (t.assignedOn n now) n c m
      have hhist := trySend_history hsend
      have hr : Remembers s (s.place now rest (t.assignedOn n now) n c m) := by
        refine .update hf.mailboxes ?_
        intro msg hmsg
        rw [hhist]
        exact List.mem_append_left _ hmsg
      have hone := h.waiting t.id t ht hst
      rw [hq, List.count_cons_self] at hone
      refine h.insert (t := t.assignedOn n now) hw hnum ht hf.tasks hf.nodes hr ?_ ?_ ?_ ?_
      · intro id hid
        have hne : t.id ≠ id := Ne.symm hid
        rw [hf.queue, hq, List.count_cons_of_ne hne]
      · intro hqueued; cases hqueued
      · intro _
        rw [hf.queue]
        refine ⟨List.count_eq_zero.mp (Nat.succ.inj hone), n, rfl, .inr ?_⟩
        refine ⟨c, t.assignedOn n now, ?_, ?_, rfl, rfl, rfl⟩
        · rw [channel, hf.nodes, he]; exact hh
        · rw [hf.mailboxes]
          simp [hhist]
      · intro _ k hk id u _ hu hheld
        obtain rfl : n = k := Option.some.inj hk
        exact hidle id u hu hheld
  | @start t n ht hst hn =>
      have hheld : t.state.isHeld = true := by rw [hst]; rfl
      obtain ⟨hnot, k, hk, hd⟩ := h.held t.id t ht hheld
      refine h.insert (t := t.startedAt now) hw hnum ht rfl rfl (.of_eq rfl) (fun _ _ => rfl)
        (by intro hq; cases hq) ?_ ?_
      · intro _
        exact ⟨hnot, k, hk, hd.imp_right fun hd => hd.mono rfl (.of_eq rfl) rfl rfl⟩
      · intro _ m hm id u hne hu hheld' hum
        exact hne (h.single id t.id u t m hu ht hheld' hheld hum hm)
  | @complete t n output ht hst hn =>
      have hf := markCompleted_frame s now n (t.completedAt output now)
      exact h.insert (t := t.completedAt output now) hw hnum ht hf.tasks hf.nodes
        (.of_eq hf.mailboxes) (fun _ _ => by rw [hf.queue]) (by intro hq; cases hq)
        (by intro hq; cases hq) (by intro hq; cases hq)
  | @retry t n reason detail ht hheld hn hlt =>
      have hf := retry_frame s now n t (t.requeuedAt now) reason detail
      refine h.insert (t := t.requeuedAt now) hw hnum ht hf.tasks hf.nodes
        (.of_eq hf.mailboxes) ?_ ?_ (by intro hq; cases hq) (by intro hq; cases hq)
      · intro id hid
        rw [hf.queue]
        exact count_append_other hid
      · intro _
        rw [hf.queue]
        exact count_append_self (h.held t.id t ht hheld).1
  | @giveUp t n reason detail ht hheld hn hge =>
      have hf := giveUp_frame s now n t (t.failedAt now) reason detail
      exact h.insert (t := t.failedAt now) hw hnum ht hf.tasks hf.nodes
        (.of_eq hf.mailboxes) (fun _ _ => by rw [hf.queue]) (by intro hq; cases hq)
        (by intro hq; cases hq) (by intro hq; cases hq)
  | reserveJob => exact ⟨hw, hnum, h.waiting, h.held, h.single⟩
  | reserveTasks => exact ⟨hw, hnum, h.waiting, h.held, h.single⟩
  | enrol spec => exact enrol_arranged h hw hnum
  | prune =>
      have hf := prune_frame s
      have hback (id : TaskId) (t : Task) (ht : s.pruneMemory.tasks[id]? = some t) :
          s.tasks[id]? = some t := by
        rw [prune_tasks] at ht
        exact (Option.filter_eq_some_iff.mp ht).1
      have hchan (n : NodeId) : s.pruneMemory.channel n = s.channel n := by
        rw [channel, hf.nodes]; rfl
      refine ⟨hw, hnum, ?_, ?_, ?_⟩
      · intro id t ht hst
        rw [hf.queue]
        exact h.waiting id t (hback id t ht) hst
      · intro id t ht hst
        rw [hf.queue]
        obtain ⟨hnot, n, hn, hd⟩ := h.held id t (hback id t ht) hst
        exact ⟨hnot, n, hn, hd.imp_right fun hd => hd.mono (hchan n) (.of_eq hf.mailboxes) rfl rfl⟩
      · intro id id' t t' n ht ht'
        exact h.single id id' t t' n (hback id t ht) (hback id' t' ht')

theorem Moves.arranged (h : Arranged X s) (hm : Moves now s s') : Arranged X s' := by
  induction hm with
  | refl => exact h
  | tail _ hm ih => exact hm.arranged ih

theorem Bounce.arranged (h : Arranged X s) (hb : Bounce now s s') : Arranged X s' := by
  have hw := hb.wf h.wf
  have hnum := hb.numbered h.numbered
  cases hb with
  | @intro t rest n e c hq ht hst =>
      have hf := bounce_frame s rest ((t.assignedOn n now).requeuedAt now)
      have hqueue : (s.bounce rest ((t.assignedOn n now).requeuedAt now)).queue = s.queue :=
        hf.queue.trans hq.symm
      refine h.insert (t := (t.assignedOn n now).requeuedAt now) hw hnum ht hf.tasks hf.nodes
        (.of_eq hf.mailboxes) (fun _ _ => by rw [hqueue]) ?_ (by intro hq; cases hq)
        (by intro hq; cases hq)
      intro _
      rw [hqueue]
      exact h.waiting t.id t ht hst

theorem Dispatched.arranged {refused : Bool} (h : Arranged X s) (hd : Dispatched now refused s s') :
    Arranged X s' := by
  cases refused with
  | false => exact Moves.arranged h hd
  | true =>
      obtain ⟨d, hd, hb⟩ := hd
      exact hb.arranged (Moves.arranged h hd)

theorem dispatch_arranged (h : Arranged X s) : Arranged X (s.dispatch now) :=
  (dispatch_steps _ h.wf).arranged h

/-! ## A node whose work was put back -/

/-- After a retry or a failure the task is held by nobody. -/
theorem retryOrGiveUp_self {id : TaskId} (hkey : ∀ u, s.tasks[id]? = some u → u.id = id) {t : Task}
    (ht : (s.retryOrGiveUp now id).tasks[id]? = some t) : t.state.isHeld = false := by
  unfold retryOrGiveUp at ht
  cases hold : s.tasks[id]? with
  | none => simp [hold] at ht
  | some u =>
      obtain rfl := hkey u hold
      rw [hold] at ht
      dsimp only at ht
      split at ht
      · split at ht
        · rename_i err heq
          cases hold.symm.trans ht
          cases hh : t.state.isHeld with
          | false => rfl
          | true => rw [(Task.requeue_ok _).mpr ⟨.inl hh, rfl⟩] at heq; cases heq
        · rename_i u' heq
          obtain ⟨-, rfl⟩ := (Task.requeue_ok _).mp heq
          rw [emit_tasks] at ht
          change (Std.TreeMap.insert _ u.id _)[u.id]? = some t at ht
          rw [Table.get_insert_self] at ht
          cases ht; rfl
      · split at ht
        · rename_i err heq
          cases hold.symm.trans ht
          cases hh : t.state.isHeld with
          | false => rfl
          | true => rw [Task.fail_ok.mpr ⟨hh, rfl⟩] at heq; cases heq
        · rename_i u' heq
          obtain ⟨-, rfl⟩ := Task.fail_ok.mp heq
          rw [(JobsOnly.settleJob _ _ _).tasks, (JobsOnly.updateJob _ _ _).tasks] at ht
          change (Std.TreeMap.insert _ u.id _)[u.id]? = some t at ht
          rw [Table.get_insert_self] at ht
          cases ht; rfl

theorem requeueTask_self {id : TaskId} (h : s.Wf) {t : Task}
    (ht : (requeueTask now n s id).tasks[id]? = some t) : t.state.isHeld = false := by
  unfold requeueTask at ht
  cases hold : s.tasks[id]? with
  | none => simp [hold] at ht
  | some u =>
      rw [hold] at ht
      exact retryOrGiveUp_self (s := (s.recordFailure now u .nodeOffline "node went offline").emit now
        (.taskFailed id (some n) .nodeOffline)) (fun u hu => h.taskKey id u hu) ht

/-- Once each of its tasks is put back, a node holds nothing. -/
theorem requeueTasksOf_idle (h : s.Wf) (now : Millis) (n : NodeId) :
    (s.requeueTasksOf now n).Idle n := by
  have hall : ∀ (id : TaskId) t, s.tasks[id]? = some t → t.state.isHeld = true →
      t.assignedTo = some n → id ∈ s.tasksOf n := fun id t ht hheld hn =>
    (mem_tasksOf h).mpr ⟨t, ht, hn, TaskState.held_not_terminal hheld⟩
  have hheld : ∀ id ∈ s.tasksOf n, ∀ t, s.tasks[id]? = some t →
      t.state.isHeld = true ∧ t.assignedTo = some n := by
    intro id hid t ht
    obtain ⟨u, hu, hn, hnt⟩ := (mem_tasksOf h).mp hid
    cases ht.symm.trans hu
    exact ⟨held_of_assigned h ht hn hnt, hn⟩
  have hnd := tasksOf_nodup h n
  unfold requeueTasksOf
  generalize s.tasksOf n = ids at hall hheld hnd
  induction ids generalizing s with
  | nil =>
      intro id t ht hst hn
      cases hall id t ht hst hn
  | cons id ids ih =>
      obtain ⟨hnot, hnd⟩ := List.nodup_cons.mp hnd
      have hm : Moves now s (requeueTask now n s id) := requeueTask_moves h (hheld id List.mem_cons_self)
      refine ih (hm.wf h) ?_ ?_ hnd
      · intro a t ht hst hn
        by_cases ha : id = a
        · subst ha
          rw [requeueTask_self h ht] at hst
          cases hst
        · rw [requeueTask_other h ha] at ht
          exact List.mem_of_ne_of_mem (Ne.symm ha) (hall a t ht hst hn)
      · intro a ha t ht
        have hne : id ≠ a := fun heq => hnot (heq ▸ ha)
        rw [requeueTask_other h hne] at ht
        exact hheld a (List.mem_cons_of_mem _ ha) t ht

/-! ## The registry changes -/

/-- Every node keeps its task and its inbox. -/
abbrev Settled (s : Supervisor) : Prop := Arranged (fun _ => False) s

theorem emitIf_mailboxes (s : Supervisor) (now : Millis) (ev : Option ClusterEvent) :
    (s.emitIf now ev).mailboxes = s.mailboxes := by cases ev <;> rfl

theorem refreshLeadership_mailboxes (s : Supervisor) (now : Millis) :
    (s.refreshLeadership now).mailboxes = s.mailboxes := by
  unfold refreshLeadership changeLeader
  split <;> simp [emitIf_mailboxes]

namespace Arranged

theorem emit (h : Arranged X s) {ev : ClusterEvent}
    (hev : (Write.event ⟨s.eventSeq + 1, now, ev⟩).isQuiet = true) : Arranged X (s.emit now ev) :=
  h.quiet (Quiet.emit s now hev) (((show Evolves now s s from .refl s).emit hev h.wf).2) (fun _ _ => rfl)
    (fun _ hx => hx) (.of_eq rfl)

theorem refresh (h : Arranged X s) : Arranged X (s.refreshLeadership now) := by
  refine h.quiet (Quiet.refreshLeadership s now) (((show Evolves now s s from .refl s).refresh h.wf).2) ?_
    (fun _ hx => hx) (.of_eq (refreshLeadership_mailboxes s now))
  intro n _
  rw [channel, refreshLeadership_nodes]
  rfl

theorem putNode (h : Arranged X s) {e e' : NodeEntry} (he : s.nodes[n]? = some e)
    (hid : e'.node.id = e.node.id) (hh : e'.handle = e.handle) : Arranged X (s.putNode n e') := by
  have hw := ((show Evolves 0 s s from .refl s).putNode (hid.trans (h.wf.nodeKey n e he)) h.wf).2
  refine h.quiet (Quiet.putNode s n e') hw ?_ (fun _ hx => hx) (.of_eq rfl)
  intro m _
  rw [channel, channel, putNode_nodes, Table.get_insert]
  split
  · subst m; simp [he, hh]
  · rfl

/-- An entry is replaced by any other; its node is excused. -/
theorem replace (h : Settled s) {e : NodeEntry} (hid : e.node.id = n) :
    Arranged (· = n) (s.putNode n e) := by
  have hw := ((show Evolves 0 s s from .refl s).putNode hid h.wf).2
  refine h.quiet (Quiet.putNode s n e) hw ?_ (fun _ hx => hx.elim) (.of_eq rfl)
  intro m hm
  rw [channel, putNode_nodes, Table.get_insert_ne (Ne.symm hm)]
  rfl

theorem deliver (h : Arranged X s) (c : ChannelId) {m : Mailbox}
    (hgrow : ∀ msg ∈ (s.mailboxes c).history, msg ∈ m.history) : Arranged X (s.deliver c m) := by
  refine h.quiet ?_ ((show Evolves 0 s s from .refl s).deliver c m h.wf).2 (fun _ _ => rfl)
    (fun _ hx => hx) (.update rfl hgrow)
  exact ⟨rfl, rfl, rfl, rfl, rfl, rfl, [], by simp, by simp [Supervisor.deliver]⟩

variable (now) in
theorem persistRoles (h : Arranged X s) (n : NodeId) (roles : RoleSet) :
    Arranged X (s.persistRoles now n roles) :=
  h.quiet (Quiet.persistRoles s now n roles)
    (((show Evolves now s s from .refl s).persistRoles n roles h.wf).2) (fun _ _ => rfl)
    (fun _ hx => hx) (.of_eq rfl)

theorem newChannel (h : Arranged X s) (c : ChannelId) : Arranged X { s with nextChannel := c } :=
  h.quiet ⟨rfl, rfl, rfl, rfl, rfl, rfl, [], by simp, by simp⟩
    ((show Evolves 0 s s from .refl s).newChannel c h.wf).2 (fun _ _ => rfl) (fun _ hx => hx) (.of_eq rfl)

end Arranged

variable (now) in
theorem lose_settled {e : NodeEntry} (h : Settled s) (he : s.nodes[n]? = some e) :
    Settled (s.lose now n e) ∧ (s.lose now n e).Idle n := by
  have hlost : Arranged (· = n) ((s.putNode n (lostEntry e)).emit now (.nodeLeft n)) :=
    (h.replace (e := lostEntry e) (h.wf.nodeKey n e he)).emit rfl
  have hidle := requeueTasksOf_idle hlost.wf now n
  have hmoves := Moves.arranged hlost (requeueTasksOf_moves now hlost.wf n)
  refine ⟨hmoves.clear ?_, hidle⟩
  rintro _ rfl
  exact hidle

theorem forget_settled (h : Settled s) (hidle : s.Idle n) : Settled (s.forget now n) := by
  have herased : Arranged (· = n) { s with nodes := s.nodes.erase n } := by
    refine h.quiet ⟨rfl, rfl, rfl, rfl, rfl, rfl, [], by simp, by simp⟩
      ((show Evolves 0 s s from .refl s).erase n h.wf).2 ?_ (fun _ hx => hx.elim) (.of_eq rfl)
    intro m hm
    rw [channel, channel, Table.get_erase, if_neg (Ne.symm hm)]
  refine Arranged.persistRoles now (Arranged.clear herased ?_) n .empty
  rintro _ rfl
  exact hidle

theorem connect_settled {e : NodeEntry} (h : Settled s) (hid : e.node.id = n) (hidle : s.Idle n)
    (capabilities : NodeCapabilities) : Settled (s.connect now n capabilities e) := by
  have hput : Settled (s.putNode n (connectedEntry now capabilities s.nextChannel e)) := by
    refine (h.replace (e := connectedEntry now capabilities s.nextChannel e) hid).clear ?_
    rintro _ rfl
    exact hidle
  exact ((hput.newChannel (s.nextChannel + 1)).persistRoles now n _).emit rfl

theorem rejoin_settled {e : NodeEntry} (h : Settled s) (he : s.nodes[n]? = some e)
    (hh : e.handle = none) : Settled (s.rejoin now n) := by
  have hidle : s.Idle n := h.idle (by rw [channel, he]; exact hh)
  have hput : Settled (s.putNode n (launchedEntry now s.nextChannel e)) := by
    refine (h.replace (e := launchedEntry now s.nextChannel e) (h.wf.nodeKey n e he)).clear ?_
    rintro _ rfl
    exact hidle
  have hlaunch : s.launchNode now n =
      { s.putNode n (launchedEntry now s.nextChannel e) with nextChannel := s.nextChannel + 1 } := by
    simp [launchNode, he, launchedEntry]
  rw [rejoin, hlaunch]
  exact (hput.newChannel (s.nextChannel + 1)).emit rfl

theorem noteTransitions_arranged (h : Arranged X s) (trs : List (NodeId × NodeStatus)) :
    Arranged X (trs.foldl (noteTransition now) s) := by
  induction trs generalizing s with
  | nil => exact h
  | cons tr trs ih =>
      refine ih ?_
      unfold noteTransition
      cases tr.2 with
      | suspect => exact h.emit rfl
      | offline =>
          have hleft : Arranged X (s.emit now (.nodeLeft tr.1)) := h.emit rfl
          exact Moves.arranged hleft (requeueTasksOf_moves _ hleft.wf tr.1)
      | healthy => exact h.emit rfl
      | starting => exact h

theorem sweepHealth_arranged (h : Arranged X s) : Arranged X (s.sweepHealth now) := by
  refine noteTransitions_arranged (s := s.swept now) ?_ _
  refine h.quiet (show Quiet s (s.swept now) from ⟨rfl, rfl, rfl, rfl, rfl, rfl, [], by simp, by simp [swept]⟩) ?_ ?_
    (fun _ hx => hx) (.of_eq rfl)
  · refine ⟨h.wf.taskKey, h.wf.jobKey, ?_, h.wf.unassigned⟩
    intro n e he
    simp only [swept, Std.TreeMap.getElem?_map] at he
    obtain ⟨e', he', rfl⟩ := Option.map_eq_some_iff.mp he
    exact h.wf.nodeKey n e' he'
  · intro n _
    simp only [channel, swept, Std.TreeMap.getElem?_map]
    cases s.nodes[n]? <;> rfl

/-! ## Every input -/

/-- A worker dials in under a fixed id whose previous connection is still the registered one and holds
unfinished work. -/
def evictsHolder (s : Supervisor) : Input → Bool
  | .attachRemote (some n) _ =>
      (s.nodes[n]?.any fun e => attachable e && e.handle.isSome) && !(s.tasksOf n).isEmpty
  | _ => false

theorem idle_of_tasksOf (h : s.Wf) (hn : s.tasksOf n = []) : s.Idle n := by
  intro id t ht hheld ha
  have hin := (mem_tasksOf h).mpr ⟨t, ht, ha, TaskState.held_not_terminal hheld⟩
  rw [hn] at hin
  cases hin

theorem handle_settled (h : Settled s) {i : Input} (hok : s.evictsHolder i = false) :
    Settled (s.handle now i) := by
  have hd := handled s now i
  generalize s.atDispatch now i = d, s.handle now i = s' at hd
  cases hd with
  | ignored i => exact h
  | reservedJob spec detail => exact (show Move now s _ from .reserveJob).arranged h
  | reservedTasks spec detail =>
      have hmoves : Moves now s (s.reserveJob.reserveTasks spec.split.length) :=
        .tail (.single .reserveJob) (.reserveTasks spec.split.length)
      exact hmoves.arranged h
  | admitted spec => exact dispatch_arranged ((show Move now s _ from .enrol spec).arranged h)
  | roleKept role enabled he hr => exact h.putNode he rfl rfl
  | @roleChanged n e role enabled he hr =>
      have hput : Settled (s.putNode n (withRole e role enabled)) := h.putNode he rfl rfl
      refine Arranged.refresh (Arranged.emit (hput.persistRoles now n _) ?_)
      cases enabled <;> rfl
  | stopped he hh hd =>
      subst hd
      exact dispatch_arranged (lose_settled _ h he).1.refresh
  | started he hh hk hd =>
      subst hd
      exact dispatch_arranged (rejoin_settled h he hh).refresh
  | @paused n e c m paused he hh hm =>
      refine Arranged.putNode (s := s.deliver c m) (h.deliver c ?_) he rfl rfl
      rw [trySend_history hm]
      exact fun msg hmsg => List.mem_append_left _ hmsg
  | injected count he hh hm =>
      refine h.deliver _ ?_
      rw [trySend_history hm]
      exact fun msg hmsg => List.mem_append_left _ hmsg
  | delayed ms he hh hm =>
      refine h.deliver _ ?_
      rw [trySend_history hm]
      exact fun msg hmsg => List.mem_append_left _ hmsg
  | @joined n capabilities hfree e he d hd =>
      subst hd
      have hidle : s.Idle n := h.idle (by rw [channel, nextFreeId_none hfree]; rfl)
      have hid : e.node.id = n := by rw [he]; rfl
      have hput : Settled (s.putNode n e) := by
        refine (h.replace hid).clear ?_
        rintro _ rfl
        exact hidle
      exact dispatch_arranged (connect_settled hput hid hidle capabilities).refresh
  | @attached n e capabilities he ha d hd =>
      subst hd
      have hidle : s.Idle n := by
        cases hh : e.handle with
        | none => exact h.idle (by rw [channel, he]; exact hh)
        | some c =>
            refine idle_of_tasksOf h.wf ?_
            simpa [evictsHolder, he, ha, hh] using hok
      exact dispatch_arranged (connect_settled h (h.wf.nodeKey n e he) hidle capabilities).refresh
  | detached he hh hk hd =>
      subst hd
      exact dispatch_arranged (lose_settled _ h he).1.refresh
  | forgotten he hh hk hd =>
      subst hd
      obtain ⟨hlost, hidle⟩ := lose_settled now h he
      exact dispatch_arranged (forget_settled hlost hidle).refresh
  | beat hb he => exact h.putNode he rfl rfl
  | taskStarted n t => exact Moves.arranged h (taskStarted_moves h.wf n t)
  | taskFinished n t outcome hd =>
      subst hd
      exact dispatch_arranged (Moves.arranged h (finishTask_moves h.wf n t.id outcome))
  | ticked hd =>
      subst hd
      exact (show Move now _ _ from .prune).arranged (dispatch_arranged (sweepHealth_arranged h).refresh)
  | received c =>
      refine h.deliver c ?_
      rw [receive_history]
      exact fun _ hmsg => hmsg
  | closed c hc => exact h.deliver c fun _ hmsg => hmsg

end Gavel.Cluster.Supervisor
