import Gavel.Cluster.Lemmas.Handle
import Gavel.Cluster.Lemmas.Working
import Gavel.Cluster.Lemmas.Ledger

/-!
# Accounting over moves

The supervisor's own tables stay balanced under every move, each job that ends is announced once, and
what has ended stays as it is until it is forgotten.
-/

namespace Gavel.Cluster

/-- The event announces the end of the job. -/
def ClusterEvent.ends (id : JobId) : ClusterEvent → Bool
  | .jobCompleted a | .jobFailed a => a == id
  | _ => false

/-- The announcements a job in this state must have received. -/
def Job.ending (id : JobId) (j : Job) : List ClusterEvent :=
  match j.state with
  | .completed => [.jobCompleted id]
  | .failed => [.jobFailed id]
  | _ => []

namespace Supervisor

variable {s s' s'' : Supervisor} {now : Millis}

/-- The announcements of a job's end among them. -/
def endings (s : Supervisor) (id : JobId) : List ClusterEvent :=
  s.emitted.filter (ClusterEvent.ends id)

/-- The announcements among some operations. -/
def endingsIn (id : JobId) (ops : List DurableOp) : List ClusterEvent :=
  (ops.filterMap DurableOp.event?).filter (ClusterEvent.ends id)

theorem endings_append {ops : List DurableOp} (h : s'.ops = s.ops ++ ops) (id : JobId) :
    s'.endings id = s.endings id ++ endingsIn id ops := by
  simp [endings, emitted, endingsIn, h]

/-! ## Ids -/

/-- No row or queue entry is numbered beyond the sequences of the store. -/
structure Numbered (s : Supervisor) : Prop where
  task : ∀ (id : TaskId) t, s.tasks[id]? = some t → id ≤ s.taskSeq
  job : ∀ (id : JobId) j, s.jobs[id]? = some j → id ≤ s.jobSeq
  queue : ∀ id ∈ s.queue, id ≤ s.taskSeq

namespace Numbered

/-- An existing task is written back and a job updated in place. -/
theorem update (h : s.Numbered) {t₀ t : Task}
    (ht : s.tasks[t.id]? = some t₀) (htasks : s'.tasks = s.tasks.insert t.id t)
    (hjobs : ∀ (b : JobId) j, s'.jobs[b]? = some j → ∃ j₀, s.jobs[b]? = some j₀)
    (hqueue : ∀ id ∈ s'.queue, id ∈ s.queue ∨ id = t.id)
    (htseq : s'.taskSeq = s.taskSeq) (hjseq : s'.jobSeq = s.jobSeq) : s'.Numbered where
  task := by
    intro id u hu
    rw [htasks, Table.get_insert] at hu
    rw [htseq]
    split at hu
    · subst id; exact h.task _ _ ht
    · exact h.task id u hu
  job := by
    intro id j hj
    obtain ⟨j₀, hj₀⟩ := hjobs id j hj
    rw [hjseq]
    exact h.job id j₀ hj₀
  queue := by
    intro id hid
    rw [htseq]
    rcases hqueue id hid with hq | rfl
    · exact h.queue id hq
    · exact h.task _ _ ht

end Numbered

theorem job_before {jobs jobs' : Table Job} {a : JobId} {f : Job → Job}
    (hjobs : ∀ b : JobId, jobs'[b]? = if a = b then jobs[b]?.map f else jobs[b]?) (b : JobId) (j : Job)
    (hj : jobs'[b]? = some j) : ∃ j₀, jobs[b]? = some j₀ := by
  rw [hjobs] at hj
  split at hj
  · obtain ⟨j₀, hj₀, -⟩ := Option.map_eq_some_iff.mp hj
    exact ⟨j₀, hj₀⟩
  · exact ⟨j, hj⟩

theorem Move.numbered (h : s.Numbered) (hm : Move now s s') : s'.Numbered := by
  cases hm with
  | drop hq ht => exact ⟨h.task, h.job, fun id hid => h.queue id (hq ▸ List.mem_cons_of_mem _ hid)⟩
  | @place t rest n e c m hq ht =>
      have hf := place_frame s now rest (t.assignedOn n now) n c m
      refine h.update (t := t.assignedOn n now) ht hf.tasks (job_before (place_jobs s now rest _ n c m)) ?_
        hf.taskSeq hf.jobSeq
      intro id hid
      rw [hf.queue] at hid
      exact .inl (hq ▸ List.mem_cons_of_mem _ hid)
  | @start t n ht =>
      have hf := markStarted_frame s (t.startedAt now)
      exact h.update (t := t.startedAt now) ht hf.tasks (fun b j hj => ⟨j, hj⟩) (fun id hid => .inl hid)
        hf.taskSeq hf.jobSeq
  | @complete t n output ht =>
      have hf := markCompleted_frame s now n (t.completedAt output now)
      refine h.update (t := t.completedAt output now) ht hf.tasks (job_before (markCompleted_jobs s now n _)) ?_
        hf.taskSeq hf.jobSeq
      exact fun id hid => .inl (hf.queue ▸ hid)
  | @retry t n reason detail ht =>
      have hf := retry_frame s now n t (t.requeuedAt now) reason detail
      refine h.update (t := t.requeuedAt now) ht hf.tasks ?_ ?_ hf.taskSeq hf.jobSeq
      · intro b j hj
        rw [putBack_jobs, noteFailure_jobs] at hj
        exact ⟨j, hj⟩
      · intro id hid
        rw [hf.queue] at hid
        simpa using hid
  | @giveUp t n reason detail ht =>
      have hf := giveUp_frame s now n t (t.failedAt now) reason detail
      have hj := markFailed_jobs (s.noteFailure now n t reason detail) now (t.failedAt now)
      rw [noteFailure_jobs] at hj
      refine h.update (t := t.failedAt now) ht hf.tasks (job_before hj) ?_ hf.taskSeq hf.jobSeq
      exact fun id hid => .inl (hf.queue ▸ hid)
  | reserveJob =>
      exact ⟨h.task, fun id j hj => Nat.le_succ_of_le (h.job id j hj), h.queue⟩
  | reserveTasks count =>
      exact ⟨fun id t ht => Nat.le_add_right_of_le (h.task id t ht), h.job,
        fun id hid => Nat.le_add_right_of_le (h.queue id hid)⟩
  | enrol spec =>
      have hf := enrol_frame s now spec
      have hnew : ∀ t ∈ s.nextTasks now spec,
          t.id ≤ s.taskSeq + max spec.split.length 1 := by
        intro t ht
        obtain ⟨i, sp, hi, rfl⟩ := mem_newTasks ht
        have hmax := Nat.le_max_left spec.taskCount 1
        rw [spec.split_length]
        show s.taskSeq + 1 + i ≤ s.taskSeq + max spec.taskCount 1
        omega
      refine ⟨?_, ?_, ?_⟩
      · intro id t ht
        rw [hf.tasks] at ht
        rw [hf.taskSeq]
        rcases Table.get_insertAll_some ht with ⟨hmem, hk⟩ | ⟨hold, _⟩
        · exact hk ▸ hnew t hmem
        · exact Nat.le_add_right_of_le (h.task id t hold)
      · intro id j hj
        rw [enrol_jobs, Table.get_insert] at hj
        rw [hf.jobSeq]
        split at hj
        · subst id; exact Nat.le_refl _
        · exact Nat.le_succ_of_le (h.job id j hj)
      · intro id hid
        rw [hf.queue] at hid
        rw [hf.taskSeq]
        rcases List.mem_append.mp hid with hid | hid
        · exact Nat.le_add_right_of_le (h.queue id hid)
        · obtain ⟨t, ht, rfl⟩ := List.mem_map.mp hid
          exact hnew t ht
  | prune =>
      have hf := prune_frame s
      refine ⟨?_, ?_, ?_⟩
      · intro id t ht
        rw [prune_tasks] at ht
        rw [hf.taskSeq]
        exact h.task id t (Option.filter_eq_some_iff.mp ht).1
      · intro id j hj
        rw [prune_jobs] at hj
        rw [hf.jobSeq]
        split at hj
        · cases hj
        · exact h.job id j hj
      · intro id hid
        rw [hf.queue] at hid
        rw [hf.taskSeq]
        exact h.queue id hid

theorem Bounce.numbered (h : s.Numbered) (hb : Bounce now s s') : s'.Numbered := by
  cases hb with
  | @intro t rest n e c hq ht =>
      have hf := bounce_frame s rest ((t.assignedOn n now).requeuedAt now)
      refine h.update (t := (t.assignedOn n now).requeuedAt now) ht hf.tasks (fun b j hj => ⟨j, hj⟩) ?_
        hf.taskSeq hf.jobSeq
      intro id hid
      rw [hf.queue] at hid
      rcases List.mem_cons.mp hid with rfl | hid
      · exact .inr rfl
      · exact .inl (hq ▸ List.mem_cons_of_mem _ hid)

theorem Quiet.numbered (h : s.Numbered) (hq : Quiet s s') : s'.Numbered := by
  refine ⟨?_, ?_, ?_⟩
  · rw [hq.tasks, hq.taskSeq]; exact h.task
  · rw [hq.jobs, hq.jobSeq]; exact h.job
  · rw [hq.queue, hq.taskSeq]; exact h.queue

/-! ## Balance -/

theorem Move.ledger (hn : s.Numbered) (h : Ledger s.jobs s.tasks)
    (hm : Move now s s') : Ledger s'.jobs s'.tasks := by
  cases hm with
  | drop => exact h
  | @place t rest n e c m hq ht hst =>
      have hf := place_frame s now rest (t.assignedOn n now) n c m
      rw [hf.tasks]
      refine h.update ht rfl (place_jobs s now rest (t.assignedOn n now) n c m) ?_
      intro j hb
      refine hb.insert_open (t := t.assignedOn n now) ht rfl (by rw [hst]; rfl) rfl (.inr rfl) ?_
      intro hq
      unfold Job.start at hq
      split at hq
      · cases hq
      · contradiction
  | @start t n ht hst =>
      refine h.update_task ht rfl ?_
      intro j hb
      refine hb.insert_open (t := t.startedAt now) ht rfl (by rw [hst]; rfl) rfl (.inl rfl) ?_
      intro hq
      rw [hb.held_running ht rfl (by rw [hst]; rfl)] at hq
      cases hq
  | @complete t n output ht hst =>
      have hf := markCompleted_frame s now n (t.completedAt output now)
      rw [hf.tasks]
      refine h.update ht rfl (markCompleted_jobs s now n (t.completedAt output now)) ?_
      intro j hb
      have hsat := (hb.satSucc_open ht rfl (by rw [hst]; rfl)).1
      exact hb.insert_terminal (t := t.completedAt output now) ht rfl rfl (by rw [hst]; rfl) rfl
        rfl rfl (by simpa [Job.countCompleted, Task.completedAt] using hsat)
        (by simp [Job.countCompleted, Task.completedAt])
  | @retry t n reason detail ht hheld =>
      have hf := retry_frame s now n t (t.requeuedAt now) reason detail
      rw [hf.tasks, putBack_jobs, noteFailure_jobs]
      refine h.update_task ht rfl ?_
      intro j hb
      exact hb.insert_open (t := t.requeuedAt now) ht rfl (TaskState.held_not_terminal hheld) rfl (.inl rfl)
        fun _ => rfl
  | @giveUp t n reason detail ht hheld =>
      have hf := giveUp_frame s now n t (t.failedAt now) reason detail
      have hj := markFailed_jobs (s.noteFailure now n t reason detail) now (t.failedAt now)
      rw [noteFailure_jobs] at hj
      rw [hf.tasks]
      refine h.update ht rfl hj ?_
      intro j hb
      have hsat := (hb.satSucc_open ht rfl (TaskState.held_not_terminal hheld)).2
      exact hb.insert_terminal (t := t.failedAt now) ht rfl rfl hheld rfl rfl rfl
        (by simp [Job.countFailed, Task.failedAt])
        (by simpa [Job.countFailed, Task.failedAt] using hsat)
  | reserveJob => exact h
  | reserveTasks => exact h
  | enrol spec =>
      rw [(enrol_frame s now spec).tasks, enrol_jobs]
      refine h.enrol ?_ ?_
      · cases hj : s.jobs[s.jobSeq + 1]? with
        | none => rfl
        | some j => exact absurd (hn.job _ j hj) (Nat.not_succ_le_self _)
      · intro i
        cases ht : s.tasks[s.taskSeq + 1 + i]? with
        | none => rfl
        | some t =>
            have hlt : s.taskSeq < s.taskSeq + 1 + i := by omega
            exact absurd (hn.task _ t ht) (Nat.not_le.mpr hlt)
  | prune =>
      refine ⟨?_, ?_⟩
      · intro id j hj
        rw [prune_jobs] at hj
        split at hj
        · cases hj
        · rename_i hkeep
          have hb := h.balanced id j hj
          have hcount (q : Task → Bool) := prune_count s (p := fun t => t.jobId == id && q t) (by
            intro t ht
            simp only [Bool.and_eq_true, beq_iff_eq] at ht
            rw [ht.1]; exact hkeep)
          refine ⟨?_, hb.nonempty, hb.small, ?_, ?_, hb.settled, hb.verdict, ?_⟩
          · have hc := hcount fun _ => true
            simp only [Bool.and_true] at hc
            rw [population, hc]; exact hb.total
          · rw [tally, hcount]; exact hb.completed
          · rw [tally, hcount]; exact hb.failed
          · intro hq k t ht
            rw [prune_tasks] at ht
            exact hb.fresh hq k t (Option.filter_eq_some_iff.mp ht).1
      · intro k t ht
        rw [prune_tasks] at ht
        obtain ⟨ht, hkeep⟩ := Option.filter_eq_some_iff.mp ht
        obtain ⟨j, hj⟩ := h.owned k t ht
        refine ⟨j, ?_⟩
        rw [prune_jobs, if_neg (by simpa using hkeep)]
        exact hj

theorem Bounce.ledger (h : Ledger s.jobs s.tasks) (hb : Bounce now s s') :
    Ledger s'.jobs s'.tasks := by
  cases hb with
  | @intro t rest n e c hq ht hst =>
      refine h.update_task ht rfl ?_
      intro j hb
      exact hb.insert_open (t := (t.assignedOn n now).requeuedAt now) ht rfl (by rw [hst]; rfl) rfl
        (.inl rfl) fun _ => rfl

/-! ## Announcements -/

/-- Every job in memory was announced as its state demands, and no job ahead of the sequence was. -/
structure Announced (s : Supervisor) : Prop where
  memory : ∀ (id : JobId) j, s.jobs[id]? = some j → s.endings id = j.ending id
  ahead : ∀ id, s.jobSeq < id → s.endings id = []

theorem endingsIn_append (id : JobId) (a b : List DurableOp) :
    endingsIn id (a ++ b) = endingsIn id a ++ endingsIn id b := by
  simp [endingsIn]

@[simp] theorem endingsIn_nil (id : JobId) : endingsIn id [] = [] := rfl

theorem endingsIn_cons_other {id : JobId} {op : DurableOp} {ops : List DurableOp}
    (h : op.event?.all (fun ev => !ev.ends id) = true) :
    endingsIn id (op :: ops) = endingsIn id ops := by
  unfold endingsIn
  cases hev : op.event? with
  | none => rw [List.filterMap_cons_none hev]
  | some ev =>
      rw [hev] at h
      have hends : ev.ends id = false := by simpa using h
      rw [List.filterMap_cons_some hev, List.filter_cons_of_neg (by simp [hends])]

@[simp] theorem endingsIn_startOps (id : JobId) (j : Option Job) :
    endingsIn id (startOps j) = [] := by
  cases j with
  | none => rfl
  | some j => simp only [startOps]; split <;> rfl

@[simp] theorem endingsIn_updateOps (id : JobId) (f : Job → Job) (j : Option Job) :
    endingsIn id (updateOps f j) = [] := by
  cases j <;> rfl

theorem settledEvent_ends (id a : JobId) (j : Job) : (settledEvent a j).ends id = (a == id) := by
  unfold settledEvent; split <;> rfl

theorem endingsIn_settleOps (id a : JobId) (seq : Nat) (j : Job) :
    endingsIn id (settleOps now a seq (some j)) =
      if j.settles = true ∧ a = id then [settledEvent a j] else [] := by
  unfold settleOps
  by_cases hs : j.settles = true
  · by_cases ha : a = id
    · subst ha
      simp [hs, endingsIn, List.filterMap_cons, DurableOp.event?, settledEvent_ends]
    · simp [hs, ha, endingsIn, List.filterMap_cons, DurableOp.event?, settledEvent_ends]
  · simp [hs]

namespace Announced

/-- Nothing is announced, and every job keeps the announcements it needs. -/
theorem update (h : s.Announced) {l : List DurableOp} (hops : s'.ops = s.ops ++ l)
    (hnone : ∀ id, endingsIn id l = [])
    (hjobs : ∀ (b : JobId) j, s'.jobs[b]? = some j →
      ∃ j₀, s.jobs[b]? = some j₀ ∧ j.ending b = j₀.ending b)
    (hseq : s.jobSeq ≤ s'.jobSeq) : s'.Announced where
  memory := by
    intro id j hj
    obtain ⟨j₀, hj₀, he⟩ := hjobs id j hj
    rw [endings_append hops, hnone, List.append_nil, he]
    exact h.memory id j₀ hj₀
  ahead := by
    intro id hid
    rw [endings_append hops, hnone, List.append_nil]
    exact h.ahead id (Nat.lt_of_le_of_lt hseq hid)

theorem ending_settle {j : Job} {id : JobId} (hrun : j.state = .running) :
    (j.settle now).ending id = if j.settles = true then [settledEvent id j] else [] := by
  unfold Job.settle
  split
  · unfold Job.ending Job.settledAt settledEvent
    rcases j.verdict_cases with hv | hv <;> simp [hv]
  · simp [Job.ending, hrun]

/-- A running job's counter is raised and it settles if it can. -/
theorem settle (h : s.Announced) (hn : s.Numbered) {l : List DurableOp} {a : JobId} {seq : Nat}
    {f : Job → Job} (hops : s'.ops = s.ops ++ (l ++
      settleOps now a seq (s.jobs[a]?.map f)))
    (hnone : ∀ id, endingsIn id l = [])
    (hjobs : ∀ b : JobId, s'.jobs[b]? =
      if a = b then s.jobs[b]?.map (fun j => (f j).settle now) else s.jobs[b]?)
    (hrun : ∀ j, s.jobs[a]? = some j → j.state = .running ∧ (f j).state = .running)
    (hseq : s'.jobSeq = s.jobSeq) : s'.Announced := by
  have hends (id : JobId) : s'.endings id =
      s.endings id ++ endingsIn id (settleOps now a seq (s.jobs[a]?.map f)) := by
    rw [endings_append hops, endingsIn_append, hnone, List.nil_append]
  refine ⟨?_, ?_⟩
  · intro id j hj
    rw [hjobs] at hj
    rw [hends]
    split at hj
    · subst id
      obtain ⟨j₀, hj₀, rfl⟩ := Option.map_eq_some_iff.mp hj
      obtain ⟨hr, hfr⟩ := hrun j₀ hj₀
      have hold : s.endings a = [] := by rw [h.memory a j₀ hj₀]; simp [Job.ending, hr]
      rw [hold, hj₀, Option.map_some, endingsIn_settleOps, ending_settle hfr]
      simp
    · rename_i hne
      rw [h.memory id j hj]
      cases s.jobs[a]? with
      | none => simp [settleOps]
      | some j₀ => simp [endingsIn_settleOps, hne]
  · intro id hid
    rw [hseq] at hid
    rw [hends, h.ahead id hid]
    cases hj : s.jobs[a]? with
    | none => simp [settleOps]
    | some j₀ =>
        have hne : a ≠ id := by
          rintro rfl
          exact absurd (hn.job a j₀ hj) (Nat.not_le.mpr hid)
        simp [endingsIn_settleOps, hne]

end Announced

theorem Move.announced (hn : s.Numbered) (hl : Ledger s.jobs s.tasks) (h : s.Announced)
    (hm : Move now s s') : s'.Announced := by
  have same (b : JobId) (j : Job) (hj : s.jobs[b]? = some j) :
      ∃ j₀, s.jobs[b]? = some j₀ ∧ j.ending b = j₀.ending b := ⟨j, hj, rfl⟩
  cases hm with
  | drop => exact h.update (l := []) (by simp [ops]) (by simp) same (Nat.le_refl _)
  | @place t rest n e c m =>
      have hf := place_frame s now rest (t.assignedOn n now) n c m
      refine h.update (place_ops ..) ?_ ?_ (Nat.le_of_eq hf.jobSeq.symm)
      · intro id
        rw [List.cons_append, endingsIn_cons_other rfl, endingsIn_append, endingsIn_startOps]
        rfl
      · intro b j hj
        rw [place_jobs] at hj
        split at hj
        · obtain ⟨j₀, hj₀, rfl⟩ := Option.map_eq_some_iff.mp hj
          refine ⟨j₀, hj₀, ?_⟩
          unfold Job.start
          split
          · simp [Job.ending, Job.startedAt, *]
          · rfl
        · exact ⟨j, hj, rfl⟩
  | @start t n =>
      exact h.update markStarted_ops (fun id => endingsIn_cons_other rfl) same (Nat.le_refl _)
  | @complete t n output ht hst =>
      have hf := markCompleted_frame s now n (t.completedAt output now)
      refine h.settle hn (l := _ :: _ :: updateOps Job.countCompleted s.jobs[t.jobId]?)
        markCompleted_ops ?_ (markCompleted_jobs s now n _) ?_ hf.jobSeq
      · intro id
        rw [endingsIn_cons_other rfl, endingsIn_cons_other rfl, endingsIn_updateOps]
      · intro j hj
        have hr := (hl.balanced _ j hj).held_running ht rfl (by rw [hst]; rfl)
        exact ⟨hr, hr⟩
  | @retry t n reason detail =>
      have hf := retry_frame s now n t (t.requeuedAt now) reason detail
      have hops := putBack_ops (s := s.noteFailure now n t reason detail) now
        (t := t.requeuedAt now)
      rw [noteFailure_ops, List.append_assoc] at hops
      refine h.update hops ?_ ?_ (Nat.le_of_eq hf.jobSeq.symm)
      · intro id
        rfl
      · rw [putBack_jobs, noteFailure_jobs]
        exact same
  | @giveUp t n reason detail ht hheld =>
      have hf := giveUp_frame s now n t (t.failedAt now) reason detail
      have hj := markFailed_jobs (s.noteFailure now n t reason detail) now (t.failedAt now)
      have hops := markFailed_ops (s := s.noteFailure now n t reason detail) now
        (t := t.failedAt now)
      rw [noteFailure_jobs] at hj hops
      rw [noteFailure_ops, List.append_assoc] at hops
      refine h.settle hn (l := _ :: _ :: _ :: updateOps Job.countFailed s.jobs[t.jobId]?)
        hops ?_ hj ?_ hf.jobSeq
      · intro id
        rw [endingsIn_cons_other rfl, endingsIn_cons_other rfl, endingsIn_cons_other rfl,
          endingsIn_updateOps]
      · intro j hj
        have hr := (hl.balanced _ j hj).held_running ht rfl hheld
        exact ⟨hr, hr⟩
  | reserveJob =>
      exact h.update (issue_ops _) (fun id => endingsIn_cons_other rfl) same (Nat.le_succ _)
  | reserveTasks count =>
      exact h.update (issue_ops _) (fun id => endingsIn_cons_other rfl) same (Nat.le_refl _)
  | enrol spec =>
      have hf := enrol_frame s now spec
      have hends (id : JobId) : (s.enrol now spec).endings id = s.endings id := by
        rw [endings_append (enrol_ops s now spec), endingsIn_cons_other rfl,
          endingsIn_cons_other rfl, endingsIn_cons_other rfl, endingsIn_cons_other rfl]
        simp
      refine ⟨?_, ?_⟩
      · intro id j hj
        rw [enrol_jobs, Table.get_insert] at hj
        rw [hends]
        split at hj
        · subst id
          cases hj
          exact h.ahead _ (Nat.lt_succ_self _)
        · exact h.memory id j hj
      · intro id hid
        rw [hf.jobSeq] at hid
        rw [hends]
        exact h.ahead id (Nat.lt_of_succ_lt hid)
  | prune =>
      have hf := prune_frame s
      refine h.update (l := []) (by simp [ops, prune_journal]) (by simp) ?_
        (Nat.le_of_eq hf.jobSeq.symm)
      intro b j hj
      rw [prune_jobs] at hj
      split at hj
      · cases hj
      · exact ⟨j, hj, rfl⟩

theorem Bounce.announced (h : s.Announced) (hb : Bounce now s s') : s'.Announced := by
  cases hb
  exact h.update (bounce_ops _) (fun id => endingsIn_cons_other rfl) (fun b j hj => ⟨j, hj, rfl⟩)
    (Nat.le_refl _)

theorem Quiet.announced (h : s.Announced) (hq : Quiet s s') : s'.Announced := by
  obtain ⟨ws, hws, hj⟩ := hq.journal
  refine h.update (l := ws.map .queued) (by simp [ops, hj]) ?_ ?_ (Nat.le_of_eq hq.jobSeq.symm)
  · intro id
    clear hj
    induction ws with
    | nil => rfl
    | cons w ws ih =>
        have hw := hws w List.mem_cons_self
        rw [List.map_cons, endingsIn_cons_other ?_]
        · exact ih fun w' hw' => hws w' (List.mem_cons_of_mem _ hw')
        · cases w with
          | event r =>
              obtain ⟨seq, at', ev⟩ := r
              cases ev <;> simp_all [Write.isQuiet, DurableOp.event?, ClusterEvent.ends]
          | _ => rfl
  · rw [hq.jobs]
    exact fun b j hj => ⟨j, hj, rfl⟩

/-! ## What has ended stays -/

/-- Between two states of a run: ended rows are kept or forgotten, and forgotten ids do not return. -/
structure Frozen (s s' : Supervisor) : Prop where
  taskSeq : s.taskSeq ≤ s'.taskSeq
  jobSeq : s.jobSeq ≤ s'.jobSeq
  noTask : ∀ id : TaskId, id ≤ s.taskSeq → s.tasks[id]? = none → s'.tasks[id]? = none
  noJob : ∀ id : JobId, id ≤ s.jobSeq → s.jobs[id]? = none → s'.jobs[id]? = none
  task : ∀ (id : TaskId) t, s.tasks[id]? = some t → t.state.isTerminal = true →
    ∀ t', s'.tasks[id]? = some t' → t' = t
  job : ∀ (id : JobId) j, s.jobs[id]? = some j → j.state.isTerminal = true →
    ∀ j', s'.jobs[id]? = some j' → j' = j

namespace Frozen

theorem refl (s : Supervisor) : Frozen s s where
  taskSeq := Nat.le_refl _
  jobSeq := Nat.le_refl _
  noTask _ _ h := h
  noJob _ _ h := h
  task _ _ ht _ _ ht' := Option.some.inj (ht'.symm.trans ht)
  job _ _ hj _ _ hj' := Option.some.inj (hj'.symm.trans hj)

theorem trans (hn : s.Numbered) (h : Frozen s s') (h' : Frozen s' s'') : Frozen s s'' where
  taskSeq := Nat.le_trans h.taskSeq h'.taskSeq
  jobSeq := Nat.le_trans h.jobSeq h'.jobSeq
  noTask id hid hnone := h'.noTask id (Nat.le_trans hid h.taskSeq) (h.noTask id hid hnone)
  noJob id hid hnone := h'.noJob id (Nat.le_trans hid h.jobSeq) (h.noJob id hid hnone)
  task := by
    intro id t ht hterm t' ht'
    cases hmid : s'.tasks[id]? with
    | none =>
        have hid := Nat.le_trans (hn.task id t ht) h.taskSeq
        rw [h'.noTask id hid hmid] at ht'
        cases ht'
    | some u =>
        obtain rfl := h.task id t ht hterm u hmid
        exact h'.task id u hmid hterm t' ht'
  job := by
    intro id j hj hterm j' hj'
    cases hmid : s'.jobs[id]? with
    | none =>
        have hid := Nat.le_trans (hn.job id j hj) h.jobSeq
        rw [h'.noJob id hid hmid] at hj'
        cases hj'
    | some u =>
        obtain rfl := h.job id j hj hterm u hmid
        exact h'.job id u hmid hterm j' hj'

/-- An open task is written back and a job that has not ended is updated. -/
theorem update {t₀ t : Task} {a : JobId} {f : Job → Job} (ht : s.tasks[t.id]? = some t₀)
    (hopen : t₀.state.isTerminal = false) (htasks : s'.tasks = s.tasks.insert t.id t)
    (hjobs : ∀ b : JobId, s'.jobs[b]? = if a = b then s.jobs[b]?.map f else s.jobs[b]?)
    (hf : ∀ j, s.jobs[a]? = some j → j.state.isTerminal = true → f j = j)
    (htseq : s'.taskSeq = s.taskSeq) (hjseq : s'.jobSeq = s.jobSeq) : Frozen s s' where
  taskSeq := Nat.le_of_eq htseq.symm
  jobSeq := Nat.le_of_eq hjseq.symm
  noTask := by
    intro id _ hnone
    rw [htasks, Table.get_insert]
    split
    · subst id; rw [ht] at hnone; cases hnone
    · exact hnone
  noJob := by
    intro id _ hnone
    rw [hjobs, hnone]
    split <;> rfl
  task := by
    intro id u hu hterm u' hu'
    rw [htasks, Table.get_insert] at hu'
    split at hu'
    · subst id
      cases ht.symm.trans hu
      rw [hterm] at hopen
      cases hopen
    · exact Option.some.inj (hu'.symm.trans hu)
  job := by
    intro id j hj hterm j' hj'
    rw [hjobs, hj] at hj'
    split at hj'
    · subst a
      exact (Option.some.inj hj').symm.trans (hf j hj hterm)
    · exact (Option.some.inj hj').symm

theorem same (htasks : s'.tasks = s.tasks) (hjobs : s'.jobs = s.jobs)
    (htseq : s.taskSeq ≤ s'.taskSeq) (hjseq : s.jobSeq ≤ s'.jobSeq) : Frozen s s' := by
  refine ⟨htseq, hjseq, ?_, ?_, ?_, ?_⟩
  · rw [htasks]; exact fun _ _ h => h
  · rw [hjobs]; exact fun _ _ h => h
  · rw [htasks]; exact fun _ _ ht _ _ ht' => Option.some.inj (ht'.symm.trans ht)
  · rw [hjobs]; exact fun _ _ hj _ _ hj' => Option.some.inj (hj'.symm.trans hj)

end Frozen

theorem map_kept {jobs : Table Job} (b : JobId) :
    jobs[b]? = if 0 = b then jobs[b]?.map (fun j => j) else jobs[b]? := by
  split <;> simp

theorem Move.frozen (hn : s.Numbered) (hl : Ledger s.jobs s.tasks) (hm : Move now s s') :
    Frozen s s' := by
  -- A job with a held task has not ended, so its update disturbs nothing that has.
  have busy {t : Task} (ht : s.tasks[t.id]? = some t) (hheld : t.state.isHeld = true) {f : Job → Job}
      (j : Job) (hj : s.jobs[t.jobId]? = some j) (hterm : j.state.isTerminal = true) : f j = j := by
    rw [(hl.balanced _ j hj).held_running ht rfl hheld] at hterm
    cases hterm
  cases hm with
  | drop => exact .same rfl rfl (Nat.le_refl _) (Nat.le_refl _)
  | @place t rest n e c m hq ht hst =>
      have hf := place_frame s now rest (t.assignedOn n now) n c m
      refine .update (t := t.assignedOn n now) ht (by rw [hst]; rfl) hf.tasks
        (place_jobs s now rest _ n c m) ?_ hf.taskSeq hf.jobSeq
      intro j _ hterm
      unfold Job.start
      split
      · rename_i hq; rw [hq] at hterm; cases hterm
      · rfl
  | @start t n ht hst =>
      have hf := markStarted_frame s (t.startedAt now)
      exact .update (t := t.startedAt now) ht (by rw [hst]; rfl) hf.tasks map_kept
        (fun _ _ _ => rfl) hf.taskSeq hf.jobSeq
  | @complete t n output ht hst =>
      have hf := markCompleted_frame s now n (t.completedAt output now)
      exact .update (t := t.completedAt output now) ht (by rw [hst]; rfl) hf.tasks
        (markCompleted_jobs s now n _) (busy ht (by rw [hst]; rfl)) hf.taskSeq hf.jobSeq
  | @retry t n reason detail ht hheld =>
      have hf := retry_frame s now n t (t.requeuedAt now) reason detail
      refine .update (t := t.requeuedAt now) (a := 0) (f := fun j => j) ht (TaskState.held_not_terminal hheld)
        hf.tasks ?_ (fun _ _ _ => rfl) hf.taskSeq hf.jobSeq
      rw [putBack_jobs, noteFailure_jobs]
      exact map_kept
  | @giveUp t n reason detail ht hheld =>
      have hf := giveUp_frame s now n t (t.failedAt now) reason detail
      have hj := markFailed_jobs (s.noteFailure now n t reason detail) now (t.failedAt now)
      rw [noteFailure_jobs] at hj
      exact .update (t := t.failedAt now) ht (TaskState.held_not_terminal hheld) hf.tasks hj
        (busy ht hheld) hf.taskSeq hf.jobSeq
  | reserveJob => exact .same rfl rfl (Nat.le_refl _) (Nat.le_succ _)
  | reserveTasks count => exact .same rfl rfl (Nat.le_add_right _ _) (Nat.le_refl _)
  | enrol spec =>
      have hf := enrol_frame s now spec
      have hnew : ∀ t ∈ s.nextTasks now spec, s.taskSeq < t.id := by
        intro t ht
        obtain ⟨i, sp, -, rfl⟩ := mem_newTasks ht
        exact Nat.lt_add_right i (Nat.lt_succ_self _)
      have hold (id : TaskId) (hid : id ≤ s.taskSeq) : (s.enrol now spec).tasks[id]? = s.tasks[id]? := by
        rw [hf.tasks]
        refine Table.get_insertAll_ne ?_
        rintro t ht rfl
        exact absurd hid (Nat.not_le.mpr (hnew t ht))
      have holdJob (id : JobId) (hid : id ≤ s.jobSeq) : (s.enrol now spec).jobs[id]? = s.jobs[id]? := by
        rw [enrol_jobs]
        refine Table.get_insert_ne ?_
        rintro rfl
        exact absurd hid (Nat.not_succ_le_self _)
      refine ⟨?_, ?_, ?_, ?_, ?_, ?_⟩
      · rw [hf.taskSeq]; exact Nat.le_add_right _ _
      · rw [hf.jobSeq]; exact Nat.le_succ _
      · intro id hid hnone; rw [hold id hid]; exact hnone
      · intro id hid hnone; rw [holdJob id hid]; exact hnone
      · intro id t ht _ t' ht'
        rw [hold id (hn.task id t ht)] at ht'
        exact Option.some.inj (ht'.symm.trans ht)
      · intro id j hj _ j' hj'
        rw [holdJob id (hn.job id j hj)] at hj'
        exact Option.some.inj (hj'.symm.trans hj)
  | prune =>
      have hf := prune_frame s
      refine ⟨Nat.le_of_eq hf.taskSeq.symm, Nat.le_of_eq hf.jobSeq.symm, ?_, ?_, ?_, ?_⟩
      · intro id _ hnone
        rw [prune_tasks, hnone]; rfl
      · intro id _ hnone
        rw [prune_jobs, hnone]; simp
      · intro id t ht _ t' ht'
        rw [prune_tasks] at ht'
        exact Option.some.inj ((Option.filter_eq_some_iff.mp ht').1.symm.trans ht)
      · intro id j hj _ j' hj'
        rw [prune_jobs] at hj'
        split at hj'
        · cases hj'
        · exact Option.some.inj (hj'.symm.trans hj)

theorem Bounce.frozen (hb : Bounce now s s') : Frozen s s' := by
  cases hb with
  | @intro t rest n e c hq ht hst =>
      have hf := bounce_frame s rest ((t.assignedOn n now).requeuedAt now)
      exact .update (t := (t.assignedOn n now).requeuedAt now) ht (by rw [hst]; rfl) hf.tasks
        map_kept (fun _ _ _ => rfl) hf.taskSeq hf.jobSeq

theorem Quiet.frozen (hq : Quiet s s') : Frozen s s' :=
  .same hq.tasks hq.jobs (Nat.le_of_eq hq.taskSeq.symm) (Nat.le_of_eq hq.jobSeq.symm)

/-! ## All of it together -/

/-- What accounting relies on, in one place. -/
structure Accounts (s : Supervisor) : Prop where
  numbered : s.Numbered
  ledger : Ledger s.jobs s.tasks
  announced : s.Announced

theorem Change.accounts (h : s.Accounts) (hc : Change now s s') : s'.Accounts ∧ Frozen s s' := by
  obtain ⟨hn, hl, ha⟩ := h
  rcases hc with (hm | hq) | hb
  · exact ⟨⟨hm.numbered hn, hm.ledger hn hl, hm.announced hn hl ha⟩, hm.frozen hn hl⟩
  · refine ⟨⟨hq.numbered hn, ?_, hq.announced ha⟩, hq.frozen⟩
    rw [hq.jobs, hq.tasks]
    exact hl
  · exact ⟨⟨hb.numbered hn, hb.ledger hl, hb.announced ha⟩, hb.frozen⟩

theorem Changes.accounts (h : s.Accounts) (hc : Changes now s s') : s'.Accounts ∧ Frozen s s' := by
  induction hc with
  | refl => exact ⟨h, .refl s⟩
  | tail _ hstep ih =>
      obtain ⟨ha, hf⟩ := hstep.accounts ih.1
      exact ⟨ha, ih.2.trans h.numbered hf⟩

variable (now) in
theorem handle_accounts (hw : s.Wf) (h : s.Accounts) (i : Input) :
    (s.handle now i).Accounts ∧ Frozen s (s.handle now i) :=
  Changes.accounts h (handle_changes _ hw i)

end Supervisor

end Gavel.Cluster
