import Gavel.Cluster.Lemmas.Ledger
import Gavel.Cluster.Lemmas.Startup

/-!
# The store follows the memory

Applied in the order they were issued, the durable operations bring the store to hold every row the
supervisor holds in memory, after each of them and not only at the end.
-/

namespace Gavel.Cluster

/-!
## A job row that lags behind its tasks

A task's end and its job's counters are separate writes. `Weak` is what a job row keeps whatever was lost
in between.
-/

section

variable {tasks tasks' : Table Task} {jobs jobs' : Table Job} {id : JobId} {k : TaskId} {j : Job}
  {t t₀ : Task} {now : Millis}

/-- An open row is replaced: one task more has ended, or none. -/
theorem tally_insert_open (ht : tasks[k]? = some t₀) (hj : t.jobId = t₀.jobId)
    (hopen : t₀.state.isTerminal = false) {st : TaskState} (hst : st.isTerminal = true) :
    tally (tasks.insert k t) id st = tally tasks id st + if t.jobId = id ∧ t.state = st then 1 else 0 := by
  have hc := tally_insert id ht hj st
  have hn : ¬ t₀.state = st := by rintro rfl; rw [hst] at hopen; cases hopen
  simpa only [hj, hn, and_false, if_false, Nat.add_zero] using hc

/-- The counters never run ahead of the tasks, and an ended job was fully counted. -/
structure Weak (tasks : Table Task) (id : JobId) (j : Job) : Prop where
  total : population tasks id = j.taskCount
  small : j.taskCount ≤ u16Max
  completed : j.tasksCompleted ≤ tally tasks id .completed
  failed : j.tasksFailed ≤ tally tasks id .failed
  settled : j.state.isTerminal = true → j.taskCount ≤ j.tasksCompleted + j.tasksFailed

theorem Balanced.weak (h : Balanced tasks id j) : Weak tasks id j :=
  ⟨h.total, h.small, Nat.le_of_eq h.completed.symm, Nat.le_of_eq h.failed.symm,
    fun ht => Nat.le_of_eq (h.settled.mp ht).symm⟩

namespace Weak

theorem congr (h : Weak tasks id j) (hs : SameTasks tasks tasks' id) : Weak tasks' id j :=
  ⟨hs.population ▸ h.total, h.small, hs.tally .completed ▸ h.completed,
    hs.tally .failed ▸ h.failed, h.settled⟩

theorem ended (h : Weak tasks id j) (ht : j.state.isTerminal = true) :
    ∀ (k : TaskId) t, tasks[k]? = some t → t.jobId = id → t.state.isTerminal = true := by
  rw [← openTasks_zero_iff]
  have hpop := population_eq tasks id
  have hs := h.settled ht
  have htotal := h.total
  have hc := h.completed
  have hf := h.failed
  omega

/-- An open row is replaced; the job row stays behind at worst. -/
theorem insert (h : Weak tasks id j) (ht : tasks[k]? = some t₀) (hj : t.jobId = t₀.jobId)
    (hopen : t₀.state.isTerminal = false) : Weak (tasks.insert k t) id j := by
  have grow (st : TaskState) (hst : st.isTerminal = true) :
      tally tasks id st ≤ tally (tasks.insert k t) id st := by
    rw [tally_insert_open ht hj hopen hst]
    exact Nat.le_add_right _ _
  exact ⟨population_insert ht hj id ▸ h.total, h.small, Nat.le_trans h.completed (grow _ rfl),
    Nat.le_trans h.failed (grow _ rfl), h.settled⟩

/-- An open row ends and the matching counter is raised, saturating. -/
theorem insert_counted (h : Weak tasks id j) (ht : tasks[k]? = some t₀) (hj : t.jobId = t₀.jobId)
    (hid : t₀.jobId = id) (hopen : t₀.state.isTerminal = false) {j' : Job}
    (hstate : j'.state = j.state) (htotal : j'.taskCount = j.taskCount)
    (hcompleted : j.tasksCompleted ≤ j'.tasksCompleted ∧
      j'.tasksCompleted ≤ j.tasksCompleted + if t.state = .completed then 1 else 0)
    (hfailed : j.tasksFailed ≤ j'.tasksFailed ∧
      j'.tasksFailed ≤ j.tasksFailed + if t.state = .failed then 1 else 0) :
    Weak (tasks.insert k t) id j' := by
  have count (st : TaskState) (hst : st.isTerminal = true) : tally (tasks.insert k t) id st =
      tally tasks id st + if t.state = st then 1 else 0 := by
    rw [tally_insert_open ht hj hopen hst]
    simp only [hj, hid, true_and]
  have hc := h.completed
  have hf := h.failed
  refine ⟨?_, htotal ▸ h.small, ?_, ?_, ?_⟩
  · rw [population_insert ht hj, htotal]; exact h.total
  · rw [count _ rfl]; omega
  · rw [count _ rfl]; omega
  · intro hterm
    have hs := h.settled (hstate ▸ hterm)
    rw [htotal]
    omega

theorem counter_le (h : Weak tasks id j) : j.tasksCompleted ≤ u16Max ∧ j.tasksFailed ≤ u16Max := by
  have hpop := population_eq tasks id
  have htotal := h.total
  have hsmall := h.small
  have hc := h.completed
  have hf := h.failed
  omega

theorem countCompleted (h : Weak tasks id j) (ht : tasks[k]? = some t₀) (hj : t.jobId = t₀.jobId)
    (hid : t₀.jobId = id) (hopen : t₀.state.isTerminal = false) (hst : t.state = .completed) :
    Weak (tasks.insert k t) id j.countCompleted := by
  have hle := h.counter_le
  refine h.insert_counted ht hj hid hopen rfl rfl ?_ ?_
  · simp only [hst, Job.countCompleted, satSucc, if_true]; omega
  · simp [Job.countCompleted]

theorem countFailed (h : Weak tasks id j) (ht : tasks[k]? = some t₀) (hj : t.jobId = t₀.jobId)
    (hid : t₀.jobId = id) (hopen : t₀.state.isTerminal = false) (hst : t.state = .failed) :
    Weak (tasks.insert k t) id j.countFailed := by
  have hle := h.counter_le
  refine h.insert_counted ht hj hid hopen rfl rfl ?_ ?_
  · simp [Job.countFailed]
  · simp only [hst, Job.countFailed, satSucc, if_true]; omega

variable (now) in
theorem settle (h : Weak tasks id j) : Weak tasks id (j.settle now) := by
  unfold Job.settle
  split
  · rename_i hs
    simp only [Job.settles, Bool.and_eq_true, decide_eq_true_eq] at hs
    exact ⟨h.total, h.small, h.completed, h.failed, fun _ => hs.1⟩
  · exact h

theorem start (h : Weak tasks id j) : Weak tasks id j.start := by
  unfold Job.start
  split
  · exact ⟨h.total, h.small, h.completed, h.failed, by intro hc; cases hc⟩
  · exact h

end Weak

end

variable {st : Store} {jobs : Table Job} {tasks : Table Task} {t t₀ : Task} {j j₀ : Job}

/-! ## Rows -/

/-- The columns written once, at creation, agree. -/
structure Task.SameOrigin (t t₀ : Task) : Prop where
  id : t.id = t₀.id
  jobId : t.jobId = t₀.jobId
  index : t.index = t₀.index
  spec : t.spec = t₀.spec

structure Job.SameOrigin (j j₀ : Job) : Prop where
  id : j.id = j₀.id
  spec : j.spec = j₀.spec
  taskCount : j.taskCount = j₀.taskCount
  createdAt : j.createdAt = j₀.createdAt

namespace Store

/-- Updating a row with a value of the same origin stores that value. -/
theorem taskColumns_eq (h : t.SameOrigin t₀) : taskColumns t t₀ = t := by
  obtain ⟨h₁, h₂, h₃, h₄⟩ := h
  cases t; cases t₀
  simp_all [taskColumns]

theorem jobColumns_eq (h : j.SameOrigin j₀) : jobColumns j j₀ = j := by
  obtain ⟨h₁, h₂, h₃, h₄⟩ := h
  cases j; cases j₀
  simp_all [jobColumns]

/-! ## What holds of any store the supervisor writes -/

structure Stored (st : Store) : Prop where
  keyed : st.Keyed
  unassigned : ∀ (id : TaskId) t, st.tasks[id]? = some t → t.state = .queued → t.assignedTo = none
  task_le : ∀ (id : TaskId) t, st.tasks[id]? = some t → id ≤ st.taskSeq
  job_le : ∀ (id : JobId) j, st.jobs[id]? = some j → id ≤ st.jobSeq
  owned : ∀ (id : TaskId) t, st.tasks[id]? = some t → ∃ j, st.jobs[t.jobId]? = some j
  weak : ∀ (id : JobId) j, st.jobs[id]? = some j → Weak st.tasks id j

theorem empty_stored : Store.empty.Stored where
  keyed := empty_keyed
  unassigned := by simp [empty]
  task_le := by simp [empty]
  job_le := by simp [empty]
  owned := by simp [empty]
  weak := by simp [empty]

/-- The store holds the rows in memory. -/
structure Holds (st : Store) (jobs : Table Job) (tasks : Table Task) : Prop where
  job : ∀ (id : JobId) j, jobs[id]? = some j → st.jobs[id]? = some j
  task : ∀ (id : TaskId) t, tasks[id]? = some t → st.tasks[id]? = some t

/-- And a job in memory has all of its tasks there. -/
structure Mirror (st : Store) (jobs : Table Job) (tasks : Table Task) : Prop extends
    Holds st jobs tasks where
  whole : ∀ (id : TaskId) t j, st.tasks[id]? = some t → jobs[t.jobId]? = some j → tasks[id]? = some t

theorem get_saveTask (ht : st.tasks[t.id]? = some t₀) (ho : t.SameOrigin t₀) (a : TaskId) :
    (st.saveTask t).tasks[a]? = if t.id = a then some t else st.tasks[a]? := by
  simp only [saveTask, Table.get_modify, ht, Option.map_some, taskColumns_eq ho]

theorem get_saveJob (hj : st.jobs[j.id]? = some j₀) (ho : j.SameOrigin j₀) (a : JobId) :
    (st.saveJob j).jobs[a]? = if j.id = a then some j else st.jobs[a]? := by
  simp only [saveJob, Table.get_modify, hj, Option.map_some, jobColumns_eq ho]

theorem saveTask_sameTasks (ht : st.tasks[t.id]? = some t₀) (ho : t.SameOrigin t₀) (id : JobId) :
    SameTasks (st.tasks.insert t.id t) (st.saveTask t).tasks id := by
  intro k u _
  rw [get_saveTask ht ho, Table.get_insert]

theorem Stored.saveTask (h : st.Stored) (ht : st.tasks[t.id]? = some t₀) (ho : t.SameOrigin t₀)
    (hopen : t₀.state.isTerminal = false) (hq : t.state = .queued → t.assignedTo = none) :
    (st.saveTask t).Stored := by
  have hrow (id : TaskId) (u : Task) (hu : (st.saveTask t).tasks[id]? = some u) :
      (t.id = id ∧ u = t) ∨ st.tasks[id]? = some u := by
    rw [get_saveTask ht ho] at hu
    split at hu
    · cases hu; exact .inl ⟨‹_›, rfl⟩
    · exact .inr hu
  refine ⟨⟨?_, h.keyed.job⟩, ?_, ?_, h.job_le, ?_, ?_⟩
  · intro id u hu
    rcases hrow id u hu with ⟨hid, rfl⟩ | hold
    · exact hid
    · exact h.keyed.task id u hold
  · intro id u hu
    rcases hrow id u hu with ⟨-, rfl⟩ | hold
    · exact hq
    · exact h.unassigned id u hold
  · intro id u hu
    rcases hrow id u hu with ⟨rfl, -⟩ | hold
    · exact h.task_le _ t₀ ht
    · exact h.task_le id u hold
  · intro id u hu
    rcases hrow id u hu with ⟨-, rfl⟩ | hold
    · rw [ho.jobId]; exact h.owned _ t₀ ht
    · exact h.owned id u hold
  · intro id j hj
    exact ((h.weak id j hj).insert ht ho.jobId hopen).congr (saveTask_sameTasks ht ho id)

theorem Mirror.saveTask (h : st.Mirror jobs tasks) (ht : tasks[t.id]? = some t₀)
    (ho : t.SameOrigin t₀) : (st.saveTask t).Mirror jobs (tasks.insert t.id t) := by
  have hget := get_saveTask (h.task _ _ ht) ho
  refine ⟨⟨h.job, ?_⟩, ?_⟩
  · intro id u hu
    rw [Table.get_insert] at hu
    rw [hget]
    split at hu
    · rw [if_pos ‹_›]; exact hu
    · rw [if_neg ‹_›]; exact h.task id u hu
  · intro id u j hu hj
    rw [hget] at hu
    rw [Table.get_insert]
    split at hu
    · rw [if_pos ‹_›]; exact hu
    · rw [if_neg ‹_›]; exact h.whole id u j hu hj

theorem Stored.saveJob (h : st.Stored) (hj : st.jobs[j.id]? = some j₀) (ho : j.SameOrigin j₀)
    (hweak : Weak st.tasks j.id j) : (st.saveJob j).Stored := by
  have hget := get_saveJob hj ho
  refine ⟨⟨h.keyed.task, ?_⟩, h.unassigned, h.task_le, ?_, ?_, ?_⟩
  · intro id k hk
    rw [hget] at hk
    split at hk
    · cases hk; assumption
    · exact h.keyed.job id k hk
  · intro id k hk
    rw [hget] at hk
    split at hk
    · subst id; exact h.job_le _ j₀ hj
    · exact h.job_le id k hk
  · intro id u hu
    obtain ⟨k, hk⟩ := h.owned id u hu
    rw [hget]
    split
    · exact ⟨j, rfl⟩
    · exact ⟨k, hk⟩
  · intro id k hk
    rw [hget] at hk
    split at hk
    · subst id; cases hk; exact hweak
    · exact h.weak id k hk

theorem Mirror.saveJob (h : st.Mirror jobs tasks) (hj : jobs[j.id]? = some j₀)
    (ho : j.SameOrigin j₀) : (st.saveJob j).Mirror (jobs.insert j.id j) tasks := by
  have hget := get_saveJob (h.job _ _ hj) ho
  refine ⟨⟨?_, h.task⟩, ?_⟩
  · intro id k hk
    rw [Table.get_insert] at hk
    rw [hget]
    split at hk
    · rw [if_pos ‹_›]; exact hk
    · rw [if_neg ‹_›]; exact h.job id k hk
  · intro id u k hu hk
    rw [Table.get_insert] at hk
    split at hk
    · rename_i hid
      exact h.whole id u j₀ hu (hid ▸ hj)
    · exact h.whole id u k hu hk

theorem Stored.transfer {st' : Store} (h : st.Stored) (hjobs : st'.jobs = st.jobs)
    (htasks : st'.tasks = st.tasks) (hjseq : st.jobSeq ≤ st'.jobSeq)
    (htseq : st.taskSeq ≤ st'.taskSeq) : st'.Stored := by
  refine ⟨⟨?_, ?_⟩, ?_, ?_, ?_, ?_, ?_⟩
  · rw [htasks]; exact h.keyed.task
  · rw [hjobs]; exact h.keyed.job
  · rw [htasks]; exact h.unassigned
  · rw [htasks]; exact fun id t ht => Nat.le_trans (h.task_le id t ht) htseq
  · rw [hjobs]; exact fun id j hj => Nat.le_trans (h.job_le id j hj) hjseq
  · rw [htasks, hjobs]; exact h.owned
  · rw [htasks, hjobs]; exact h.weak

theorem Mirror.transfer {st' : Store} (h : st.Mirror jobs tasks) (hjobs : st'.jobs = st.jobs)
    (htasks : st'.tasks = st.tasks) : st'.Mirror jobs tasks := by
  refine ⟨⟨?_, ?_⟩, ?_⟩
  · rw [hjobs]; exact h.job
  · rw [htasks]; exact h.task
  · rw [htasks]; exact h.whole

/-! ## Creating a job -/

theorem insertTasks (ts : List Task) (hnd : (ts.map Task.id).Nodup)
    (hnew : ∀ t ∈ ts, st.tasks[t.id]? = none) :
    ts.foldlM insertTask st = some { st with tasks := st.tasks.insertAll Task.id ts } := by
  induction ts generalizing st with
  | nil => rfl
  | cons t ts ih =>
      rw [List.map_cons, List.nodup_cons] at hnd
      have hfresh : st.tasks.contains t.id = false := by
        rw [Table.contains_eq_isSome, hnew t List.mem_cons_self]; rfl
      have hrest : ∀ u ∈ ts, (st.tasks.insert t.id t)[u.id]? = none := by
        intro u hu
        have hne : t.id ≠ u.id := fun he => hnd.1 (he ▸ List.mem_map_of_mem hu)
        rw [Table.get_insert_ne hne]
        exact hnew u (List.mem_cons_of_mem _ hu)
      rw [List.foldlM_cons, insertTask, hfresh]
      exact ih hnd.2 hrest

theorem createJob_eq {ts : List Task} (hj : st.jobs[j.id]? = none) (hnd : (ts.map Task.id).Nodup)
    (hnew : ∀ t ∈ ts, st.tasks[t.id]? = none) : st.perform (.createJob j ts) =
      { st with jobs := st.jobs.insert j.id j, tasks := st.tasks.insertAll Task.id ts } := by
  have hfresh : st.jobs.contains j.id = false := by
    rw [Table.contains_eq_isSome, hj]; rfl
  have hinsert : ts.foldlM insertTask { st with jobs := st.jobs.insert j.id j } = some
      { st with jobs := st.jobs.insert j.id j, tasks := st.tasks.insertAll Task.id ts } :=
    insertTasks ts hnd hnew
  simp only [perform, createJob, hfresh, Bool.false_eq_true, if_false, hinsert, Option.getD_some]

/-- The store with a new job and its tasks. -/
def withJob (st : Store) (j : Job) (ts : List Task) : Store :=
  { st with jobs := st.jobs.insert j.id j, tasks := st.tasks.insertAll Task.id ts }

/-- A row of the enlarged task table is new or was there. -/
theorem withJob_task {spec : JobSpec} {id first : Nat} {now : Millis} {k : TaskId}
    (ht : (st.withJob (Job.new id spec now) (Supervisor.newTasks spec id first now)).tasks[k]? = some t) :
    (∃ i sp, i < spec.taskCount ∧ t = Task.new (first + i) id i sp now ∧ k = first + i) ∨
      st.tasks[k]? = some t := by
  rcases Table.get_insertAll_some ht with ⟨hm, rfl⟩ | ⟨hold, _⟩
  · obtain ⟨i, sp, hi, rfl⟩ := Supervisor.mem_newTasks hm
    exact .inl ⟨i, sp, hi, rfl, rfl⟩
  · exact .inr hold

theorem Stored.withJob (h : st.Stored) {spec : JobSpec} {id first : Nat} {now : Millis}
    (hid : id ≤ st.jobSeq) (hfirst : first + spec.taskCount ≤ st.taskSeq + 1)
    (hjob : st.jobs[id]? = none) (hnew : ∀ i, st.tasks[first + i]? = none) :
    (st.withJob (Job.new id spec now) (Supervisor.newTasks spec id first now)).Stored := by
  refine ⟨⟨?_, ?_⟩, ?_, ?_, ?_, ?_, ?_⟩
  · intro k t ht
    rcases withJob_task ht with ⟨i, sp, -, rfl, rfl⟩ | hold
    · rfl
    · exact h.keyed.task k t hold
  · intro k j hj
    rw [Store.withJob, Table.get_insert] at hj
    split at hj
    · cases hj; assumption
    · exact h.keyed.job k j hj
  · intro k t ht
    rcases withJob_task ht with ⟨i, sp, -, rfl, rfl⟩ | hold
    · exact fun _ => rfl
    · exact h.unassigned k t hold
  · intro k t ht
    rcases withJob_task ht with ⟨i, sp, hi, rfl, rfl⟩ | hold
    · show first + i ≤ st.taskSeq
      omega
    · exact h.task_le k t hold
  · intro k j hj
    rw [Store.withJob, Table.get_insert] at hj
    split at hj
    · subst k; exact hid
    · exact h.job_le k j hj
  · intro k t ht
    rw [Store.withJob, Table.get_insert]
    split
    · exact ⟨_, rfl⟩
    · rename_i hne
      rcases withJob_task ht with ⟨i, sp, -, rfl, rfl⟩ | hold
      · exact absurd rfl hne
      · exact h.owned k t hold
  · intro k j hj
    rw [Store.withJob, Table.get_insert] at hj
    split at hj
    · subst k
      cases hj
      refine (Balanced.new ?_ hnew).weak
      rintro a t ht rfl
      obtain ⟨j, hj⟩ := h.owned a t ht
      rw [hjob] at hj
      cases hj
    · rename_i hne
      exact (h.weak k j hj).congr (sameTasks_insertAll _ hne hnew)

theorem Mirror.ahead (h : st.Mirror jobs tasks) (spec : JobSpec) {id first : Nat}
    (now : Millis) (hjob : st.jobs[id]? = none) (hnew : ∀ i, st.tasks[first + i]? = none) :
    (st.withJob (Job.new id spec now) (Supervisor.newTasks spec id first now)).Mirror jobs tasks := by
  have hjobs : jobs[id]? = none := by
    cases hj : jobs[id]? with
    | none => rfl
    | some j => rw [h.job id j hj] at hjob; cases hjob
  refine ⟨⟨?_, ?_⟩, ?_⟩
  · intro k j hj
    rw [Store.withJob, Table.get_insert_ne]
    · exact h.job k j hj
    · rintro rfl
      rw [show (Job.new id spec now).id = id from rfl, hjobs] at hj
      cases hj
  · intro k t ht
    have hold := h.task k t ht
    refine (Table.get_insertAll_ne ?_).trans hold
    intro u hu he
    obtain ⟨i, sp, -, rfl⟩ := Supervisor.mem_newTasks hu
    rw [← he] at hold
    change st.tasks[first + i]? = some t at hold
    rw [hnew i] at hold
    cases hold
  · intro k t j ht hj
    rcases withJob_task ht with ⟨i, sp, -, rfl, rfl⟩ | hold
    · change jobs[id]? = some j at hj
      rw [hjobs] at hj
      cases hj
    · exact h.whole k t j hold hj

theorem Mirror.withJob (h : st.Mirror jobs tasks) (hs : st.Stored) (spec : JobSpec) {id first : Nat}
    (now : Millis) (hjob : st.jobs[id]? = none) (hnew : ∀ i, st.tasks[first + i]? = none) :
    (st.withJob (Job.new id spec now) (Supervisor.newTasks spec id first now)).Mirror
      (jobs.insert id (Job.new id spec now))
      (tasks.insertAll Task.id (Supervisor.newTasks spec id first now)) := by
  have hahead := h.ahead spec now hjob hnew
  have hnd := Supervisor.newTasks_nodup spec id first now
  refine ⟨⟨?_, ?_⟩, ?_⟩
  · intro k j hj
    rw [Table.get_insert] at hj
    split at hj
    · subst k; cases hj; exact Table.get_insert_self
    · exact hahead.job k j hj
  · intro k t ht
    rcases Table.get_insertAll_some ht with ⟨hm, rfl⟩ | ⟨hold, _⟩
    · exact Table.get_insertAll_mem hnd hm
    · exact hahead.task k t hold
  · intro k t j ht hj
    rcases Table.get_insertAll_some ht with ⟨hm, rfl⟩ | ⟨hold, hne⟩
    · exact Table.get_insertAll_mem hnd hm
    · refine (Table.get_insertAll_ne hne).trans ?_
      rw [Table.get_insert] at hj
      split at hj
      · rename_i hid
        obtain ⟨j₀, hj₀⟩ := hs.owned k t hold
        rw [← hid, hjob] at hj₀
        cases hj₀
      · exact h.whole k t j hold hj

/-! ## Operations that take effect -/

/-- A task may be written: its row is there with the same origin and has not ended. -/
def Writable (st : Store) (t : Task) : Prop :=
  ∃ t₀, st.tasks[t.id]? = some t₀ ∧ t.SameOrigin t₀ ∧ t₀.state.isTerminal = false ∧
    (t.state = .queued → t.assignedTo = none)

/-- The operation finds the rows it is about. Only an open task is written directly. -/
def Applies (st : Store) : DurableOp → Prop
  | .createJob j ts => ∃ spec id first now, j = Job.new id spec now ∧
      ts = Supervisor.newTasks spec id first now ∧ st.jobs[id]? = none ∧
      ∀ i : Nat, st.tasks[first + i]? = none
  | .saveTask t => t.state.isTerminal = false ∧ st.Writable t
  | .queued (.task t) => st.Writable t
  | .queued (.job j) => ∃ j₀, st.jobs[j.id]? = some j₀ ∧ j.SameOrigin j₀ ∧ j₀.state.isTerminal = false
  | _ => True

end Store

/-- The write touches no job and no task row. -/
def Write.isAside : Write → Bool
  | .job _ | .task _ => false
  | _ => true

theorem Store.replay_aside (ws : List Write) (hws : ∀ w ∈ ws, w.isAside = true) :
    (st.replay (ws.map .queued)).jobs = st.jobs ∧ (st.replay (ws.map .queued)).tasks = st.tasks := by
  induction ws generalizing st with
  | nil => exact ⟨rfl, rfl⟩
  | cons w ws ih =>
      have hrest : ((st.drain w).replay (ws.map .queued)).jobs = (st.drain w).jobs ∧
          ((st.drain w).replay (ws.map .queued)).tasks = (st.drain w).tasks :=
        ih fun w' hw' => hws w' (List.mem_cons_of_mem _ hw')
      have hw := hws w List.mem_cons_self
      have hone : (st.drain w).jobs = st.jobs ∧ (st.drain w).tasks = st.tasks := by
        cases w <;> first | exact ⟨rfl, rfl⟩ | cases hw
      exact ⟨hrest.1.trans hone.1, hrest.2.trans hone.2⟩

namespace Supervisor

variable {s s' : Supervisor} {now : Millis} {st₀ : Store}

/-! ## Following a run -/

/-- The store the supervisor's operations lead to, applied in order. -/
def durable (st₀ : Store) (s : Supervisor) : Store := st₀.replay s.ops

/-- Each operation found the rows it is about, and left the store with what the memory held then. -/
def Followed (st₀ : Store) (journal : List JournalEntry) : Prop :=
  ∀ before e after, journal = before ++ e :: after →
    (st₀.replay (before.map JournalEntry.op)).Applies e.op ∧
    ((st₀.replay (before.map JournalEntry.op)).perform e.op).Stored ∧
    ((st₀.replay (before.map JournalEntry.op)).perform e.op).Holds e.jobs e.tasks

theorem Followed.concat {journal : List JournalEntry} {e : JournalEntry} (h : Followed st₀ journal)
    (happ : (st₀.replay (journal.map JournalEntry.op)).Applies e.op)
    (hstored : ((st₀.replay (journal.map JournalEntry.op)).perform e.op).Stored)
    (hholds : ((st₀.replay (journal.map JournalEntry.op)).perform e.op).Holds e.jobs e.tasks) :
    Followed st₀ (journal ++ [e]) := by
  intro before e' after hsplit
  rcases List.eq_nil_or_concat after with rfl | ⟨init, last, rfl⟩
  · obtain ⟨rfl, he⟩ := List.append_inj' hsplit rfl
    cases he
    exact ⟨happ, hstored, hholds⟩
  · rw [List.concat_eq_append, ← List.cons_append, ← List.append_assoc] at hsplit
    obtain ⟨hb, -⟩ := List.append_inj' hsplit rfl
    exact h before e' init hb

theorem Followed.applies {journal : List JournalEntry} (h : Followed st₀ journal)
    {before after : List DurableOp} {op : DurableOp}
    (hsplit : journal.map JournalEntry.op = before ++ op :: after) :
    (st₀.replay before).Applies op ∧ ((st₀.replay before).perform op).Stored := by
  obtain ⟨b, rest, rfl, rfl, hrest⟩ := List.map_eq_append_iff.mp hsplit
  obtain ⟨e, a, rfl, rfl, rfl⟩ := List.map_eq_cons_iff.mp hrest
  obtain ⟨happ, hstored, -⟩ := h b e a rfl
  exact ⟨happ, hstored⟩

/-- Cut anywhere, the operations leave a well-formed store. -/
theorem Followed.stored {journal : List JournalEntry} (h : Followed st₀ journal) (h₀ : st₀.Stored)
    {p : List DurableOp} (hp : p <+: journal.map JournalEntry.op) : (st₀.replay p).Stored := by
  rcases List.eq_nil_or_concat p with rfl | ⟨before, op, rfl⟩
  · exact h₀
  · obtain ⟨after, hafter⟩ := hp
    rw [List.concat_eq_append, List.append_assoc] at hafter
    rw [List.concat_eq_append, Store.replay_concat]
    exact (h.applies hafter.symm).2

/-- The store holds what the memory holds, and has all along. -/
structure Follows (st₀ : Store) (s : Supervisor) : Prop where
  holds : (s.durable st₀).Holds s.jobs s.tasks
  stored : (s.durable st₀).Stored
  jobSeq : (s.durable st₀).jobSeq = s.jobSeq
  taskSeq : (s.durable st₀).taskSeq = s.taskSeq
  past : Followed st₀ s.journal

/-- And a job in memory has all of its tasks there. -/
structure Tracks (st₀ : Store) (s : Supervisor) : Prop extends Follows st₀ s where
  whole : ∀ (id : TaskId) t j, (s.durable st₀).tasks[id]? = some t → s.jobs[t.jobId]? = some j →
    s.tasks[id]? = some t

theorem Tracks.mirror (h : s.Tracks st₀) : (s.durable st₀).Mirror s.jobs s.tasks := ⟨h.holds, h.whole⟩

theorem Tracks.of_mirror (h : s.Follows st₀) (hm : (s.durable st₀).Mirror s.jobs s.tasks) :
    s.Tracks st₀ := ⟨h, hm.whole⟩

namespace Follows

variable (st₀) in
theorem durable_concat {e : JournalEntry} (hj : s'.journal = s.journal ++ [e]) :
    s'.durable st₀ = (s.durable st₀).perform e.op := by
  simp only [durable, ops, hj, List.map_append, List.map_cons, List.map_nil, Store.replay_concat]

theorem issue (h : s.Follows st₀) {e : JournalEntry} (hj : s'.journal = s.journal ++ [e])
    (happ : (s.durable st₀).Applies e.op)
    (hsnap : ((s.durable st₀).perform e.op).Holds e.jobs e.tasks)
    (hholds : ((s.durable st₀).perform e.op).Holds s'.jobs s'.tasks)
    (hstored : ((s.durable st₀).perform e.op).Stored)
    (hjobs : ((s.durable st₀).perform e.op).jobSeq = s'.jobSeq)
    (htasks : ((s.durable st₀).perform e.op).taskSeq = s'.taskSeq) : s'.Follows st₀ := by
  have hd := durable_concat st₀ hj
  exact ⟨hd ▸ hholds, hd ▸ hstored, hd ▸ hjobs, hd ▸ htasks,
    hj ▸ h.past.concat happ hstored hsnap⟩

theorem jobKey (h : s.Follows st₀) (id : JobId) (j : Job) (hj : s.jobs[id]? = some j) : j.id = id :=
  h.stored.keyed.job id j (h.holds.job id j hj)

theorem silent (h : s.Follows st₀) (hj : s'.journal = s.journal)
    (hholds : (s.durable st₀).Holds s'.jobs s'.tasks) (hjobs : s'.jobSeq = s.jobSeq)
    (htasks : s'.taskSeq = s.taskSeq) : s'.Follows st₀ := by
  have hd : s'.durable st₀ = s.durable st₀ := by simp only [durable, ops, hj]
  exact ⟨hd ▸ hholds, hd ▸ h.stored, by rw [hd, hjobs]; exact h.jobSeq,
    by rw [hd, htasks]; exact h.taskSeq, hj ▸ h.past⟩

end Follows

namespace Tracks

theorem issue (h : s.Tracks st₀) {e : JournalEntry} (hj : s'.journal = s.journal ++ [e])
    (happ : (s.durable st₀).Applies e.op)
    (hsnap : ((s.durable st₀).perform e.op).Mirror e.jobs e.tasks)
    (hmirror : ((s.durable st₀).perform e.op).Mirror s'.jobs s'.tasks)
    (hstored : ((s.durable st₀).perform e.op).Stored)
    (hjobs : ((s.durable st₀).perform e.op).jobSeq = s'.jobSeq)
    (htasks : ((s.durable st₀).perform e.op).taskSeq = s'.taskSeq) : s'.Tracks st₀ :=
  .of_mirror (h.toFollows.issue hj happ hsnap.toHolds hmirror.toHolds hstored hjobs htasks)
    (Follows.durable_concat st₀ hj ▸ hmirror)

/-- No operation; the memory may lose rows of whole jobs. -/
theorem silent (h : s.Tracks st₀) (hj : s'.journal = s.journal)
    (hmirror : (s.durable st₀).Mirror s'.jobs s'.tasks) (hjobs : s'.jobSeq = s.jobSeq)
    (htasks : s'.taskSeq = s.taskSeq) : s'.Tracks st₀ := by
  have hd : s'.durable st₀ = s.durable st₀ := by simp only [durable, ops, hj]
  exact .of_mirror (h.toFollows.silent hj hmirror.toHolds hjobs htasks) (hd ▸ hmirror)

theorem frame (h : s.Tracks st₀) (hj : s'.journal = s.journal) (hjobs : s'.jobs = s.jobs)
    (htasks : s'.tasks = s.tasks) (hjseq : s'.jobSeq = s.jobSeq) (htseq : s'.taskSeq = s.taskSeq) :
    s'.Tracks st₀ :=
  h.silent hj (by rw [hjobs, htasks]; exact h.mirror) hjseq htseq

/-- A failure, an event or roles: no job and no task row is touched. -/
theorem write (h : s.Tracks st₀) {w : Write} {e : JournalEntry}
    (hj : s'.journal = s.journal ++ [e]) (he : e = ⟨.queued w, s.jobs, s.tasks⟩)
    (hw : w.isAside = true)
    (hjobs : s'.jobs = s.jobs) (htasks : s'.tasks = s.tasks)
    (hjseq : s'.jobSeq = s.jobSeq) (htseq : s'.taskSeq = s.taskSeq) : s'.Tracks st₀ := by
  subst he
  have hst : ((s.durable st₀).perform (.queued w)).jobs = (s.durable st₀).jobs ∧
      ((s.durable st₀).perform (.queued w)).tasks = (s.durable st₀).tasks ∧
      ((s.durable st₀).perform (.queued w)).jobSeq = (s.durable st₀).jobSeq ∧
      ((s.durable st₀).perform (.queued w)).taskSeq = (s.durable st₀).taskSeq := by
    cases w <;> first | exact ⟨rfl, rfl, rfl, rfl⟩ | cases hw
  obtain ⟨hsj, hst, hsjs, hsts⟩ := hst
  have hmirror : ((s.durable st₀).perform (.queued w)).Mirror s.jobs s.tasks :=
    h.mirror.transfer hsj hst
  have happ : (s.durable st₀).Applies (.queued w) := by
    cases w <;> trivial
  refine h.issue hj happ hmirror (by rw [hjobs, htasks]; exact hmirror) ?_ ?_ ?_
  · exact h.stored.transfer hsj hst (Nat.le_of_eq hsjs.symm) (Nat.le_of_eq hsts.symm)
  · rw [hsjs, hjseq]; exact h.jobSeq
  · rw [hsts, htseq]; exact h.taskSeq

theorem emit (h : s.Tracks st₀) (ev : ClusterEvent) : (s.emit now ev).Tracks st₀ :=
  h.write (w := .event ⟨s.eventSeq + 1, now, ev⟩) (emit_journal s now ev) rfl rfl rfl rfl rfl rfl

theorem recordFailure (h : s.Tracks st₀) (t : Task) (reason : FailureReason) (detail : String) :
    (s.recordFailure now t reason detail).Tracks st₀ :=
  h.write (w := .failure (TaskAttempt.new t reason detail now)) rfl rfl rfl rfl rfl rfl rfl

/-- An open task is written back, in memory and to the store. -/
theorem task (h : s.Tracks st₀) {op : DurableOp}
    (hop : op = .queued (.task t) ∨ (op = .saveTask t ∧ t.state.isTerminal = false))
    (ht : s.tasks[t.id]? = some t₀) (ho : t.SameOrigin t₀) (hopen : t₀.state.isTerminal = false)
    (hq : t.state = .queued → t.assignedTo = none) : ((s.putTask t).issue op).Tracks st₀ := by
  have hrow := h.holds.task _ _ ht
  have hperform : (s.durable st₀).perform op = (s.durable st₀).saveTask t := by
    rcases hop with rfl | ⟨rfl, -⟩ <;> rfl
  have happ : (s.durable st₀).Applies op := by
    rcases hop with rfl | ⟨rfl, hnt⟩
    · exact ⟨t₀, hrow, ho, hopen, hq⟩
    · exact ⟨hnt, t₀, hrow, ho, hopen, hq⟩
  have hmirror := h.mirror.saveTask ht ho
  have hstored := h.stored.saveTask hrow ho hopen hq
  refine h.issue (e := ⟨op, s.jobs, s.tasks.insert t.id t⟩) rfl happ ?_ ?_ ?_ ?_ ?_
  · rw [hperform]; exact hmirror
  · rw [hperform]; exact hmirror
  · rw [hperform]; exact hstored
  · rw [hperform]; exact h.jobSeq
  · rw [hperform]; exact h.taskSeq

theorem saveTask (h : s.Tracks st₀) (ht : s.tasks[t.id]? = some t₀) (ho : t.SameOrigin t₀)
    (hopen : t₀.state.isTerminal = false) (hq : t.state = .queued → t.assignedTo = none) :
    ((s.putTask t).persistTask t).Tracks st₀ := h.task (.inl rfl) ht ho hopen hq

/-- A job that has not ended is written back, in memory and to the store. -/
theorem saveJob (h : s.Tracks st₀) (hj : s.jobs[j.id]? = some j₀) (ho : j.SameOrigin j₀)
    (hopen : j₀.state.isTerminal = false) (hweak : Weak (s.durable st₀).tasks j.id j) :
    ((s.putJob j.id j).persistJob j).Tracks st₀ := by
  have hrow := h.holds.job _ _ hj
  have hmirror := h.mirror.saveJob hj ho
  have hstored := h.stored.saveJob hrow ho hweak
  exact h.issue (e := ⟨.queued (.job j), s.jobs.insert j.id j, s.tasks⟩) rfl ⟨j₀, hrow, ho, hopen⟩
    hmirror hmirror hstored h.jobSeq h.taskSeq

theorem updateJob (h : s.Tracks st₀) (id : JobId) {f : Job → Job} (hf : ∀ j, (f j).SameOrigin j)
    (hopen : ∀ j, s.jobs[id]? = some j → j.state.isTerminal = false)
    (hweak : ∀ j, s.jobs[id]? = some j → Weak (s.durable st₀).tasks id (f j)) :
    (s.updateJob id f).Tracks st₀ := by
  unfold Supervisor.updateJob
  cases hj : s.jobs[id]? with
  | none => exact h
  | some j =>
      have hid : (f j).id = id := (hf j).id.trans (h.jobKey id j hj)
      have hsave := h.saveJob (j := f j) (by rw [hid]; exact hj) (hf j) (hopen j hj)
        (by rw [hid]; exact hweak j hj)
      rw [hid] at hsave
      exact hsave

theorem startJob (h : s.Tracks st₀) (id : JobId) : (s.startJobIfQueued now id).Tracks st₀ := by
  by_cases hq : ∃ j, s.jobs[id]? = some j ∧ j.state = .queued
  · obtain ⟨j, hj, hq⟩ := hq
    have hid : j.startedAt.id = id := h.jobKey id j hj
    rw [startJobIfQueued_some hj hq]
    have hweak : Weak (s.durable st₀).tasks id j.startedAt := by
      have hstart := (h.stored.weak id j (h.holds.job id j hj)).start
      rwa [Job.start, if_pos hq] at hstart
    have hrow : s.jobs[j.startedAt.id]? = some j := by rw [hid]; exact hj
    have hsave := h.saveJob hrow ⟨rfl, rfl, rfl, rfl⟩
      (by rw [hq]; rfl) (by rw [hid]; exact hweak)
    rw [hid] at hsave
    exact hsave
  · rw [startJobIfQueued_skip fun j hj hs => hq ⟨j, hj, hs⟩]
    exact h

theorem settleJob (h : s.Tracks st₀) (id : JobId) : (s.settleJob now id).Tracks st₀ := by
  by_cases hs : ∃ j, s.jobs[id]? = some j ∧ j.settles = true
  · obtain ⟨j, hj, hs⟩ := hs
    have hid : (j.settledAt now).id = id := h.jobKey id j hj
    rw [settleJob_some hj hs]
    have hweak : Weak (s.durable st₀).tasks id (j.settledAt now) := by
      have hsettle := (h.stored.weak id j (h.holds.job id j hj)).settle now
      rwa [Job.settle, if_pos hs] at hsettle
    have hrow : s.jobs[(j.settledAt now).id]? = some j := by rw [hid]; exact hj
    have hsave := h.saveJob hrow ⟨rfl, rfl, rfl, rfl⟩
      (Job.settles_not_terminal hs) (by rw [hid]; exact hweak)
    rw [hid] at hsave
    exact hsave.emit _
  · rw [settleJob_skip fun j hj => by simpa using fun hset => hs ⟨j, hj, hset⟩]
    exact h

theorem reserveJob (h : s.Tracks st₀) : s.reserveJob.Tracks st₀ := by
  have hmirror : ((s.durable st₀).perform .reserveJob).Mirror s.jobs s.tasks := h.mirror.transfer rfl rfl
  refine h.issue (e := ⟨.reserveJob, s.jobs, s.tasks⟩) rfl trivial hmirror hmirror ?_ ?_ h.taskSeq
  · exact h.stored.transfer rfl rfl (Nat.le_succ _) (Nat.le_refl _)
  · exact congrArg (· + 1) h.jobSeq

theorem reserveTasks (h : s.Tracks st₀) (count : Nat) :
    (s.reserveTasks count).Tracks st₀ := by
  have hmirror : ((s.durable st₀).perform (.reserveTasks count)).Mirror s.jobs s.tasks :=
    h.mirror.transfer rfl rfl
  refine h.issue (e := ⟨.reserveTasks count, s.jobs, s.tasks⟩) rfl trivial hmirror hmirror ?_ h.jobSeq ?_
  · exact h.stored.transfer rfl rfl (Nat.le_refl _) (Nat.le_add_right _ _)
  · exact congrArg (· + max count 1) h.taskSeq

theorem durable_issue (op : DurableOp) : (s.issue op).durable st₀ = (s.durable st₀).perform op := by
  simp only [durable, issue_ops, Store.replay_concat]

variable (s st₀) in
theorem durable_reserved (count : Nat) :
    ((s.reserveJob.reserveTasks count).durable st₀).jobs = (s.durable st₀).jobs ∧
    ((s.reserveJob.reserveTasks count).durable st₀).tasks = (s.durable st₀).tasks := by
  have hj : s.reserveJob.durable st₀ = (s.durable st₀).perform .reserveJob :=
    durable_issue (s := { s with jobSeq := s.jobSeq + 1 }) .reserveJob
  have ht : (s.reserveJob.reserveTasks count).durable st₀ =
      (s.reserveJob.durable st₀).perform (.reserveTasks count) :=
    durable_issue (s := { s.reserveJob with taskSeq := s.reserveJob.taskSeq + max count 1 })
      (.reserveTasks count)
  rw [ht, hj]
  exact ⟨rfl, rfl⟩

theorem enrol (h : s.Tracks st₀) (spec : JobSpec) : (s.enrol now spec).Tracks st₀ := by
  -- The ids are reserved first, so the store has nothing under them when the job is created.
  obtain ⟨hdj, hdt⟩ := durable_reserved s st₀ spec.split.length
  have hr := h.reserveJob.reserveTasks spec.split.length
  have hfields : (s.reserveJob.reserveTasks spec.split.length).jobs = s.jobs ∧
      (s.reserveJob.reserveTasks spec.split.length).tasks = s.tasks ∧
      (s.reserveJob.reserveTasks spec.split.length).jobSeq = s.jobSeq + 1 ∧
      (s.reserveJob.reserveTasks spec.split.length).taskSeq =
        s.taskSeq + max spec.split.length 1 := by simp
  have henrol : s.enrol now spec = ({ (s.reserveJob.reserveTasks spec.split.length).issue
        (.createJob (Job.new (s.jobSeq + 1) spec now) (s.nextTasks now spec)) with
      jobs := s.jobs.insert (s.jobSeq + 1) (Job.new (s.jobSeq + 1) spec now)
      queue := s.queue ++ (s.nextTasks now spec).map Task.id
      tasks := s.tasks.insertAll Task.id (s.nextTasks now spec) } : Supervisor).emit now
        (.jobCreated (s.jobSeq + 1)) := by
    unfold Supervisor.enrol
    simp only [enqueue_all]
    rfl
  rw [henrol]
  refine Tracks.emit ?_ _
  generalize s.reserveJob.reserveTasks spec.split.length = r at hr hdj hdt hfields ⊢
  obtain ⟨hrj, hrt, hrjs, hrts⟩ := hfields
  have hjob : (r.durable st₀).jobs[s.jobSeq + 1]? = none := by
    rw [hdj]
    cases hj : (s.durable st₀).jobs[s.jobSeq + 1]? with
    | none => rfl
    | some j =>
        have hle := h.stored.job_le _ j hj
        rw [h.jobSeq] at hle
        exact absurd hle (Nat.not_succ_le_self _)
  have hnew (i : Nat) : (r.durable st₀).tasks[s.taskSeq + 1 + i]? = none := by
    rw [hdt]
    cases ht : (s.durable st₀).tasks[s.taskSeq + 1 + i]? with
    | none => rfl
    | some t =>
        have hle : s.taskSeq + 1 + i ≤ (s.durable st₀).taskSeq := h.stored.task_le _ t ht
        rw [h.taskSeq] at hle
        omega
  have hcreate : (r.durable st₀).perform
      (.createJob (Job.new (s.jobSeq + 1) spec now) (s.nextTasks now spec)) =
        (r.durable st₀).withJob (Job.new (s.jobSeq + 1) spec now) (s.nextTasks now spec) := by
    refine Store.createJob_eq hjob (newTasks_nodup ..) ?_
    intro t ht
    obtain ⟨i, sp, -, rfl⟩ := mem_newTasks ht
    exact hnew i
  have hstored : ((r.durable st₀).withJob (Job.new (s.jobSeq + 1) spec now)
      (s.nextTasks now spec)).Stored := by
    refine hr.stored.withJob ?_ ?_ hjob hnew
    · rw [hr.jobSeq, hrjs]
    · have hmax := Nat.le_max_left spec.taskCount 1
      rw [hr.taskSeq, hrts, spec.split_length]
      omega
  refine hr.issue (e := ⟨.createJob (Job.new (s.jobSeq + 1) spec now) (s.nextTasks now spec),
    r.jobs, r.tasks⟩) rfl ⟨spec, s.jobSeq + 1, s.taskSeq + 1, now, rfl, rfl, hjob, hnew⟩ ?_ ?_ ?_ ?_ ?_
  · rw [hcreate]
    exact hr.mirror.ahead spec now hjob hnew
  · have hboth := hr.mirror.withJob hr.stored spec now hjob hnew
    rw [hrj, hrt] at hboth
    rw [hcreate]
    exact hboth
  · rw [hcreate]; exact hstored
  · rw [hcreate]; exact hr.jobSeq
  · rw [hcreate]; exact hr.taskSeq

theorem prune (h : s.Tracks st₀) : s.pruneMemory.Tracks st₀ := by
  have hf := prune_frame s
  refine h.silent (prune_journal s) ⟨⟨?_, ?_⟩, ?_⟩ hf.jobSeq hf.taskSeq
  · intro id j hj
    rw [prune_jobs] at hj
    split at hj
    · cases hj
    · exact h.mirror.job id j hj
  · intro id t ht
    rw [prune_tasks] at ht
    exact h.mirror.task id t (Option.filter_eq_some_iff.mp ht).1
  · intro id t j ht hj
    rw [prune_jobs] at hj
    split at hj
    · cases hj
    · rename_i hkeep
      rw [prune_tasks]
      exact Option.filter_eq_some_iff.mpr ⟨h.mirror.whole id t j ht hj, by simpa using hkeep⟩

end Tracks

/-! ## Moves -/

/-- Writes aside, one after the other, the tables staying as they are. -/
theorem Tracks.writes (ws : List Write) (hws : ∀ w ∈ ws, w.isAside = true) (h : s.Tracks st₀) :
    { s with journal := s.journal ++
      (ws.map (fun w => ⟨.queued w, s.jobs, s.tasks⟩) : List JournalEntry) }.Tracks st₀ := by
  induction ws generalizing s with
  | nil => exact h.frame (by simp) rfl rfl rfl rfl
  | cons w ws ih =>
      have hone : { s with journal := s.journal ++
          [(⟨.queued w, s.jobs, s.tasks⟩ : JournalEntry)] }.Tracks st₀ :=
        h.write (w := w) rfl rfl (hws w List.mem_cons_self) rfl rfl rfl rfl
      have hrest := ih (fun w' hw' => hws w' (List.mem_cons_of_mem _ hw')) hone
      exact hrest.frame (by simp) rfl rfl rfl rfl

theorem Write.isQuiet_aside {w : Write} (h : w.isQuiet = true) : w.isAside = true := by
  cases w <;> first | rfl | cases h

theorem Tracks.owner_open (h : s.Tracks st₀) {id : TaskId} (ht : s.tasks[id]? = some t)
    (hopen : t.state.isTerminal = false) (hj : s.jobs[t.jobId]? = some j) :
    j.state.isTerminal = false := by
  by_contra hterm
  have hweak := h.stored.weak _ j (h.holds.job _ j hj)
  rw [hweak.ended (by simpa using hterm) id t (h.holds.task id t ht) rfl] at hopen
  cases hopen

theorem durable_saved (t : Task) : (((s.putTask t).persistTask t).durable st₀).tasks =
    ((s.durable st₀).saveTask t).tasks := by
  rw [durable, persistTask_ops, putTask_ops, Store.replay_concat]
  rfl

theorem durable_saved_emit (t : Task) (ev : ClusterEvent) :
    ((((s.putTask t).persistTask t).emit now ev).durable st₀).tasks =
      ((s.durable st₀).saveTask t).tasks := by
  rw [durable, emit_ops, persistTask_ops, putTask_ops, Store.replay_concat, Store.replay_concat]
  rfl

theorem Quiet.tracks (h : s.Tracks st₀) (hq : Quiet s s') : s'.Tracks st₀ := by
  obtain ⟨ws, hws, hj⟩ := hq.journal
  have hall := h.writes ws fun w hw => Write.isQuiet_aside (hws w hw)
  exact hall.frame hj hq.jobs hq.tasks hq.jobSeq hq.taskSeq

theorem Bounce.tracks (h : s.Tracks st₀) (hb : Bounce now s s') : s'.Tracks st₀ := by
  cases hb with
  | @intro t rest n e c hq ht hst =>
      have hframe : { s with queue := t.id :: rest }.Tracks st₀ := h.frame rfl rfl rfl rfl rfl
      exact hframe.task (t := (t.assignedOn n now).requeuedAt now) (.inr ⟨rfl, rfl⟩) ht
        ⟨rfl, rfl, rfl, rfl⟩ (by rw [hst]; rfl) fun _ => rfl

theorem Move.tracks (h : s.Tracks st₀) (hm : Move now s s') : s'.Tracks st₀ := by
  cases hm with
  | drop => exact h.frame rfl rfl rfl rfl rfl
  | @place t rest n e c m hq ht hst =>
      have hframe : { s with queue := rest, mailboxes := Function.update s.mailboxes c m }.Tracks
          st₀ := h.frame rfl rfl rfl rfl rfl
      have hsave := hframe.saveTask (t := t.assignedOn n now) ht ⟨rfl, rfl, rfl, rfl⟩
        (by rw [hst]; rfl) (by intro hq; cases hq)
      exact (hsave.startJob t.jobId).emit _
  | @start t n ht hst =>
      exact h.saveTask (t := t.startedAt now) ht ⟨rfl, rfl, rfl, rfl⟩ (by rw [hst]; rfl)
        (by intro hq; cases hq)
  | @complete t n output ht hst =>
      have hopen : t.state.isTerminal = false := by rw [hst]; rfl
      have hsave := h.saveTask (t := t.completedAt output now) ht ⟨rfl, rfl, rfl, rfl⟩ hopen
        (by intro hq; cases hq)
      have hemit : (((s.putTask (t.completedAt output now)).persistTask (t.completedAt output now)).emit now
          (.taskCompleted t.id n)).Tracks st₀ := hsave.emit _
      have hcount := hemit.updateJob t.jobId
        (f := Job.countCompleted) (fun _ => ⟨rfl, rfl, rfl, rfl⟩) (fun j hj => h.owner_open ht hopen hj) ?_
      rotate_left
      · intro j hj
        rw [durable_saved_emit]
        have hweak := h.stored.weak _ j (h.holds.job _ j hj)
        refine (hweak.countCompleted (t := t.completedAt output now) (h.holds.task _ _ ht) rfl rfl
          hopen rfl).congr ?_
        exact Store.saveTask_sameTasks (t := t.completedAt output now) (h.holds.task _ _ ht)
          ⟨rfl, rfl, rfl, rfl⟩ _
      exact hcount.settleJob t.jobId
  | @retry t n reason detail ht hheld =>
      have hnote : (s.noteFailure now n t reason detail).Tracks st₀ :=
        (h.recordFailure t reason detail).emit _
      have hf := noteFailure_frame s now n t reason detail
      have ht' : (s.noteFailure now n t reason detail).tasks[t.id]? = some t := by rw [hf.tasks]; exact ht
      have hsave := hnote.saveTask (t := t.requeuedAt now) ht' ⟨rfl, rfl, rfl, rfl⟩ (TaskState.held_not_terminal hheld) fun _ => rfl
      refine Tracks.emit ?_ _
      exact hsave.frame rfl rfl rfl rfl rfl
  | @giveUp t n reason detail ht hheld =>
      have hnote : (s.noteFailure now n t reason detail).Tracks st₀ :=
        (h.recordFailure t reason detail).emit _
      have hf := noteFailure_frame s now n t reason detail
      have hopen := TaskState.held_not_terminal hheld
      have ht' : (s.noteFailure now n t reason detail).tasks[t.id]? = some t := by rw [hf.tasks]; exact ht
      have hsave := hnote.saveTask (t := t.failedAt now) ht' ⟨rfl, rfl, rfl, rfl⟩ hopen
        (by intro hq; cases hq)
      have hcount := hsave.updateJob t.jobId (f := Job.countFailed) (fun _ => ⟨rfl, rfl, rfl, rfl⟩)
        (fun j hj => hnote.owner_open ht' hopen hj) ?_
      rotate_left
      · intro j hj
        rw [durable_saved]
        have hrow := hnote.holds.task _ _ ht'
        have hweak := hnote.stored.weak _ j (hnote.holds.job _ j hj)
        refine (hweak.countFailed (t := t.failedAt now) hrow rfl rfl hopen rfl).congr ?_
        exact Store.saveTask_sameTasks (t := t.failedAt now) hrow ⟨rfl, rfl, rfl, rfl⟩ _
      exact hcount.settleJob t.jobId
  | reserveJob => exact h.reserveJob
  | reserveTasks count => exact h.reserveTasks count
  | enrol spec => exact h.enrol spec
  | prune => exact h.prune

theorem Change.tracks (h : s.Tracks st₀) (hc : Change now s s') : s'.Tracks st₀ := by
  rcases hc with (hm | hq) | hb
  · exact hm.tracks h
  · exact hq.tracks h
  · exact hb.tracks h

theorem Changes.tracks (h : s.Tracks st₀) (hc : Changes now s s') : s'.Tracks st₀ := by
  induction hc with
  | refl => exact h
  | tail _ hstep ih => exact hstep.tracks ih

theorem handle_tracks (hw : s.Wf) (h : s.Tracks st₀) (i : Input) : (s.handle now i).Tracks st₀ :=
  Changes.tracks h (handle_changes _ hw i)

/-! ## Startup -/

namespace Follows

variable (now) in
/-- One task of a restored job is taken into memory, written back first if it goes on the queue. -/
theorem restoreTask (h : s.Follows st₀) (hrow : (s.durable st₀).tasks[t.id]? = some t)
    (hnew : s.tasks[t.id]? = none) (unfinished : Bool) :
    (Supervisor.restoreTask now unfinished s t).Follows st₀ ∧
    ((Supervisor.restoreTask now unfinished s t).durable st₀).jobs = (s.durable st₀).jobs ∧
    ∀ k : TaskId, k ≠ t.id →
      ((Supervisor.restoreTask now unfinished s t).durable st₀).tasks[k]? =
        (s.durable st₀).tasks[k]? := by
  unfold Supervisor.restoreTask
  split
  · rename_i hreset
    have hopen : t.state.isTerminal = false := by
      simp only [Bool.and_eq_true, Bool.not_eq_true'] at hreset
      exact hreset.2
    have ho : (t.resetAt now).SameOrigin t := ⟨rfl, rfl, rfl, rfl⟩
    have hget := Store.get_saveTask (t := t.resetAt now) hrow ho
    have hother (k : TaskId) (hk : k ≠ t.id) :
        ((s.durable st₀).saveTask (t.resetAt now)).tasks[k]? = (s.durable st₀).tasks[k]? := by
      rw [hget]
      exact if_neg fun he => hk he.symm
    have hsnap : ((s.durable st₀).saveTask (t.resetAt now)).Holds s.jobs s.tasks := by
      refine ⟨h.holds.job, ?_⟩
      intro k u hu
      rw [hother k (by rintro rfl; rw [hnew] at hu; cases hu)]
      exact h.holds.task k u hu
    have hd (s' : Supervisor)
        (hj : s'.journal = s.journal ++ [⟨.saveTask (t.resetAt now), s.jobs, s.tasks⟩]) :
        s'.durable st₀ = (s.durable st₀).saveTask (t.resetAt now) := durable_concat _ hj
    refine ⟨?_, ?_, ?_⟩
    · refine h.issue (e := ⟨.saveTask (t.resetAt now), s.jobs, s.tasks⟩) rfl
        ⟨rfl, t, hrow, ho, hopen, fun _ => rfl⟩ hsnap ⟨h.holds.job, ?_⟩
        (h.stored.saveTask hrow ho hopen fun _ => rfl) h.jobSeq h.taskSeq
      intro k u hu
      change (s.tasks.insert t.id (t.resetAt now))[k]? = some u at hu
      rw [Table.get_insert] at hu
      split at hu
      · subst k
        cases hu
        exact (hget t.id).trans (if_pos rfl)
      · exact hsnap.task k u hu
    · dsimp only
      rw [hd _ rfl]
      rfl
    · intro k hk
      exact (congrArg (fun st : Store => st.tasks[k]?) (hd _ rfl)).trans (hother k hk)
  · refine ⟨h.silent rfl ⟨h.holds.job, ?_⟩ rfl rfl, rfl, fun _ _ => rfl⟩
    intro k u hu
    change (s.tasks.insert t.id t)[k]? = some u at hu
    rw [Table.get_insert] at hu
    split at hu
    · subst k; cases hu; exact hrow
    · exact h.holds.task k u hu

variable (now) in
theorem restoreTasks (ts : List Task) (h : s.Follows st₀) (hnd : (ts.map Task.id).Nodup)
    (hrow : ∀ t ∈ ts, (s.durable st₀).tasks[t.id]? = some t) (hnew : ∀ t ∈ ts, s.tasks[t.id]? = none)
    (unfinished : Bool) :
    (ts.foldl (Supervisor.restoreTask now unfinished) s).Follows st₀ ∧
    ((ts.foldl (Supervisor.restoreTask now unfinished) s).durable st₀).jobs = (s.durable st₀).jobs ∧
    ∀ k : TaskId, k ∉ ts.map Task.id →
      ((ts.foldl (Supervisor.restoreTask now unfinished) s).durable st₀).tasks[k]? =
        (s.durable st₀).tasks[k]? := by
  induction ts generalizing s with
  | nil => exact ⟨h, rfl, fun _ _ => rfl⟩
  | cons t ts ih =>
      rw [List.map_cons, List.nodup_cons] at hnd
      obtain ⟨hone, hjobs, hkept⟩ := h.restoreTask now (hrow t List.mem_cons_self)
        (hnew t List.mem_cons_self) unfinished
      have hne (u : Task) (hu : u ∈ ts) : u.id ≠ t.id := fun he => hnd.1 (he ▸ List.mem_map_of_mem hu)
      obtain ⟨hall, hjobs', hkept'⟩ := ih hone hnd.2
        (fun u hu => (hkept u.id (hne u hu)).trans (hrow u (List.mem_cons_of_mem _ hu)))
        (fun u hu => by
          have htable : (Supervisor.restoreTask now unfinished s t).tasks[u.id]? = s.tasks[u.id]? := by
            unfold Supervisor.restoreTask
            split <;> exact Table.get_insert_ne (Ne.symm (hne u hu))
          rw [htable]
          exact hnew u (List.mem_cons_of_mem _ hu))
      refine ⟨hall, hjobs'.trans hjobs, ?_⟩
      intro k hk
      rw [List.map_cons, List.mem_cons, not_or] at hk
      exact (hkept' k hk.2).trans (hkept k hk.1)

/-- Jobs are loaded with their tasks, one after the other. -/
theorem restoreAll (rs : List (Job × List Task)) (h : s.Follows st₀)
    (hnd : (rs.flatMap fun r => r.2.map Task.id).Nodup)
    (hjob : ∀ r ∈ rs, (s.durable st₀).jobs[r.1.id]? = some r.1)
    (hrow : ∀ r ∈ rs, ∀ t ∈ r.2, (s.durable st₀).tasks[t.id]? = some t)
    (hnew : ∀ r ∈ rs, ∀ t ∈ r.2, s.tasks[t.id]? = none) :
    (rs.foldl (restoreJob now) s).Follows st₀ := by
  induction rs generalizing s with
  | nil => exact h
  | cons r rs ih =>
      rw [List.flatMap_cons, List.nodup_append] at hnd
      obtain ⟨hnd₁, hnd₂, hdisj⟩ := hnd
      have hput : (s.putJob r.1.id r.1).Follows st₀ := by
        refine h.silent rfl ⟨?_, h.holds.task⟩ rfl rfl
        intro k j hj
        rw [putJob_jobs, Table.get_insert] at hj
        split at hj
        · subst k; cases hj; exact hjob r List.mem_cons_self
        · exact h.holds.job k j hj
      obtain ⟨hone, hjobs, hkept⟩ := hput.restoreTasks now r.2 hnd₁
        (hrow r List.mem_cons_self) (hnew r List.mem_cons_self) (!r.1.state.isTerminal)
      have hother (r' : Job × List Task) (hr' : r' ∈ rs) (t : Task) (ht : t ∈ r'.2) :
          t.id ∉ r.2.map Task.id := fun hin =>
        hdisj _ hin _ (List.mem_flatMap.mpr ⟨r', hr', List.mem_map_of_mem ht⟩) rfl
      refine ih hone hnd₂ ?_ ?_ ?_
      · intro r' hr'
        exact (congrArg (·[r'.1.id]?) hjobs).trans (hjob r' (List.mem_cons_of_mem _ hr'))
      · intro r' hr' t ht
        exact (hkept t.id (hother r' hr' t ht)).trans (hrow r' (List.mem_cons_of_mem _ hr') t ht)
      · intro r' hr' t ht
        obtain ⟨-, -, htasks, -⟩ := restoreJob_fields (s := s) now r
        rw [htasks, Table.get_insertAll_ne]
        · exact hnew r' (List.mem_cons_of_mem _ hr') t ht
        · intro u hu he
          obtain ⟨u₀, hu₀, rfl⟩ := List.mem_map.mp hu
          rw [Task.loadedAs_id] at he
          exact hother r' hr' t ht (he ▸ List.mem_map_of_mem hu₀)

end Follows

section Boot

variable (config : LocalClusterConfig) (scheduler : Scheduler) (elector : Elector) {store : Store}

variable (now) in
theorem registered_tracks (h : store.Stored) :
    (registered config scheduler elector store now).Tracks store where
  holds := ⟨by simp [registered, new], by simp [registered, new]⟩
  stored := h
  jobSeq := rfl
  taskSeq := rfl
  past := by
    intro before e after hsplit
    simp [registered, new] at hsplit
  whole := by
    intro id t j _ hj
    simp [registered, new] at hj

theorem replay_saveTasks_jobId (ts : List Task) {st : Store} {id : TaskId}
    (ht : (st.replay (ts.map .saveTask)).tasks[id]? = some t) :
    ∃ t₀, st.tasks[id]? = some t₀ ∧ t₀.jobId = t.jobId := by
  induction ts generalizing st with
  | nil => exact ⟨t, ht, rfl⟩
  | cons u ts ih =>
      obtain ⟨t₁, ht₁, hid⟩ := @ih (st.saveTask u) ht
      simp only [Store.saveTask, Table.get_modify] at ht₁
      split at ht₁
      · subst id
        obtain ⟨t₀, ht₀, rfl⟩ := Option.map_eq_some_iff.mp ht₁
        exact ⟨t₀, ht₀, hid⟩
      · exact ⟨t₁, ht₁, hid⟩

variable (now) in
/-- Until the jobs are loaded the store keeps its rows. -/
theorem launched_durable (store : Store) :
    ((launched config scheduler elector store now).durable store).jobs = store.jobs ∧
    ((launched config scheduler elector store now).durable store).tasks = store.tasks := by
  obtain ⟨ws, hws, hj⟩ := (launched_quiet config scheduler elector store now).journal
  have hops : (launched config scheduler elector store now).ops = ws.map .queued := by
    simp [ops, hj, registered, new]
  rw [durable, hops]
  exact Store.replay_aside ws fun w hw => Write.isQuiet_aside (hws w hw)

variable (now) in
theorem loadedState_follows (h : store.Stored) :
    (loadedState config scheduler elector store now).Follows store := by
  have hlaunched := (launched_quiet config scheduler elector store now).tracks
    (registered_tracks now config scheduler elector h)
  obtain ⟨hjobs, htasks⟩ := launched_durable now config scheduler elector store
  have hq := launched_quiet config scheduler elector store now
  unfold loadedState restoreJobs
  rw [hq.config]
  refine hlaunched.toFollows.restoreAll (store.loaded config.jobBuffer) ?_ ?_ ?_ ?_
  · exact Store.loaded_tasks_nodup h.keyed _
  · intro r hr
    rw [hjobs]
    exact (Store.mem_loaded h.keyed hr).1
  · intro r hr t ht
    rw [htasks]
    exact ((Store.mem_loaded_task h.keyed hr).mp ht).1
  · intro r _ t _
    rw [hq.tasks]
    simp [registered, new]

/-- A restart puts every unfinished task of an unfinished job on the queue; an ended job has none. -/
theorem loadedState_waiting (h : store.Stored) {id : TaskId} {t : Task}
    (ht : (loadedState config scheduler elector store now).tasks[id]? = some t)
    (hopen : t.state.isTerminal = false) : t.state = .queued ∧
      (loadedState config scheduler elector store now).queue.count id = 1 := by
  obtain ⟨t₀, j, ht₀, rfl, hj⟩ := (loadedState_task config scheduler elector h.keyed).mp ht
  have hreset : t₀.isReset j = true := by
    by_contra hno
    rw [Task.loadedAs, if_neg hno] at hopen
    have hterm : j.state.isTerminal = true := by simpa [Task.isReset, hopen] using hno
    obtain ⟨hkey, hmem⟩ := (loadedState_job config scheduler elector h.keyed).mp hj
    have hrow := (Store.mem_loaded h.keyed hmem).1
    rw [show (j, store.tasksForJob t₀.jobId).1.id = t₀.jobId from hkey] at hrow
    rw [(h.weak _ j hrow).ended hterm id t₀ ht₀ rfl] at hopen
    cases hopen
  refine ⟨by rw [Task.loadedAs, if_pos hreset]; rfl, ?_⟩
  refine List.count_eq_one_of_mem (loadedState_queue_nodup config scheduler elector h.keyed) ?_
  exact (loadedState_queue config scheduler elector h.keyed).mpr ⟨t₀, j, ht₀, hreset, hj⟩

theorem bootstrap_tracks (h : store.Stored) :
    (bootstrap config scheduler elector store now).Tracks store := by
  have hloaded := loadedState_follows now config scheduler elector h
  refine (Quiet.refreshLeadership (loadedState config scheduler elector store now) now).tracks
    ⟨hloaded, ?_⟩
  intro id t j ht hj
  -- The row was in the store, under the same job, so loading the job loaded it.
  obtain ⟨t₀, ht₀, hid⟩ : ∃ t₀, store.tasks[id]? = some t₀ ∧ t₀.jobId = t.jobId := by
    have hops := (loadedState_fields now config scheduler elector store).2.2.2.2
    rw [durable, hops, Store.replay_append] at ht
    have hwrites : (store.loaded config.jobBuffer).flatMap (resetWrites now) =
        ((store.loaded config.jobBuffer).flatMap fun r =>
          (r.2.filter (Task.isReset · r.1)).map (Task.resetAt · now)).map .saveTask := by
      rw [List.map_flatMap]
      refine List.flatMap_congr fun r _ => ?_
      simp [resetWrites, Function.comp_def]
    rw [hwrites] at ht
    obtain ⟨t₀, ht₀, hid⟩ := replay_saveTasks_jobId _ ht
    refine ⟨t₀, ?_, hid⟩
    rw [← (launched_durable now config scheduler elector store).2]
    exact ht₀
  have hmem : (loadedState config scheduler elector store now).tasks[id]? =
      some (t₀.loadedAs now j) :=
    (loadedState_task config scheduler elector h.keyed).mpr ⟨t₀, j, ht₀, rfl, hid ▸ hj⟩
  have hrow := hloaded.holds.task id _ hmem
  rw [ht] at hrow
  cases hrow
  exact hmem

variable (now) in
theorem bootstrap_wf (h : store.Stored) : (bootstrap config scheduler elector store now).Wf := by
  have hw := loadedState_wf now config scheduler elector h.keyed h.unassigned
  exact ((show Evolves now _ _ from .refl _).refresh hw).2

end Boot

end Supervisor

end Gavel.Cluster
