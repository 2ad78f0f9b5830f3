import Gavel.Cluster.Lemmas.Fields

/-!
# The ledger: jobs against their tasks

A job's counters are incremented one by one and never recounted. `Balanced` says what they have to
agree with, and the lemmas here say which updates of a task row and its job's row keep the agreement.
They are about a pair of tables, the supervisor's own or the store's.
-/

namespace Gavel.Cluster

variable {tasks tasks' : Table Task} {jobs : Table Job} {id a : JobId} {k : TaskId} {j : Job} {t t₀ : Task}
  {now : Millis}

/-! ## Counting the tasks of a job -/

/-- How many tasks of a job are in a state. -/
def tally (tasks : Table Task) (id : JobId) (st : TaskState) : Nat :=
  Table.count (fun t => t.jobId == id && t.state == st) tasks

def population (tasks : Table Task) (id : JobId) : Nat := Table.count (fun t => t.jobId == id) tasks

/-- How many tasks of a job may still change. -/
def openTasks (tasks : Table Task) (id : JobId) : Nat :=
  Table.count (fun t => t.jobId == id && !t.state.isTerminal) tasks

theorem population_eq (tasks : Table Task) (id : JobId) : population tasks id =
    tally tasks id .completed + tally tasks id .failed + openTasks tasks id := by
  unfold population tally openTasks
  rw [Table.count_split (q := fun t => t.jobId == id && t.state.isTerminal)
    (r := fun t => t.jobId == id && !t.state.isTerminal)]
  · congr 1
    refine Table.count_split fun t => ?_
    by_cases hj : t.jobId = id <;> cases t.state <;> simp [hj, TaskState.isTerminal]
  · intro t
    by_cases hj : t.jobId = id <;> cases t.state.isTerminal <;> simp [hj]

theorem openTasks_pos_iff : 0 < openTasks tasks id ↔
    ∃ (k : TaskId) (t : Task), tasks[k]? = some t ∧ t.jobId = id ∧ t.state.isTerminal = false := by
  simp [openTasks, Table.count_pos_iff]

theorem openTasks_zero_iff : openTasks tasks id = 0 ↔
    ∀ (k : TaskId) t, tasks[k]? = some t → t.jobId = id → t.state.isTerminal = true := by
  simp [openTasks, Table.count_eq_zero_iff]

theorem tally_pos_iff {st : TaskState} : 0 < tally tasks id st ↔
    ∃ (k : TaskId) (t : Task), tasks[k]? = some t ∧ t.jobId = id ∧ t.state = st := by
  simp [tally, Table.count_pos_iff]

/-! ## Updating a task row -/

variable (id) in
theorem tally_insert (h : tasks[k]? = some t₀) (hj : t.jobId = t₀.jobId) (st : TaskState) :
    tally (tasks.insert k t) id st + (if t₀.jobId = id ∧ t₀.state = st then 1 else 0) =
      tally tasks id st + (if t₀.jobId = id ∧ t.state = st then 1 else 0) := by
  have hc := Table.count_insert_some (v := t) (p := fun t => t.jobId == id && t.state == st) h
  simpa [tally, hj] using hc

theorem population_insert (h : tasks[k]? = some t₀) (hj : t.jobId = t₀.jobId) (id : JobId) :
    population (tasks.insert k t) id = population tasks id :=
  Table.count_insert_same h (by simp [hj])

/-! ## Tables that agree on one job -/

/-- The two tables hold the same tasks of a job. -/
def SameTasks (tasks tasks' : Table Task) (id : JobId) : Prop :=
  ∀ (k : TaskId) t, t.jobId = id → (tasks[k]? = some t ↔ tasks'[k]? = some t)

theorem SameTasks.count (h : SameTasks tasks tasks' id) {q : Task → Bool} :
    Table.count (fun t => t.jobId == id && q t) tasks =
      Table.count (fun t => t.jobId == id && q t) tasks' := by
  refine Table.count_congr_get fun k => ?_
  rw [Bool.eq_iff_iff, Option.any_eq_true, Option.any_eq_true]
  simp only [Bool.and_eq_true, beq_iff_eq]
  constructor
  · rintro ⟨t, ht, hj, hq⟩; exact ⟨t, (h k t hj).mp ht, hj, hq⟩
  · rintro ⟨t, ht, hj, hq⟩; exact ⟨t, (h k t hj).mpr ht, hj, hq⟩

theorem SameTasks.tally (h : SameTasks tasks tasks' id) (st : TaskState) :
    tally tasks id st = tally tasks' id st := h.count

theorem SameTasks.population (h : SameTasks tasks tasks' id) :
    population tasks id = population tasks' id := by
  have hc := h.count (q := fun _ => true)
  simpa [Gavel.Cluster.population] using hc

/-- The tasks of a new job take no place that is taken. -/
theorem get_insertAll_newTasks {spec : JobSpec} {first : TaskId} {k : TaskId} {t : Task}
    (hnew : ∀ i, tasks[first + i]? = none) (hk : tasks[k]? = some t) :
    (tasks.insertAll Task.id (Supervisor.newTasks spec id first now))[k]? = some t := by
  refine (Table.get_insertAll_ne ?_).trans hk
  intro u hu he
  obtain ⟨i, sp, -, rfl⟩ := Supervisor.mem_newTasks hu
  rw [← he] at hk
  change tasks[first + i]? = some t at hk
  rw [hnew i] at hk
  cases hk

variable (now) in
theorem sameTasks_insertAll {spec : JobSpec} {first : TaskId} (hne : id ≠ a)
    (hnew : ∀ i, tasks[first + i]? = none) :
    SameTasks tasks (tasks.insertAll Task.id (Supervisor.newTasks spec id first now)) a := by
  intro k t ht
  constructor
  · exact get_insertAll_newTasks hnew
  · intro hk
    rcases Table.get_insertAll_some hk with ⟨hm, _⟩ | ⟨hm, _⟩
    · obtain ⟨i, sp, -, rfl⟩ := Supervisor.mem_newTasks hm
      exact absurd ht hne
    · exact hm

/-! ## Balance -/

/-- A job row agrees with the task rows of its job. -/
structure Balanced (tasks : Table Task) (id : JobId) (j : Job) : Prop where
  total : population tasks id = j.taskCount
  nonempty : 0 < j.taskCount
  small : j.taskCount ≤ u16Max
  completed : tally tasks id .completed = j.tasksCompleted
  failed : tally tasks id .failed = j.tasksFailed
  settled : j.state.isTerminal = true ↔ j.tasksCompleted + j.tasksFailed = j.taskCount
  verdict : j.state.isTerminal = true → j.state = j.verdict
  fresh : j.state = .queued →
    ∀ (k : TaskId) t, tasks[k]? = some t → t.jobId = id → t.state = .queued

namespace Balanced

theorem sum_openTasks (h : Balanced tasks id j) :
    j.tasksCompleted + j.tasksFailed + openTasks tasks id = j.taskCount := by
  rw [← h.total, population_eq, h.completed, h.failed]

theorem terminal_iff (h : Balanced tasks id j) : j.state.isTerminal = true ↔
    ∀ (k : TaskId) t, tasks[k]? = some t → t.jobId = id → t.state.isTerminal = true := by
  have hs := h.sum_openTasks
  rw [h.settled, ← openTasks_zero_iff]
  omega

theorem failed_iff (h : Balanced tasks id j) (ht : j.state.isTerminal = true) :
    j.state = .failed ↔ ∃ (k : TaskId) (t : Task), tasks[k]? = some t ∧ t.jobId = id ∧
      t.state = .failed := by
  rw [← tally_pos_iff, h.failed, h.verdict ht, Job.verdict]
  split <;> simp_all

/-- While a task is open the counters stay below the count, and the job is not terminal. -/
theorem open_lt (h : Balanced tasks id j) (ht : tasks[k]? = some t) (hj : t.jobId = id)
    (hnt : t.state.isTerminal = false) : j.tasksCompleted + j.tasksFailed < j.taskCount := by
  have hpos := openTasks_pos_iff.mpr ⟨k, t, ht, hj, hnt⟩
  have hs := h.sum_openTasks
  omega

theorem open_not_terminal (h : Balanced tasks id j) (ht : tasks[k]? = some t) (hj : t.jobId = id)
    (hnt : t.state.isTerminal = false) : j.state.isTerminal = false := by
  have hlt := h.open_lt ht hj hnt
  by_contra hc
  have := h.settled.mp (by simpa using hc)
  omega

theorem held_running (h : Balanced tasks id j) (ht : tasks[k]? = some t) (hj : t.jobId = id)
    (hheld : t.state.isHeld = true) : j.state = .running := by
  have hnt := TaskState.held_not_terminal hheld
  have hopen := h.open_not_terminal ht hj hnt
  cases hs : j.state with
  | queued =>
      have hq := h.fresh hs k t ht hj
      rw [hq] at hheld
      cases hheld
  | running => rfl
  | completed => rw [hs] at hopen; cases hopen
  | failed => rw [hs] at hopen; cases hopen
  | cancelled => rw [hs] at hopen; cases hopen

/-! ### One task row changes -/

theorem insert_other (h : Balanced tasks id j) (ht : tasks[k]? = some t₀) (hj : t.jobId = t₀.jobId)
    (hne : t₀.jobId ≠ id) : Balanced (tasks.insert k t) id j where
  total := by rw [population_insert ht hj]; exact h.total
  nonempty := h.nonempty
  small := h.small
  completed := by
    have hc := tally_insert id ht hj .completed
    simp only [hne, false_and, if_false, Nat.add_zero] at hc
    rw [hc]; exact h.completed
  failed := by
    have hc := tally_insert id ht hj .failed
    simp only [hne, false_and, if_false, Nat.add_zero] at hc
    rw [hc]; exact h.failed
  settled := h.settled
  verdict := h.verdict
  fresh := by
    intro hq a u hu hid
    rw [Table.get_insert] at hu
    split at hu
    · cases hu; exact absurd (hj ▸ hid) hne
    · exact h.fresh hq a u hu hid

theorem insert_open (h : Balanced tasks id j) (ht : tasks[k]? = some t₀) (hj : t.jobId = t₀.jobId)
    (h₀ : t₀.state.isTerminal = false) (h₁ : t.state.isTerminal = false) {j' : Job}
    (hj' : j' = j ∨ j' = j.start) (hfresh : j'.state = .queued → t.state = .queued) :
    Balanced (tasks.insert k t) id j' := by
  have same (st : TaskState) (hst : st.isTerminal = true) :
      tally (tasks.insert k t) id st = tally tasks id st := by
    have hc := tally_insert id ht hj st
    have hn₀ : ¬ t₀.state = st := by rintro rfl; rw [hst] at h₀; cases h₀
    have hn₁ : ¬ t.state = st := by rintro rfl; rw [hst] at h₁; cases h₁
    simpa [hn₀, hn₁] using hc
  have hbase : Balanced (tasks.insert k t) id j ∨ j.state = .queued ∧ t.state ≠ .queued := by
    by_cases hq : j.state = .queued ∧ t.state ≠ .queued
    · exact .inr hq
    · refine .inl ⟨?_, h.nonempty, h.small, ?_, ?_, h.settled, h.verdict, ?_⟩
      · rw [population_insert ht hj]; exact h.total
      · rw [same _ rfl]; exact h.completed
      · rw [same _ rfl]; exact h.failed
      · intro hs a u hu hid
        rw [Table.get_insert] at hu
        split at hu
        · cases hu
          by_contra hne
          exact hq ⟨hs, hne⟩
        · exact h.fresh hs a u hu hid
  by_cases hq : j.state = .queued
  · rcases hj' with rfl | rfl
    · rcases hbase with hb | ⟨_, hne⟩
      · exact hb
      · exact absurd (hfresh hq) hne
    · -- The job leaves `queued`, so nothing is asked of its tasks any more.
      have hns : j.tasksCompleted + j.tasksFailed ≠ j.taskCount := by
        intro he
        have hterm := h.settled.mpr he
        rw [hq] at hterm
        cases hterm
      simp only [Job.start, hq, if_true, Job.startedAt]
      refine ⟨?_, h.nonempty, h.small, ?_, ?_, ?_, ?_, ?_⟩
      · rw [population_insert ht hj]; exact h.total
      · rw [same _ rfl]; exact h.completed
      · rw [same _ rfl]; exact h.failed
      · simpa [JobState.isTerminal] using hns
      · intro hterm; cases hterm
      · intro hrun; cases hrun
  · have hb := hbase.resolve_right fun hc => hq hc.1
    rcases hj' with rfl | rfl
    · exact hb
    · simpa [Job.start, hq] using hb

variable (now) in
/-- A running job whose counters were just raised settles exactly when they reach the count. -/
theorem settle_running (hrun : j.state = .running) (hle : j.tasksCompleted + j.tasksFailed ≤ j.taskCount) :
    ((j.settle now).state.isTerminal = true ↔ j.tasksCompleted + j.tasksFailed = j.taskCount) ∧
    ((j.settle now).state.isTerminal = true → (j.settle now).state = j.verdict) ∧
    (j.settle now).state ≠ .queued := by
  have htr : j.state.canTransitionTo j.verdict = true := by
    rw [hrun]
    rcases j.verdict_cases with hv | hv <;> rw [hv] <;> rfl
  have hvt := j.verdict_terminal
  unfold Job.settle Job.settles
  by_cases he : j.taskCount ≤ j.tasksCompleted + j.tasksFailed
  · have heq : j.tasksCompleted + j.tasksFailed = j.taskCount := by omega
    simp only [he, htr, decide_true, Bool.and_true, if_true, Job.settledAt]
    refine ⟨by simp [hvt, heq], fun _ => trivial, ?_⟩
    rcases j.verdict_cases with hv | hv <;> rw [hv] <;> simp
  · have hne : j.tasksCompleted + j.tasksFailed ≠ j.taskCount := by omega
    simp [he, hrun, hne, JobState.isTerminal]

@[simp] theorem settle_taskCount (j : Job) : (j.settle now).taskCount = j.taskCount := by
  unfold Job.settle; split <;> rfl

@[simp] theorem settle_tasksCompleted (j : Job) :
    (j.settle now).tasksCompleted = j.tasksCompleted := by unfold Job.settle; split <;> rfl

@[simp] theorem settle_tasksFailed (j : Job) : (j.settle now).tasksFailed = j.tasksFailed := by
  unfold Job.settle; split <;> rfl

/-- A held task reaches a terminal state, one counter is raised, and the job settles if it can. -/
theorem insert_terminal (h : Balanced tasks id j) (ht : tasks[k]? = some t₀)
    (hj : t.jobId = t₀.jobId) (hid : t₀.jobId = id) (h₀ : t₀.state.isHeld = true)
    (h₁ : t.state.isTerminal = true) {j' : Job} (hstate : j'.state = j.state)
    (htotal : j'.taskCount = j.taskCount)
    (hcompleted : j'.tasksCompleted = j.tasksCompleted + if t.state = .completed then 1 else 0)
    (hfailed : j'.tasksFailed = j.tasksFailed + if t.state = .failed then 1 else 0) :
    Balanced (tasks.insert k t) id (j'.settle now) := by
  have hnt := TaskState.held_not_terminal h₀
  have hlt := h.open_lt ht hid hnt
  have hone : (if t.state = .completed then 1 else 0) + (if t.state = .failed then 1 else 0) = 1 := by
    revert h₁
    cases t.state <;> simp [TaskState.isTerminal]
  have hs := settle_running now (j := j') (hstate.trans (h.held_running ht hid h₀))
    (by omega)
  have hcount (st : TaskState) (hst : st.isTerminal = true) : tally (tasks.insert k t) id st =
      tally tasks id st + if t.state = st then 1 else 0 := by
    have hc := tally_insert id ht hj st
    have hn₀ : ¬ t₀.state = st := by rintro rfl; rw [hst] at hnt; cases hnt
    simpa only [hid, hn₀, and_false, if_false, true_and, Nat.add_zero] using hc
  refine ⟨?_, ?_, ?_, ?_, ?_, ?_, ?_, ?_⟩
  · rw [population_insert ht hj, settle_taskCount, htotal]; exact h.total
  · rw [settle_taskCount, htotal]; exact h.nonempty
  · rw [settle_taskCount, htotal]; exact h.small
  · rw [hcount _ rfl, settle_tasksCompleted, hcompleted, h.completed]
  · rw [hcount _ rfl, settle_tasksFailed, hfailed, h.failed]
  · simpa using hs.1
  · intro hterm
    rw [hs.2.1 hterm]
    simp [Job.verdict]
  · intro hq; exact absurd hq hs.2.2

theorem congr (h : Balanced tasks id j) (hs : SameTasks tasks tasks' id) : Balanced tasks' id j where
  total := hs.population ▸ h.total
  nonempty := h.nonempty
  small := h.small
  completed := hs.tally .completed ▸ h.completed
  failed := hs.tally .failed ▸ h.failed
  settled := h.settled
  verdict := h.verdict
  fresh := fun hq k t ht hid => h.fresh hq k t ((hs k t hid).mpr ht) hid

theorem new {spec : JobSpec} {first : TaskId} (hnone : ∀ (k : TaskId) t, tasks[k]? = some t → t.jobId ≠ id)
    (hnew : ∀ i, tasks[first + i]? = none) :
    Balanced (tasks.insertAll Task.id (Supervisor.newTasks spec id first now)) id
      (Job.new id spec now) := by
  have hfresh : ∀ t ∈ Supervisor.newTasks spec id first now, tasks[t.id]? = none := by
    intro t ht
    obtain ⟨i, sp, -, rfl⟩ := Supervisor.mem_newTasks ht
    exact hnew i
  have hcount (p : Task → Bool) := Table.count_insertAll (p := p)
    (Supervisor.newTasks_nodup spec id first now) hfresh
  have htally (st : TaskState) (hst : st ≠ .queued) :
      tally (tasks.insertAll Task.id (Supervisor.newTasks spec id first now)) id st = 0 := by
    rw [tally, Table.count_eq_zero_iff]
    intro k t ht
    rcases Table.get_insertAll_some ht with ⟨hm, _⟩ | ⟨hm, _⟩
    · obtain ⟨i, sp, -, rfl⟩ := Supervisor.mem_newTasks hm
      simp [Task.new, Ne.symm hst]
    · simp [hnone k t hm]
  refine ⟨?_, spec.taskCount_pos, spec.taskCount_le, htally _ (by simp), htally _ (by simp), ?_, ?_, ?_⟩
  · rw [population, hcount, Table.count_eq_zero_iff.mpr]
    · rw [Nat.zero_add, List.countP_eq_length.mpr, Supervisor.newTasks_length]
      · rfl
      · intro t ht
        obtain ⟨i, sp, -, rfl⟩ := Supervisor.mem_newTasks ht
        simp [Task.new]
    · intro k t ht
      simpa using hnone k t ht
  · have hpos := spec.taskCount_pos
    simp only [Job.new, JobState.isTerminal]
    constructor
    · intro hc; cases hc
    · omega
  · intro hc; cases hc
  · intro _ k t ht hid
    rcases Table.get_insertAll_some ht with ⟨hm, _⟩ | ⟨hm, _⟩
    · obtain ⟨i, sp, -, rfl⟩ := Supervisor.mem_newTasks hm
      rfl
    · exact absurd hid (hnone k t hm)

/-- The counters of a job with an open task are not saturated. -/
theorem satSucc_open (h : Balanced tasks id j) (ht : tasks[k]? = some t) (hid : t.jobId = id)
    (hnt : t.state.isTerminal = false) : satSucc j.tasksCompleted = j.tasksCompleted + 1 ∧
      satSucc j.tasksFailed = j.tasksFailed + 1 := by
  have hlt := h.open_lt ht hid hnt
  have hsmall := h.small
  unfold satSucc
  omega

end Balanced

/-! ## The ledger of two tables -/

/-- Every job balances, and every task belongs to a job that is there. -/
structure Ledger (jobs : Table Job) (tasks : Table Task) : Prop where
  balanced : ∀ (id : JobId) j, jobs[id]? = some j → Balanced tasks id j
  owned : ∀ (k : TaskId) t, tasks[k]? = some t → ∃ j, jobs[t.jobId]? = some j

namespace Ledger

variable {jobs' : Table Job}

theorem empty : Ledger ∅ ∅ := ⟨by simp, by simp⟩

/-- One task row changes together with the row of its job. -/
theorem update {f : Job → Job} (h : Ledger jobs tasks) (ht : tasks[k]? = some t₀)
    (hj : t.jobId = t₀.jobId)
    (hjobs : ∀ a : JobId, jobs'[a]? = if t₀.jobId = a then jobs[a]?.map f else jobs[a]?)
    (hb : ∀ j, Balanced tasks t₀.jobId j → Balanced (tasks.insert k t) t₀.jobId (f j)) :
    Ledger jobs' (tasks.insert k t) where
  balanced := by
    intro id j hid
    rw [hjobs] at hid
    split at hid
    · subst id
      obtain ⟨j₀, hj₀, rfl⟩ := Option.map_eq_some_iff.mp hid
      exact hb j₀ (h.balanced _ j₀ hj₀)
    · exact (h.balanced id j hid).insert_other ht hj ‹_›
  owned := by
    intro a u hu
    have hown : ∃ j, jobs[u.jobId]? = some j := by
      rw [Table.get_insert] at hu
      split at hu
      · cases hu; rw [hj]; exact h.owned k t₀ ht
      · exact h.owned a u hu
    obtain ⟨j, hj⟩ := hown
    rw [hjobs, hj]
    split <;> simp

theorem update_task (h : Ledger jobs tasks) (ht : tasks[k]? = some t₀) (hj : t.jobId = t₀.jobId)
    (hb : ∀ j, Balanced tasks t₀.jobId j → Balanced (tasks.insert k t) t₀.jobId j) :
    Ledger jobs (tasks.insert k t) := by
  refine h.update (f := fun j => j) ht hj ?_ hb
  intro a
  split <;> simp

theorem enrol (h : Ledger jobs tasks) {spec : JobSpec} {first : TaskId}
    (hjob : jobs[id]? = none) (hnew : ∀ i, tasks[first + i]? = none) :
    Ledger (jobs.insert id (Job.new id spec now))
      (tasks.insertAll Task.id (Supervisor.newTasks spec id first now)) where
  balanced := by
    intro a j ha
    rw [Table.get_insert] at ha
    split at ha
    · subst a
      cases ha
      refine .new ?_ hnew
      rintro k t ht rfl
      obtain ⟨j, hj⟩ := h.owned k t ht
      rw [hjob] at hj; cases hj
    · rename_i hne
      exact (h.balanced a j ha).congr (sameTasks_insertAll _ hne hnew)
  owned := by
    intro k t ht
    rcases Table.get_insertAll_some ht with ⟨hm, _⟩ | ⟨hm, _⟩
    · obtain ⟨i, sp, -, rfl⟩ := Supervisor.mem_newTasks hm
      exact ⟨_, Table.get_insert_self⟩
    · obtain ⟨j, hj⟩ := h.owned k t hm
      rw [Table.get_insert]
      split
      · exact ⟨_, rfl⟩
      · exact ⟨j, hj⟩

end Ledger

end Gavel.Cluster
