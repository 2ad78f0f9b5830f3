import Gavel.Cluster.Persistence
import Gavel.Cluster.Lemmas.Mirror
import Mathlib.Data.List.Induction

/-!
# The store behind the writer

An awaited operation overtakes what is queued, so the store a process leaves need not be one its
operations lead to in order. It lies between two that are: the one that knows the applied updates only,
and the one that knows everything handed over. That is enough to keep every store well formed.
-/

namespace Gavel.Cluster

variable {st a b c : Store} {t : Task} {j : Job} {op : DurableOp}

theorem Task.SameOrigin.refl (t : Task) : t.SameOrigin t := ⟨rfl, rfl, rfl, rfl⟩

theorem Task.SameOrigin.symm {t u : Task} (h : t.SameOrigin u) : u.SameOrigin t :=
  ⟨h.id.symm, h.jobId.symm, h.index.symm, h.spec.symm⟩

theorem Task.SameOrigin.trans {t u v : Task} (h : t.SameOrigin u) (h' : u.SameOrigin v) :
    t.SameOrigin v :=
  ⟨h.id.trans h'.id, h.jobId.trans h'.jobId, h.index.trans h'.index, h.spec.trans h'.spec⟩

theorem Job.SameOrigin.refl (j : Job) : j.SameOrigin j := ⟨rfl, rfl, rfl, rfl⟩

theorem Job.SameOrigin.trans {i j k : Job} (h : i.SameOrigin j) (h' : j.SameOrigin k) :
    i.SameOrigin k :=
  ⟨h.id.trans h'.id, h.spec.trans h'.spec, h.taskCount.trans h'.taskCount,
    h.createdAt.trans h'.createdAt⟩

/-- The job as it was created. -/
def Job.asNew (j : Job) : Job :=
  { j with state := .queued, tasksCompleted := 0, tasksFailed := 0, finishedAt := none }

theorem Job.SameOrigin.asNew {i j : Job} (h : i.SameOrigin j) : i.asNew = j.asNew := by
  obtain ⟨h₁, h₂, h₃, h₄⟩ := h
  cases i; cases j
  simp_all [Job.asNew]

namespace Store

/-! ## What effective operations keep -/

/-- Rows stay and keep their origin, and a task that has ended does not change. -/
structure Grows (a c : Store) : Prop where
  job : ∀ (id : JobId) j, a.jobs[id]? = some j → ∃ j', c.jobs[id]? = some j' ∧ j'.SameOrigin j
  task : ∀ (k : TaskId) t, a.tasks[k]? = some t → ∃ t', c.tasks[k]? = some t' ∧ t'.SameOrigin t ∧
    (t.state.isTerminal = true → t' = t)

namespace Grows

theorem refl (a : Store) : Grows a a where
  job := fun _ j hj => ⟨j, hj, .refl j⟩
  task := fun _ t ht => ⟨t, ht, .refl t, fun _ => rfl⟩

theorem trans (h : Grows a b) (h' : Grows b c) : Grows a c where
  job := by
    intro id j hj
    obtain ⟨j₁, hj₁, ho⟩ := h.job id j hj
    obtain ⟨j₂, hj₂, ho'⟩ := h'.job id j₁ hj₁
    exact ⟨j₂, hj₂, ho'.trans ho⟩
  task := by
    intro k t ht
    obtain ⟨t₁, ht₁, ho, hf⟩ := h.task k t ht
    obtain ⟨t₂, ht₂, ho', hf'⟩ := h'.task k t₁ ht₁
    refine ⟨t₂, ht₂, ho'.trans ho, ?_⟩
    intro hterm
    obtain rfl := hf hterm
    exact hf' hterm

theorem of_tables (hj : c.jobs = a.jobs) (ht : c.tasks = a.tasks) : Grows a c where
  job := fun id j h => ⟨j, by rw [hj]; exact h, .refl j⟩
  task := fun k t h => ⟨t, by rw [ht]; exact h, .refl t, fun _ => rfl⟩

theorem saveTask (h : a.Writable t) : Grows a (a.saveTask t) := by
  obtain ⟨t₀, ht, ho, hopen, -⟩ := h
  have hget := get_saveTask ht ho
  refine ⟨fun _ j hj => ⟨j, hj, .refl j⟩, ?_⟩
  intro k u hu
  rw [hget]
  split
  · subst k
    cases ht.symm.trans hu
    refine ⟨t, rfl, ho, ?_⟩
    intro hterm
    rw [hopen] at hterm
    cases hterm
  · exact ⟨u, hu, .refl u, fun _ => rfl⟩

theorem saveJob {j₀ : Job} (hj : a.jobs[j.id]? = some j₀) (ho : j.SameOrigin j₀) :
    Grows a (a.saveJob j) := by
  refine ⟨?_, fun _ t ht => ⟨t, ht, .refl t, fun _ => rfl⟩⟩
  intro id i hi
  rw [get_saveJob hj ho]
  split
  · subst id
    cases hj.symm.trans hi
    exact ⟨j, rfl, ho⟩
  · exact ⟨i, hi, .refl i⟩

end Grows

theorem Applies.create {ts : List Task} (h : a.Applies (.createJob j ts)) :
    a.perform (.createJob j ts) = a.withJob j ts := by
  obtain ⟨spec, id, first, now, rfl, rfl, hj, ht⟩ := h
  refine createJob_eq hj (Supervisor.newTasks_nodup ..) ?_
  intro t hm
  obtain ⟨i, sp, -, rfl⟩ := Supervisor.mem_newTasks hm
  exact ht i

theorem Applies.grows (h : a.Applies op) : Grows a (a.perform op) := by
  cases op with
  | reserveJob => exact .of_tables rfl rfl
  | reserveTasks count => exact .of_tables rfl rfl
  | createJob j ts =>
      rw [h.create]
      obtain ⟨spec, id, first, now, rfl, rfl, hj, ht⟩ := h
      refine ⟨?_, ?_⟩
      · intro k i hi
        rw [withJob, Table.get_insert_ne]
        · exact ⟨i, hi, .refl i⟩
        · rintro rfl
          rw [show (Job.new id spec now).id = id from rfl, hj] at hi
          cases hi
      · intro k t hk
        refine ⟨t, (Table.get_insertAll_ne ?_).trans hk, .refl t, fun _ => rfl⟩
        intro u hu he
        obtain ⟨i, sp, -, rfl⟩ := Supervisor.mem_newTasks hu
        rw [← he] at hk
        change a.tasks[first + i]? = some t at hk
        rw [ht i] at hk
        cases hk
  | saveTask t => exact .saveTask h.2
  | queued w =>
      cases w with
      | job j =>
          obtain ⟨j₀, hj, ho, -⟩ := h
          exact .saveJob hj ho
      | task t => exact .saveTask h
      | failure => exact .of_tables rfl rfl
      | event => exact .of_tables rfl rfl
      | roles => exact .of_tables rfl rfl

/-! ## Between two stores -/

/-- `st` knows the updates `a` knows, and everything `c` knows that did not go through the queue. -/
structure Between (a c st : Store) : Prop where
  grows : Grows a c
  jobSeq : st.jobSeq = c.jobSeq
  taskSeq : st.taskSeq = c.taskSeq
  job_known : ∀ (id : JobId) j, a.jobs[id]? = some j → st.jobs[id]? = some j
  job_new : ∀ id : JobId, a.jobs[id]? = none → st.jobs[id]? = c.jobs[id]?.map Job.asNew
  task_row : ∀ (k : TaskId) t, c.tasks[k]? = some t → ∃ u, st.tasks[k]? = some u ∧ u.SameOrigin t
  task_there : ∀ (k : TaskId) u, st.tasks[k]? = some u → ∃ t, c.tasks[k]? = some t
  ended : ∀ (k : TaskId) t, t.state.isTerminal = true →
    (st.tasks[k]? = some t ↔ a.tasks[k]? = some t)
  unassigned : ∀ (k : TaskId) t, st.tasks[k]? = some t → t.state = .queued → t.assignedTo = none

namespace Between

theorem refl (h : a.Stored) : Between a a a where
  grows := .refl a
  jobSeq := rfl
  taskSeq := rfl
  job_known := fun _ _ hj => hj
  job_new := by
    intro id hj
    rw [hj]; rfl
  task_row := fun _ t ht => ⟨t, ht, .refl t⟩
  task_there := fun _ u hu => ⟨u, hu⟩
  ended := fun _ _ _ => Iff.rfl
  unassigned := h.unassigned

/-- The row of a task that is writable after everything handed over. -/
theorem writable (h : Between a c st) (hw : c.Writable t) :
    ∃ u, st.tasks[t.id]? = some u ∧ t.SameOrigin u ∧
      (∀ v, v.state.isTerminal = true → a.tasks[t.id]? ≠ some v) := by
  obtain ⟨t₀, ht, ho, hopen, -⟩ := hw
  obtain ⟨u, hu, huo⟩ := h.task_row _ t₀ ht
  refine ⟨u, hu, ho.trans huo.symm, ?_⟩
  intro v hv hav
  obtain ⟨t', ht', -, hf⟩ := h.grows.task _ v hav
  cases ht.symm.trans ht'
  obtain rfl := hf hv
  rw [hopen] at hv
  cases hv

theorem transfer (h : Between a c st) {a' c' st' : Store} (haj : a'.jobs = a.jobs)
    (hat : a'.tasks = a.tasks) (hcj : c'.jobs = c.jobs) (hct : c'.tasks = c.tasks)
    (hsj : st'.jobs = st.jobs) (hst : st'.tasks = st.tasks) (hjseq : st'.jobSeq = c'.jobSeq)
    (htseq : st'.taskSeq = c'.taskSeq) : Between a' c' st' where
  grows := ((Grows.of_tables haj.symm hat.symm).trans h.grows).trans (.of_tables hcj hct)
  jobSeq := hjseq
  taskSeq := htseq
  job_known := by rw [haj, hsj]; exact h.job_known
  job_new := by rw [haj, hsj, hcj]; exact h.job_new
  task_row := by rw [hct, hst]; exact h.task_row
  task_there := by rw [hct, hst]; exact h.task_there
  ended := by rw [hat, hst]; exact h.ended
  unassigned := by rw [hst]; exact h.unassigned

/-! ### An awaited operation is performed -/

theorem save (h : Between a c st) (hopen : t.state.isTerminal = false) (hw : c.Writable t) :
    Between a (c.saveTask t) (st.saveTask t) := by
  obtain ⟨u, hu, huo, hnot⟩ := h.writable hw
  have hgrows := h.grows.trans (.saveTask hw)
  obtain ⟨t₀, ht, ho, -, hq⟩ := hw
  have hgc := get_saveTask ht ho
  have hgs := get_saveTask hu huo
  refine ⟨hgrows, h.jobSeq, h.taskSeq, h.job_known, h.job_new, ?_, ?_, ?_, ?_⟩
  · intro k v hv
    rw [hgc] at hv
    rw [hgs]
    split at hv
    · rw [if_pos ‹_›]; cases hv; exact ⟨t, rfl, .refl t⟩
    · rw [if_neg ‹_›]; exact h.task_row k v hv
  · intro k v hv
    rw [hgs] at hv
    rw [hgc]
    split at hv
    · rw [if_pos ‹_›]; exact ⟨t, rfl⟩
    · rw [if_neg ‹_›]; exact h.task_there k v hv
  · intro k v hv
    rw [hgs]
    split
    · subst k
      refine iff_of_false ?_ (hnot v hv)
      intro he
      cases he
      rw [hopen] at hv
      cases hv
    · exact h.ended k v hv
  · intro k v hv
    rw [hgs] at hv
    split at hv
    · cases hv; exact hq
    · exact h.unassigned k v hv

theorem job_fresh (h : Between a c st) {id : JobId} (hj : c.jobs[id]? = none) :
    a.jobs[id]? = none ∧ st.jobs[id]? = none := by
  have haj : a.jobs[id]? = none := by
    cases hja : a.jobs[id]? with
    | none => rfl
    | some i =>
        obtain ⟨i', hi', -⟩ := h.grows.job id i hja
        rw [hj] at hi'
        cases hi'
  exact ⟨haj, by rw [h.job_new id haj, hj]; rfl⟩

theorem task_fresh (h : Between a c st) {k : TaskId} (ht : c.tasks[k]? = none) :
    st.tasks[k]? = none := by
  cases hs : st.tasks[k]? with
  | none => rfl
  | some u =>
      obtain ⟨v, hv⟩ := h.task_there k u hs
      rw [ht] at hv
      cases hv

theorem create (h : Between a c st) {ts : List Task} (happ : c.Applies (.createJob j ts)) :
    Between a (c.perform (.createJob j ts)) (st.perform (.createJob j ts)) := by
  have hgrows := h.grows.trans happ.grows
  have hcreate := happ.create
  obtain ⟨spec, id, first, now, rfl, rfl, hj, ht⟩ := happ
  obtain ⟨haj, hsj⟩ := h.job_fresh hj
  have hst (i : Nat) := h.task_fresh (ht i)
  have hfresh : st.Applies (.createJob (Job.new id spec now) (Supervisor.newTasks spec id first now)) :=
    ⟨spec, id, first, now, rfl, rfl, hsj, hst⟩
  have hnd := Supervisor.newTasks_nodup spec id first now
  rw [hfresh.create]
  rw [hcreate] at hgrows ⊢
  refine ⟨hgrows, h.jobSeq, h.taskSeq, ?_, ?_, ?_, ?_, ?_, ?_⟩
  · intro k i hi
    rw [withJob, Table.get_insert_ne]
    · exact h.job_known k i hi
    · rintro rfl
      rw [show (Job.new id spec now).id = id from rfl, haj] at hi
      cases hi
  · intro k hk
    simp only [withJob, Table.get_insert]
    split
    · rfl
    · exact h.job_new k hk
  · intro k v hv
    rcases Table.get_insertAll_some hv with ⟨hm, rfl⟩ | ⟨hold, hne⟩
    · exact ⟨v, Table.get_insertAll_mem hnd hm, .refl v⟩
    · obtain ⟨u, hu, ho⟩ := h.task_row k v hold
      exact ⟨u, (Table.get_insertAll_ne hne).trans hu, ho⟩
  · intro k u hu
    rcases Table.get_insertAll_some hu with ⟨hm, rfl⟩ | ⟨hold, hne⟩
    · exact ⟨u, Table.get_insertAll_mem hnd hm⟩
    · obtain ⟨v, hv⟩ := h.task_there k u hold
      exact ⟨v, (Table.get_insertAll_ne hne).trans hv⟩
  · intro k v hv
    rw [← h.ended k v hv]
    constructor
    · intro hk
      rcases withJob_task hk with ⟨i, sp, -, rfl, rfl⟩ | hold
      · cases hv
      · exact hold
    · intro hk
      refine (Table.get_insertAll_ne ?_).trans hk
      intro u hu he
      obtain ⟨i, sp, -, rfl⟩ := Supervisor.mem_newTasks hu
      rw [← he] at hk
      change st.tasks[first + i]? = some v at hk
      rw [hst i] at hk
      cases hk
  · intro k v hv
    rcases withJob_task hv with ⟨i, sp, -, rfl, rfl⟩ | hold
    · exact fun _ => rfl
    · exact h.unassigned k v hold

/-! ### An update is queued -/

theorem queue (h : Between a c st) {w : Write} (happ : c.Applies (.queued w)) :
    Between a (c.perform (.queued w)) st := by
  have hgrows := h.grows.trans happ.grows
  cases w with
  | job j =>
      obtain ⟨j₀, hj, ho, -⟩ := happ
      have hget := get_saveJob hj ho
      refine ⟨hgrows, h.jobSeq, h.taskSeq, h.job_known, ?_, h.task_row, h.task_there, h.ended,
        h.unassigned⟩
      intro k hk
      change st.jobs[k]? = (c.saveJob j).jobs[k]?.map Job.asNew
      rw [h.job_new k hk, hget]
      split
      · subst k; rw [hj, Option.map_some, Option.map_some, ho.asNew]
      · rfl
  | task t =>
      obtain ⟨t₀, ht, ho, -⟩ := happ
      have hget := get_saveTask ht ho
      refine ⟨hgrows, h.jobSeq, h.taskSeq, h.job_known, h.job_new, ?_, ?_, h.ended, h.unassigned⟩
      · intro k v hv
        change (c.saveTask t).tasks[k]? = some v at hv
        rw [hget] at hv
        split at hv
        · subst k
          cases hv
          obtain ⟨u, hu, huo⟩ := h.task_row _ t₀ ht
          exact ⟨u, hu, huo.trans ho.symm⟩
        · exact h.task_row k v hv
      · intro k u hu
        change ∃ v, (c.saveTask t).tasks[k]? = some v
        rw [hget]
        split
        · exact ⟨t, rfl⟩
        · exact h.task_there k u hu
  | failure => exact h.transfer rfl rfl rfl rfl rfl rfl h.jobSeq h.taskSeq
  | event => exact h.transfer rfl rfl rfl rfl rfl rfl h.jobSeq h.taskSeq
  | roles => exact h.transfer rfl rfl rfl rfl rfl rfl h.jobSeq h.taskSeq

/-! ### The writer catches up -/

/-- An operation that was awaited is counted as applied. -/
theorem skip (h : Between a c st) (hdirect : ∀ w, op ≠ .queued w) (happ : a.Applies op)
    (hgrows : Grows (a.perform op) c) : Between (a.perform op) c st := by
  cases op with
  | reserveJob => exact h.transfer rfl rfl rfl rfl rfl rfl h.jobSeq h.taskSeq
  | reserveTasks count => exact h.transfer rfl rfl rfl rfl rfl rfl h.jobSeq h.taskSeq
  | createJob j ts =>
      rw [happ.create] at hgrows ⊢
      obtain ⟨spec, id, first, now, rfl, rfl, hj, ht⟩ := happ
      refine ⟨hgrows, h.jobSeq, h.taskSeq, ?_, ?_, h.task_row, h.task_there, ?_, h.unassigned⟩
      · intro k i hi
        rw [withJob, Table.get_insert] at hi
        split at hi
        · subst k
          cases hi
          obtain ⟨j', hj', ho⟩ := hgrows.job id (Job.new id spec now) Table.get_insert_self
          change st.jobs[id]? = _
          rw [h.job_new id hj, hj', Option.map_some, ho.asNew]
          rfl
        · exact h.job_known k i hi
      · intro k hk
        rw [withJob, Table.get_insert] at hk
        split at hk
        · cases hk
        · exact h.job_new k hk
      · intro k v hv
        rw [h.ended k v hv]
        constructor
        · exact get_insertAll_newTasks ht
        · intro hk
          rcases withJob_task hk with ⟨i, sp, -, rfl, rfl⟩ | hold
          · cases hv
          · exact hold
  | saveTask t =>
      obtain ⟨hopen, t₀, ht, ho, hopen₀, -⟩ := happ
      have hget := get_saveTask ht ho
      refine ⟨hgrows, h.jobSeq, h.taskSeq, h.job_known, h.job_new, h.task_row, h.task_there, ?_,
        h.unassigned⟩
      intro k v hv
      rw [h.ended k v hv]
      change _ ↔ (a.saveTask t).tasks[k]? = some v
      rw [hget]
      split
      · subst k
        refine iff_of_false ?_ ?_
        · intro he
          cases ht.symm.trans he
          rw [hopen₀] at hv
          cases hv
        · intro he
          cases he
          rw [hopen] at hv
          cases hv
      · rfl
  | queued w => exact absurd rfl (hdirect w)

theorem drain (h : Between a c st) {w : Write} (happ : a.Applies (.queued w))
    (hgrows : Grows (a.perform (.queued w)) c) : Between (a.perform (.queued w)) c (st.drain w) := by
  cases w with
  | job j =>
      obtain ⟨j₀, hj, ho, -⟩ := happ
      have hga := get_saveJob hj ho
      have hgs := get_saveJob (h.job_known _ _ hj) ho
      refine ⟨hgrows, h.jobSeq, h.taskSeq, ?_, ?_, h.task_row, h.task_there, h.ended, h.unassigned⟩
      · intro k i hi
        change (a.saveJob j).jobs[k]? = some i at hi
        change (st.saveJob j).jobs[k]? = some i
        rw [hga] at hi
        rw [hgs]
        split at hi
        · rw [if_pos ‹_›]; exact hi
        · rw [if_neg ‹_›]; exact h.job_known k i hi
      · intro k hk
        change (a.saveJob j).jobs[k]? = none at hk
        change (st.saveJob j).jobs[k]? = _
        rw [hga] at hk
        rw [hgs]
        split at hk
        · cases hk
        · rw [if_neg ‹_›]; exact h.job_new k hk
  | task t =>
      obtain ⟨t₀, ht, ho, hopen₀, hq⟩ := happ
      obtain ⟨t', ht', ho', -⟩ := h.grows.task _ t₀ ht
      obtain ⟨u, hu, huo⟩ := h.task_row _ t' ht'
      have hga := get_saveTask ht ho
      have hgs := get_saveTask hu (ho.trans (ho'.symm.trans huo.symm))
      refine ⟨hgrows, h.jobSeq, h.taskSeq, h.job_known, h.job_new, ?_, ?_, ?_, ?_⟩
      · intro k v hv
        change ∃ u, (st.saveTask t).tasks[k]? = some u ∧ _
        rw [hgs]
        split
        · subst k
          cases ht'.symm.trans hv
          exact ⟨t, rfl, ho.trans ho'.symm⟩
        · exact h.task_row k v hv
      · intro k v hv
        change (st.saveTask t).tasks[k]? = some v at hv
        rw [hgs] at hv
        split at hv
        · subst k; exact ⟨t', ht'⟩
        · exact h.task_there k v hv
      · intro k v hv
        change (st.saveTask t).tasks[k]? = some v ↔ (a.saveTask t).tasks[k]? = some v
        rw [hgs, hga]
        split
        · rfl
        · exact h.ended k v hv
      · intro k v hv
        change (st.saveTask t).tasks[k]? = some v at hv
        rw [hgs] at hv
        split at hv
        · cases hv; exact hq
        · exact h.unassigned k v hv
  | failure => exact h.transfer rfl rfl rfl rfl rfl rfl h.jobSeq h.taskSeq
  | event => exact h.transfer rfl rfl rfl rfl rfl rfl h.jobSeq h.taskSeq
  | roles => exact h.transfer rfl rfl rfl rfl rfl rfl h.jobSeq h.taskSeq

/-- The same tasks belong to each job as after everything handed over. -/
theorem population (h : Between a c st) (id : JobId) :
    Gavel.Cluster.population st.tasks id = Gavel.Cluster.population c.tasks id := by
  refine Table.count_congr_get fun k => ?_
  cases ht : c.tasks[k]? with
  | some t =>
      obtain ⟨u, hu, ho⟩ := h.task_row k t ht
      simp [hu, ho.jobId]
  | none =>
      cases hu : st.tasks[k]? with
      | none => rfl
      | some u =>
          obtain ⟨t, ht'⟩ := h.task_there k u hu
          rw [ht] at ht'
          cases ht'

theorem tally (h : Between a c st) (id : JobId) {state : TaskState} (hs : state.isTerminal = true) :
    Gavel.Cluster.tally st.tasks id state = Gavel.Cluster.tally a.tasks id state := by
  refine Table.count_congr_get fun k => ?_
  rw [Bool.eq_iff_iff, Option.any_eq_true, Option.any_eq_true]
  simp only [Bool.and_eq_true, beq_iff_eq]
  constructor
  · rintro ⟨t, ht, hid, rfl⟩; exact ⟨t, (h.ended k t hs).mp ht, hid, rfl⟩
  · rintro ⟨t, ht, hid, rfl⟩; exact ⟨t, (h.ended k t hs).mpr ht, hid, rfl⟩

/-- Whatever lies between two well-formed stores is well formed. -/
theorem stored (h : Between a c st) (ha : a.Stored) (hc : c.Stored) : st.Stored := by
  have hjob (id : JobId) (j : Job) (hj : st.jobs[id]? = some j) :
      ∃ j', c.jobs[id]? = some j' ∧ (a.jobs[id]? = some j ∨ j = j'.asNew ∧ a.jobs[id]? = none) := by
    cases hja : a.jobs[id]? with
    | some i =>
        obtain ⟨j', hj', -⟩ := h.grows.job id i hja
        cases (h.job_known id i hja).symm.trans hj
        exact ⟨j', hj', .inl rfl⟩
    | none =>
        rw [h.job_new id hja] at hj
        obtain ⟨j', hj', rfl⟩ := Option.map_eq_some_iff.mp hj
        exact ⟨j', hj', .inr ⟨rfl, rfl⟩⟩
  refine ⟨⟨?_, ?_⟩, h.unassigned, ?_, ?_, ?_, ?_⟩
  · intro k u hu
    obtain ⟨t, ht⟩ := h.task_there k u hu
    obtain ⟨u', hu', ho⟩ := h.task_row k t ht
    cases hu.symm.trans hu'
    exact ho.id.trans (hc.keyed.task k t ht)
  · intro id j hj
    obtain ⟨j', hj', hold | ⟨rfl, -⟩⟩ := hjob id j hj
    · exact ha.keyed.job id j hold
    · exact hc.keyed.job id j' hj'
  · intro k u hu
    obtain ⟨t, ht⟩ := h.task_there k u hu
    rw [h.taskSeq]
    exact hc.task_le k t ht
  · intro id j hj
    obtain ⟨j', hj', -⟩ := hjob id j hj
    rw [h.jobSeq]
    exact hc.job_le id j' hj'
  · intro k u hu
    obtain ⟨t, ht⟩ := h.task_there k u hu
    obtain ⟨u', hu', ho⟩ := h.task_row k t ht
    cases hu.symm.trans hu'
    obtain ⟨j', hj'⟩ := hc.owned k t ht
    rw [ho.jobId]
    cases hja : a.jobs[t.jobId]? with
    | some i => exact ⟨i, h.job_known _ i hja⟩
    | none => exact ⟨j'.asNew, by rw [h.job_new _ hja, hj']; rfl⟩
  · intro id j hj
    obtain ⟨j', hj', hold | ⟨rfl, -⟩⟩ := hjob id j hj
    · obtain ⟨i, hi, ho⟩ := h.grows.job id j hold
      have hweak := ha.weak id j hold
      refine ⟨?_, hweak.small, ?_, ?_, hweak.settled⟩
      · rw [h.population, (hc.weak id i hi).total, ho.taskCount]
      · rw [h.tally id rfl]; exact hweak.completed
      · rw [h.tally id rfl]; exact hweak.failed
    · have hweak := hc.weak id j' hj'
      refine ⟨?_, hweak.small, Nat.zero_le _, Nat.zero_le _, by intro hterm; cases hterm⟩
      rw [h.population]
      exact hweak.total

end Between

end Store

/-! ## Every interleaving -/

/-- The update an operation hands to the writer, if it does. -/
def DurableOp.write? : DurableOp → Option Write
  | .queued w => some w
  | _ => none

theorem DurableOp.write?_none {op : DurableOp} (h : op.write? = none) (w : Write) : op ≠ .queued w := by
  rintro rfl
  cases h

open Supervisor

variable {st₀ : Store} {journal : List JournalEntry}

theorem Supervisor.Followed.grows (h : Followed st₀ journal) {p q : List DurableOp}
    (hp : p ++ q <+: journal.map JournalEntry.op) : (st₀.replay p).Grows (st₀.replay (p ++ q)) := by
  induction q using List.reverseRecOn with
  | nil => rw [List.append_nil]; exact .refl _
  | append_singleton q op ih =>
      have hinit : p ++ q <+: journal.map JournalEntry.op :=
        List.IsPrefix.trans ⟨[op], by simp⟩ hp
      obtain ⟨after, hafter⟩ := hp
      refine (ih hinit).trans ?_
      rw [← List.append_assoc, Store.replay_concat]
      have hops : journal.map JournalEntry.op = (p ++ q) ++ op :: after := by rw [← hafter]; simp
      exact (h.applies hops).1.grows

/-- The operations applied in order so far and those that may still be on their way. -/
structure Backed.Behind (st₀ : Store) (b : Backed) : Prop where
  bound : b.issued ≤ b.supervisor.journal.length
  split : ∃ done rest, b.supervisor.ops.take b.issued = done ++ rest ∧
    b.writer.pending = rest.filterMap DurableOp.write? ∧
    Store.Between (st₀.replay done) (st₀.replay (done ++ rest)) b.store

namespace Backed

variable {b : Backed}

theorem boot_behind (h : st₀.Stored) (config : LocalClusterConfig) (scheduler : Scheduler)
    (elector : Elector) (now : Millis) : (boot config scheduler elector st₀ now).Behind st₀ where
  bound := Nat.zero_le _
  split := ⟨[], [], rfl, rfl, .refl h⟩

/-- Operations that were awaited are counted as applied. -/
theorem between_skip (hf : Followed st₀ journal) (l done rest : List DurableOp) {st : Store}
    (hl : ∀ op ∈ l, op.write? = none) (hp : done ++ l ++ rest <+: journal.map JournalEntry.op)
    (h : Store.Between (st₀.replay done) (st₀.replay (done ++ l ++ rest)) st) :
    Store.Between (st₀.replay (done ++ l)) (st₀.replay (done ++ l ++ rest)) st := by
  induction l generalizing done with
  | nil => rwa [List.append_nil] at h ⊢
  | cons op l ih =>
      have heq : done ++ op :: l = (done ++ [op]) ++ l := by simp
      obtain ⟨after, hafter⟩ := id hp
      have hops : journal.map JournalEntry.op = done ++ op :: (l ++ rest ++ after) := by rw [← hafter]; simp
      have happ := (hf.applies hops).1
      rw [heq] at hp h ⊢
      refine ih (done ++ [op]) (fun x hx => hl x (List.mem_cons_of_mem _ hx)) hp ?_
      have hgrows : ((st₀.replay done).perform op).Grows (st₀.replay (done ++ [op] ++ l ++ rest)) := by
        rw [← Store.replay_concat, List.append_assoc]
        exact hf.grows (by rw [← List.append_assoc]; exact hp)
      rw [Store.replay_concat]
      exact h.skip (DurableOp.write?_none (hl op List.mem_cons_self)) happ hgrows

theorem next_split {op : DurableOp} (h : b.next = some op) : b.issued < b.supervisor.journal.length ∧
    b.supervisor.ops.take (b.issued + 1) = b.supervisor.ops.take b.issued ++ [op] ∧
    ∃ after, b.supervisor.ops = b.supervisor.ops.take b.issued ++ op :: after := by
  obtain ⟨e, he, rfl⟩ := Option.map_eq_some_iff.mp h
  have hop : b.supervisor.ops[b.issued]? = some e.op := by simp [ops, he]
  obtain ⟨hlt, -⟩ := List.getElem?_eq_some_iff.mp he
  have htake : b.supervisor.ops.take (b.issued + 1) = b.supervisor.ops.take b.issued ++ [e.op] := by
    rw [List.take_add_one, hop]; rfl
  refine ⟨hlt, htake, b.supervisor.ops.drop (b.issued + 1), ?_⟩
  have hsplit := List.take_append_drop (b.issued + 1) b.supervisor.ops
  rw [htake, List.append_assoc] at hsplit
  exact hsplit.symm

theorem hand_behind (ht : b.supervisor.Tracks st₀) (h : b.Behind st₀) {op : DurableOp}
    (hop : b.next = some op) : (b.hand op).Behind st₀ := by
  obtain ⟨hlt, htake, after, hafter⟩ := next_split hop
  obtain ⟨done, rest, hsplit, hpending, hbetween⟩ := h.split
  have happ : (st₀.replay (done ++ rest)).Applies op := by
    rw [← hsplit]
    exact (ht.past.applies hafter).1
  have hsplit' : b.supervisor.ops.take (b.issued + 1) = done ++ (rest ++ [op]) := by
    rw [htake, hsplit, List.append_assoc]
  have hreplay : st₀.replay (done ++ (rest ++ [op])) = (st₀.replay (done ++ rest)).perform op := by
    rw [← List.append_assoc, Store.replay_concat]
  have direct (hw : op.write? = none) (hb : Store.Between (st₀.replay done)
      ((st₀.replay (done ++ rest)).perform op) (b.store.perform op)) :
      ({ b with issued := b.issued + 1, store := b.store.perform op } : Backed).Behind st₀ := by
    refine ⟨hlt, done, rest ++ [op], hsplit', ?_, hreplay ▸ hb⟩
    rw [List.filterMap_append, List.filterMap_cons_none hw, List.filterMap_nil, List.append_nil]
    exact hpending
  cases op with
  | queued w =>
      simp only [hand]
      split
      · refine ⟨hlt, done, rest ++ [.queued w], hsplit', ?_, hreplay ▸ hbetween.queue happ⟩
        simp [hpending, DurableOp.write?]
      · exact h
  | reserveJob =>
      refine direct rfl ?_
      exact hbetween.transfer rfl rfl rfl rfl rfl rfl (congrArg (· + 1) hbetween.jobSeq) hbetween.taskSeq
  | reserveTasks count =>
      refine direct rfl ?_
      exact hbetween.transfer rfl rfl rfl rfl rfl rfl hbetween.jobSeq
        (congrArg (· + max count 1) hbetween.taskSeq)
  | createJob j ts => exact direct rfl (hbetween.create happ)
  | saveTask t => exact direct rfl (hbetween.save happ.1 happ.2)

theorem apply_behind (ht : b.supervisor.Tracks st₀) (h : b.Behind st₀) {w : Write}
    (hw : b.writer.current = some w) :
    ({ b with store := b.store.drain w, writer := b.writer.finish } : Backed).Behind st₀ := by
  obtain ⟨done, rest, hsplit, hpending, hbetween⟩ := h.split
  have hpre : done ++ rest <+: b.supervisor.ops := hsplit ▸ List.take_prefix _ _
  rw [Writer.pending_finish hw] at hpending
  obtain ⟨l, op, rest', rfl, hl, hop, hrest⟩ := List.filterMap_eq_cons_iff.mp hpending.symm
  cases op with
  | queued w' =>
      cases hop
      have heq : done ++ (l ++ .queued w :: rest') = done ++ l ++ (.queued w :: rest') := by simp
      have heq' : done ++ (l ++ .queued w :: rest') = done ++ l ++ [.queued w] ++ rest' := by simp
      rw [heq] at hpre hbetween
      have hskip := between_skip ht.past l done _ hl hpre hbetween
      obtain ⟨after, hafter⟩ := id hpre
      have hops : b.supervisor.ops = (done ++ l) ++ .queued w :: (rest' ++ after) := by
        rw [List.append_assoc] at hafter; exact hafter.symm
      have happ := (ht.past.applies hops).1
      have hgrows : ((st₀.replay (done ++ l)).perform (.queued w)).Grows
          (st₀.replay (done ++ l ++ (.queued w :: rest'))) := by
        rw [← Store.replay_concat, ← heq, heq']
        exact ht.past.grows (by rw [← heq', heq]; exact hpre)
      refine ⟨h.bound, done ++ l ++ [.queued w], rest', ?_, hrest.symm, ?_⟩
      · exact hsplit.trans heq'
      · have hdrain := hskip.drain happ hgrows
        rw [← Store.replay_concat, ← heq, heq'] at hdrain
        exact hdrain
  | _ => cases hop

theorem step_behind (hw : b.supervisor.Wf) (ht : b.supervisor.Tracks st₀) (h : b.Behind st₀)
    (a : BackedAction) : (b.step a).Behind st₀ := by
  cases a with
  | turn t =>
      simp only [step]
      split
      · rename_i hdone
        have hpre := Changes.ops_prefix (handle_changes t.1 hw t.2)
        have hlen : b.issued = b.supervisor.ops.length := by rw [hdone]; simp [ops]
        obtain ⟨done, rest, hsplit, hpending, hbetween⟩ := h.split
        refine ⟨?_, done, rest, ?_, hpending, hbetween⟩
        · have hle := hpre.length_le
          simp only [ops, List.length_map] at hle
          exact hdone ▸ hle
        · rw [← hsplit, hlen, List.take_length]
          exact (List.prefix_iff_eq_take.mp hpre).symm
      · exact h
  | issue =>
      unfold step
      cases hop : b.next with
      | none => exact h
      | some op => exact hand_behind ht h hop
  | take =>
      obtain ⟨done, rest, hsplit, hpending, hbetween⟩ := h.split
      exact ⟨h.bound, done, rest, hsplit, Writer.pending_take.trans hpending, hbetween⟩
  | apply =>
      unfold step
      cases hcur : b.writer.current with
      | none => exact h
      | some w => exact apply_behind ht h hcur

/-- The supervisor of a step is the old one, or the old one after a message. -/
theorem step_supervisor (b : Backed) (a : BackedAction) : (b.step a).supervisor = b.supervisor ∨
    ∃ t, (b.step a).supervisor = b.supervisor.step t := by
  cases a with
  | turn t =>
      simp only [step]
      split
      · exact .inr ⟨t, rfl⟩
      · exact .inl rfl
  | issue =>
      unfold step
      cases b.next with
      | none => exact .inl rfl
      | some op =>
          cases op with
          | queued w =>
              simp only [hand]
              split <;> exact .inl rfl
          | _ => exact .inl rfl
  | take => exact .inl rfl
  | apply =>
      unfold step
      cases b.writer.current <;> exact .inl rfl

/-- What holds in every state of every interleaving. -/
structure Sound (st₀ : Store) (b : Backed) : Prop where
  wf : b.supervisor.Wf
  tracks : b.supervisor.Tracks st₀
  behind : b.Behind st₀

theorem Sound.step (h : b.Sound st₀) (a : BackedAction) : (b.step a).Sound st₀ := by
  refine ⟨?_, ?_, step_behind h.wf h.tracks h.behind a⟩
  · rcases step_supervisor b a with heq | ⟨t, heq⟩
    · rw [heq]; exact h.wf
    · rw [heq]; exact handle_wf _ h.wf t.2
  · rcases step_supervisor b a with heq | ⟨t, heq⟩
    · rw [heq]; exact h.tracks
    · rw [heq]; exact handle_tracks h.wf h.tracks t.2

theorem boot_sound (h : st₀.Stored) (config : LocalClusterConfig) (scheduler : Scheduler)
    (elector : Elector) (now : Millis) : (boot config scheduler elector st₀ now).Sound st₀ where
  wf := bootstrap_wf _ config scheduler elector h
  tracks := bootstrap_tracks config scheduler elector h
  behind := boot_behind h config scheduler elector now

theorem Sound.stored (h : b.Sound st₀) (h₀ : st₀.Stored) : b.store.Stored := by
  obtain ⟨done, rest, hsplit, -, hbetween⟩ := h.behind.split
  have hpre : done ++ rest <+: b.supervisor.ops := hsplit ▸ List.take_prefix _ _
  exact hbetween.stored (h.tracks.past.stored h₀ (List.IsPrefix.trans ⟨rest, rfl⟩ hpre))
    (h.tracks.past.stored h₀ hpre)

end Backed

theorem Store.Reachable.stored {store : Store} (h : store.Reachable) : store.Stored := by
  induction h with
  | empty => exact Store.empty_stored
  | stopped _ config scheduler elector boot actions hb ih =>
      have hall := Run.invariant_always (I := Backed.Sound _) (fun b a h => h.step a) actions
        (Backed.boot_sound ih config scheduler elector boot)
      exact (hall _ hb).stored ih

end Gavel.Cluster
