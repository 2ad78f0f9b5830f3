import Gavel.Cluster.Lemmas.Crash

/-!
# Recovery after a crash

A process may stop between any two of its writes. What the next one restores has every job in step with its
tasks, unless an earlier process stopped between the end of a task and the end of what its job owes it.
-/

namespace Gavel.Cluster

variable {store : Store}

/-! ## Stopped processes -/

/-- The store left by a number of processes one after the other. Of each, the operations that had reached
the store when it stopped are given; they arrive in the order they were issued. -/
inductive Store.Crashed : List (List DurableOp) → Store → Prop where
  | new : Crashed [] .empty
  | stopped {cuts : List (List DurableOp)} {store : Store} (h : Crashed cuts store)
      (config : LocalClusterConfig) (scheduler : Scheduler) (elector : Elector) (boot : Millis)
      (turns : List Supervisor.Turn) {p : List DurableOp}
      (hp : p <+: (Run.final Supervisor.step
        (Supervisor.bootstrap config scheduler elector store boot) turns).ops) :
      Crashed (cuts ++ [p]) (store.replay p)

/-- A process stopped after it wrote the end of a task and before its job counted it, or after a job had
counted its last task and before it wrote the end of the job. -/
def Torn (p : List DurableOp) : Prop := ∃ id, stages p id ≠ .whole

namespace Supervisor

variable {s : Supervisor} {now : Millis} {st₀ : Store} {id : JobId} {j : Job}

/-- Every job in memory counts its tasks right and, unless it has ended, has something to run. No job that
has not ended is left out. -/
structure Recovered (store : Store) (s : Supervisor) : Prop where
  counters : ∀ (id : JobId) j, s.jobs[id]? = some j →
    j.tasksCompleted = tally s.tasks id .completed ∧ j.tasksFailed = tally s.tasks id .failed
  runnable : ∀ (id : JobId) j, s.jobs[id]? = some j → j.state.isTerminal = false →
    ∃ (k : TaskId) (t : Task), s.tasks[k]? = some t ∧ t.jobId = id ∧ t.state = .queued ∧ k ∈ s.queue
  present : ∀ (id : JobId) j, store.jobs[id]? = some j → j.state.isTerminal = false →
    s.jobs[id]? = some j

section Boot

variable (config : LocalClusterConfig) (scheduler : Scheduler) (elector : Elector)

/-! ## What is restored -/

theorem loadedState_stored (h : store.Stored)
    (hj : (loadedState config scheduler elector store now).jobs[id]? = some j) :
    store.jobs[id]? = some j := by
  obtain ⟨hid, hmem⟩ := (loadedState_job config scheduler elector h.keyed).mp hj
  have hrow := (Store.mem_loaded h.keyed hmem).1
  rwa [show (j, store.tasksForJob id).1.id = id from hid] at hrow

variable (now) in
theorem loadedState_present (h : store.Stored) (hj : store.jobs[id]? = some j)
    (hopen : j.state.isTerminal = false) :
    (loadedState config scheduler elector store now).jobs[id]? = some j :=
  (loadedState_job config scheduler elector h.keyed).mpr
    ⟨h.keyed.job id j hj, Store.loaded_unfinished h.keyed _ hj hopen⟩

/-- The ended tasks of a restored job are those in the store. -/
theorem loadedState_tally (h : store.Stored)
    (hj : (loadedState config scheduler elector store now).jobs[id]? = some j) {st : TaskState}
    (hst : st.isTerminal = true) :
    tally (loadedState config scheduler elector store now).tasks id st = tally store.tasks id st := by
  refine Table.count_congr_get fun k => ?_
  rw [Bool.eq_iff_iff, Option.any_eq_true, Option.any_eq_true]
  simp only [Bool.and_eq_true, beq_iff_eq]
  constructor
  · rintro ⟨t, ht, hid, hs⟩
    obtain ⟨t₀, j₀, ht₀, rfl, -⟩ := (loadedState_task config scheduler elector h.keyed).mp ht
    have hkept : t₀.loadedAs now j₀ = t₀ := by
      unfold Task.loadedAs
      split
      · rename_i hreset
        rw [Task.loadedAs, if_pos hreset] at hs
        rw [← hs] at hst
        cases hst
      · rfl
    rw [hkept] at hid hs
    exact ⟨t₀, ht₀, hid, hs⟩
  · rintro ⟨t, ht, hid, hs⟩
    have hterm : t.state.isTerminal = true := by rw [hs]; exact hst
    have hkept : t.loadedAs now j = t := by simp [Task.loadedAs, Task.isReset, hterm]
    refine ⟨t, ?_, hid, hs⟩
    exact (loadedState_task config scheduler elector h.keyed).mpr ⟨t, j, ht, hkept.symm, hid ▸ hj⟩

/-- Recovery succeeds exactly on a store in which no job is behind its tasks. -/
theorem recovered_iff_not_behind (h : store.Stored) :
    Recovered store (loadedState config scheduler elector store now) ↔ ∀ id, ¬ store.Behind id := by
  constructor
  · rintro hr id ⟨j, hj, hbehind⟩
    have hweak := h.weak id j hj
    have hpop := population_eq store.tasks id
    have htotal := hweak.total
    have hopen : j.state.isTerminal = false := by
      rcases hbehind with hlt | hstuck
      · by_contra hterm
        have hs := hweak.settled (by simpa using hterm)
        unfold Job.counted endedTasks at hlt
        omega
      · exact hstuck.1
    have hload := loadedState_present now config scheduler elector h hj hopen
    obtain ⟨hc, hf⟩ := hr.counters id j hload
    rw [loadedState_tally config scheduler elector h hload rfl] at hc hf
    rcases hbehind with hlt | ⟨-, hle⟩
    · unfold Job.counted endedTasks at hlt
      omega
    · -- All its tasks have ended, and yet one of them was queued.
      obtain ⟨k, t, ht, hid, hq, -⟩ := hr.runnable id j hload hopen
      obtain ⟨t₀, j₀, ht₀, rfl, -⟩ := (loadedState_task config scheduler elector h.keyed).mp ht
      rw [Task.loadedAs_jobId] at hid
      have hopen₀ : t₀.state.isTerminal = false := by
        unfold Task.loadedAs at hq
        split at hq
        · rename_i hreset
          simp only [Task.isReset, Bool.and_eq_true, Bool.not_eq_true'] at hreset
          exact hreset.2
        · rw [hq]; rfl
      have hlt := hweak.ended_lt ht₀ hid hopen₀
      omega
  · intro hnone
    refine ⟨?_, ?_, fun id j hj hopen => loadedState_present _ config scheduler elector h hj hopen⟩
    · intro id j hload
      have hj := loadedState_stored config scheduler elector h hload
      have hweak := h.weak id j hj
      have hc := hweak.completed
      have hf := hweak.failed
      rw [loadedState_tally config scheduler elector h hload rfl,
        loadedState_tally config scheduler elector h hload rfl]
      have hle : ¬ j.counted < endedTasks store.tasks id := fun hlt => hnone id ⟨j, hj, .inl hlt⟩
      unfold Job.counted endedTasks at hle
      omega
    · intro id j hload hopen
      have hj := loadedState_stored config scheduler elector h hload
      have hlt : ¬ j.taskCount ≤ endedTasks store.tasks id := fun hle =>
        hnone id ⟨j, hj, .inr ⟨hopen, hle⟩⟩
      have hpop := population_eq store.tasks id
      have htotal := (h.weak id j hj).total
      unfold endedTasks at hlt
      obtain ⟨k, t₀, ht₀, hid, hopen₀⟩ := openTasks_pos_iff.mp
        (show 0 < openTasks store.tasks id by omega)
      have hreset : t₀.isReset j = true := by simp [Task.isReset, hopen, hopen₀]
      have hj₀ := hload
      rw [← hid] at hj₀
      refine ⟨k, t₀.loadedAs now j, ?_, ?_, ?_, ?_⟩
      · exact (loadedState_task config scheduler elector h.keyed).mpr ⟨t₀, j, ht₀, rfl, hj₀⟩
      · rw [Task.loadedAs_jobId]; exact hid
      · rw [Task.loadedAs, if_pos hreset]; rfl
      · exact (loadedState_queue config scheduler elector h.keyed).mpr ⟨t₀, j, ht₀, hreset, hj₀⟩

/-! ## Every crash point -/

/-- All the operations of a process, up to the end of some message. -/
theorem run_tidy (h : store.Stored) (boot : Millis) (turns : List Turn) :
    (Run.final step (bootstrap config scheduler elector store boot) turns).Tracks store ∧
    (Run.final step (bootstrap config scheduler elector store boot) turns).Tidy store := by
  have hkeep := Run.invariant_final (I := fun s : Supervisor => s.Wf ∧ s.Tracks store ∧ s.Tidy store)
    (fun s (t : Turn) ⟨hw, hf, ht⟩ => ⟨handle_wf t.1 hw t.2, handle_tracks hw hf t.2,
      handle_tidy hw hf ht t.2⟩) turns
    ⟨bootstrap_wf boot config scheduler elector h, bootstrap_tracks config scheduler elector h,
      bootstrap_tidy config scheduler elector h⟩
  exact hkeep.2

end Boot

end Supervisor

/-- The jobs that are behind are those some process left torn. -/
theorem Store.Crashed.behind {cuts : List (List DurableOp)} (h : Store.Crashed cuts store) :
    store.Stored ∧ ∀ id, store.Behind id ↔ ∃ p ∈ cuts, stages p id ≠ .whole := by
  induction h with
  | new => exact ⟨Store.empty_stored, fun id => by simp [Store.Behind, Store.empty]⟩
  | @stopped cuts store h config scheduler elector boot turns p hp ih =>
      obtain ⟨hstored, hbehind⟩ := ih
      obtain ⟨hf, ht⟩ := Supervisor.run_tidy config scheduler elector hstored boot turns
      refine ⟨hf.past.stored hstored hp, ?_⟩
      intro id
      rw [(Accountable.cut hstored hf.past ht.passes.orderly hp).behind_iff, hbehind]
      simp [or_and_right, exists_or]

/-- However many processes have stopped, and between whichever two of their writes. -/
theorem Supervisor.recovered_iff {cuts : List (List DurableOp)} (h : store.Crashed cuts)
    (config : LocalClusterConfig) (scheduler : Scheduler) (elector : Elector) (now : Millis) :
    Recovered store (loadedState config scheduler elector store now) ↔ ∀ p ∈ cuts, ¬ Torn p := by
  obtain ⟨hstored, hbehind⟩ := h.behind
  rw [recovered_iff_not_behind config scheduler elector hstored]
  simp only [hbehind, Torn]
  constructor
  · rintro hnone p hp ⟨id, hid⟩
    exact hnone id ⟨p, hp, hid⟩
  · rintro hnone id ⟨p, hp, hid⟩
    exact hnone p hp ⟨id, hid⟩

namespace Supervisor

/-- One worker runs the one task of a job. -/
def oneTaskTurns : List Turn :=
  [(0, .attachRemote (some 5) ⟨4, 8⟩), (1, .submitJob (.sleep 100 1) none),
    (2, .report (.taskStarted 5 (Task.new 1 1 0 (.sleep 100) 1))),
    (3, .report (.taskFinished 5 (Task.new 1 1 0 (.sleep 100) 1) (.completed "done")))]

/-- The operations of that process. -/
def oneTaskOps : List DurableOp :=
  (Run.final step (bootstrap (.oneWorker 5 ⟨4, 8⟩) leastLoaded lowestHealthyId .empty 0) oneTaskTurns).ops

theorem recovered_after_all_writes :
    Recovered (Store.empty.replay oneTaskOps) (loadedState (.oneWorker 5 ⟨4, 8⟩) leastLoaded
      lowestHealthyId (Store.empty.replay oneTaskOps) 10) := by
  refine (recovered_iff (.stopped .new (.oneWorker 5 ⟨4, 8⟩) leastLoaded lowestHealthyId 0 oneTaskTurns
    List.prefix_rfl) (.oneWorker 5 ⟨4, 8⟩) leastLoaded lowestHealthyId 10).mpr ?_
  rintro p hp ⟨id, hid⟩
  rw [List.mem_singleton.mp hp] at hid
  have hwhole := (run_tidy (.oneWorker 5 ⟨4, 8⟩) leastLoaded lowestHealthyId Store.empty_stored 0
    oneTaskTurns).2.passes.whole
  exact hid (congrFun hwhole id)

set_option maxRecDepth 20000 in
/-- The process stops right after the task's end is written: the job counts no ended task, and it is never
going to. -/
theorem not_recovered_after_torn_finish :
    ¬ ∀ p, p <+: oneTaskOps → Recovered (Store.empty.replay p)
      (loadedState (.oneWorker 5 ⟨4, 8⟩) leastLoaded lowestHealthyId (Store.empty.replay p) 10) := by
  intro h
  have hcut := h (oneTaskOps.take 13) (List.take_prefix _ _)
  have hjob : ∃ j ∈ (loadedState (.oneWorker 5 ⟨4, 8⟩) leastLoaded lowestHealthyId
      (Store.empty.replay (oneTaskOps.take 13)) 10).jobs[1]?, j.tasksCompleted = 0 := by decide
  have hended : tally (loadedState (.oneWorker 5 ⟨4, 8⟩) leastLoaded lowestHealthyId
      (Store.empty.replay (oneTaskOps.take 13)) 10).tasks 1 .completed = 1 := by decide
  obtain ⟨j, hj, hzero⟩ := hjob
  have hcount := (hcut.counters 1 j hj).1
  rw [hended, hzero] at hcount
  cases hcount

end Supervisor

end Gavel.Cluster
