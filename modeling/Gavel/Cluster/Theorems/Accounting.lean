import Gavel.Cluster.Lemmas.Accounting
import Gavel.Cluster.Lemmas.Startup

/-!
# Job accounting

For every run over an empty store: the counters of a job are the numbers of its tasks that completed
and failed, a job has ended exactly when all of its tasks have, and its end is announced once.
-/

namespace Gavel.Cluster.Supervisor

variable {s : Supervisor} {now : Millis} (config : LocalClusterConfig) (scheduler : Scheduler)
  (elector : Elector)

/-! ## The first state -/

theorem bootstrap_empty_accounts : (bootstrap config scheduler elector .empty now).Accounts := by
  obtain ⟨hj, ht, hq, ho⟩ := loadedState_empty now config scheduler elector
  have hregistered : (registered config scheduler elector .empty now).Announced := by
    refine ⟨?_, fun id _ => rfl⟩
    intro id j hj
    simp [registered, new] at hj
  have hlaunched := (launched_quiet config scheduler elector .empty now).announced hregistered
  have hloaded : (loadedState config scheduler elector .empty now).Accounts := by
    refine ⟨⟨?_, ?_, ?_⟩, ?_, ?_, ?_⟩
    · simp [ht]
    · simp [hj]
    · simp [hq]
    · rw [hj, ht]; exact .empty
    · simp [hj]
    · intro id hid
      rw [(loadedState_fields _ config scheduler elector .empty).1.jobSeq] at hid
      have hend := hlaunched.ahead id hid
      simpa [endings, emitted, ho] using hend
  have hquiet := Quiet.refreshLeadership (loadedState config scheduler elector .empty now) now
  exact (Change.accounts hloaded (.smooth (.quiet hquiet) : Change now _ _)).1

/-! ## Every run -/

/-- The account of one job in memory. -/
structure Accounted (s : Supervisor) (id : JobId) (j : Job) : Prop where
  population : population s.tasks id = j.taskCount
  completed : j.tasksCompleted = tally s.tasks id .completed
  failed : j.tasksFailed = tally s.tasks id .failed
  ended : j.state.isTerminal = true ↔
    ∀ (k : TaskId) t, s.tasks[k]? = some t → t.jobId = id → t.state.isTerminal = true
  verdict : j.state.isTerminal = true → (j.state = .failed ↔
    ∃ (k : TaskId) (t : Task), s.tasks[k]? = some t ∧ t.jobId = id ∧ t.state = .failed)
  announced : if j.state.isTerminal then ∃ ev, s.endings id = [ev] else s.endings id = []

theorem Accounts.accounted (h : s.Accounts) {id : JobId} {j : Job} (hj : s.jobs[id]? = some j) :
    s.Accounted id j := by
  have hb := h.ledger.balanced id j hj
  refine ⟨hb.total, hb.completed.symm, hb.failed.symm, hb.terminal_iff, hb.failed_iff, ?_⟩
  rw [h.announced.memory id j hj]
  unfold Job.ending
  cases hs : j.state with
  | queued => rfl
  | running => rfl
  | completed => exact ⟨_, rfl⟩
  | failed => exact ⟨_, rfl⟩
  | cancelled =>
      have hv := hb.verdict (by rw [hs]; rfl)
      rw [hs] at hv
      rcases j.verdict_cases with h | h <;> rw [h] at hv <;> cases hv

theorem step_accounts (s : Supervisor) (t : Turn) (h : s.Wf ∧ s.Accounts) :
    ((s.step t).Wf ∧ (s.step t).Accounts) ∧ Frozen s (s.step t) := by
  obtain ⟨ha, hf⟩ := handle_accounts t.1 h.1 h.2 t.2
  exact ⟨⟨handle_wf _ h.1 t.2, ha⟩, hf⟩

/-- In every state of a run over an empty store every job in memory is accounted for, and between any
two states of the run a task or job that has ended does not change while it stays in memory. -/
theorem job_accounting (boot : Millis) (turns : List Turn) :
    (∀ s ∈ session config scheduler elector .empty boot turns,
      ∀ (id : JobId) j, s.jobs[id]? = some j → s.Accounted id j) ∧
    ∀ before after, turns = before ++ after →
      let start := bootstrap config scheduler elector .empty boot
      let s := Run.final step start before
      let s' := Run.final step start turns
      (∀ (id : TaskId) t, s.tasks[id]? = some t → t.state.isTerminal = true →
        ∀ t', s'.tasks[id]? = some t' → t' = t) ∧
      (∀ (id : JobId) j, s.jobs[id]? = some j → j.state.isTerminal = true →
        ∀ j', s'.jobs[id]? = some j' → j' = j) := by
  have hboot : (bootstrap config scheduler elector .empty boot).Wf ∧
      (bootstrap config scheduler elector .empty boot).Accounts :=
    ⟨bootstrap_empty_wf config scheduler elector, bootstrap_empty_accounts config scheduler elector⟩
  have hkeep (s : Supervisor) (t : Turn) (h : s.Wf ∧ s.Accounts) := (step_accounts s t h).1
  constructor
  · intro s hs id j hj
    exact (Run.invariant_always hkeep turns hboot s hs).2.accounted hj
  · rintro before after rfl
    have hmid := Run.invariant_final hkeep before hboot
    have hfrozen := Run.related (R := Frozen) Frozen.refl
      (fun s _ _ h => Frozen.trans h.2.numbered) step_accounts after hmid
    rw [← Run.final_append] at hfrozen
    exact ⟨hfrozen.task, hfrozen.job⟩

end Gavel.Cluster.Supervisor
