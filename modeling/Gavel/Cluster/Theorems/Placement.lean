import Gavel.Cluster.Lemmas.Placement
import Gavel.Cluster.Lemmas.Behind
import Mathlib.Order.Basic

/-!
# Every unfinished task is in one place

Either it waits in the queue, once, or one node holds it and was told so through the inbox of its current
handle. A worker that takes over the id of a connection that still holds work breaks this: the work stays
assigned to the id, and the new connection never hears of it.
-/

namespace Gavel.Cluster.Supervisor

variable {s : Supervisor} {now : Millis}

/-- Queued, assigned to nobody, and in the queue once. -/
structure Waiting (s : Supervisor) (t : Task) : Prop where
  state : t.state = .queued
  assignedTo : t.assignedTo = none
  once : s.queue.count t.id = 1

/-- Held by a registered node whose current handle was sent the assignment of this attempt. -/
structure PlacedOn (s : Supervisor) (t : Task) (n : NodeId) : Prop where
  held : t.state.isHeld = true
  assignedTo : t.assignedTo = some n
  dequeued : t.id ∉ s.queue
  delivered : s.Delivered n t

structure Placement (s : Supervisor) : Prop where
  each : ∀ (id : TaskId) t, s.tasks[id]? = some t → t.state.isTerminal = false →
    Xor (s.Waiting t) (∃ n, s.PlacedOn t n)
  single : ∀ (id id' : TaskId) t t' n, s.tasks[id]? = some t → s.tasks[id']? = some t' →
    s.PlacedOn t n → s.PlacedOn t' n → id = id'

theorem Arranged.placement (h : Settled s) : s.Placement where
  each := by
    intro id t ht hopen
    have hid := h.wf.taskKey id t ht
    by_cases hst : t.state = .queued
    · refine .inl ⟨⟨hst, h.wf.unassigned id t ht hst, hid ▸ h.waiting id t ht hst⟩, ?_⟩
      rintro ⟨n, hp⟩
      have hheld := hp.held
      rw [hst] at hheld
      cases hheld
    · have hheld : t.state.isHeld = true :=
        TaskState.isHeld_iff.mpr ((TaskState.not_terminal_iff.mp hopen).resolve_left hst)
      obtain ⟨hnot, n, hn, hd⟩ := h.held id t ht hheld
      exact .inr ⟨⟨n, hheld, hn, hid ▸ hnot, hd.resolve_left False.elim⟩, fun hw => hst hw.state⟩
  single := fun id id' t t' n ht ht' hp hp' =>
    h.single id id' t t' n ht ht' hp.held hp'.held hp.assignedTo hp'.assignedTo

section Boot

variable (config : LocalClusterConfig) (scheduler : Scheduler) (elector : Elector) {store : Store}

theorem loadedState_numbered (h : store.Stored) :
    (loadedState config scheduler elector store now).Numbered := by
  have hf := (loadedState_fields now config scheduler elector store).1
  have hq := launched_quiet config scheduler elector store now
  have htseq : (loadedState config scheduler elector store now).taskSeq = store.taskSeq :=
    hf.taskSeq.trans hq.taskSeq
  have hjseq : (loadedState config scheduler elector store now).jobSeq = store.jobSeq :=
    hf.jobSeq.trans hq.jobSeq
  refine ⟨?_, ?_, ?_⟩
  · intro id t ht
    obtain ⟨t₀, -, ht₀, -⟩ := (loadedState_task config scheduler elector h.keyed).mp ht
    rw [htseq]
    exact h.task_le id t₀ ht₀
  · intro id j hj
    obtain ⟨rfl, hmem⟩ := (loadedState_job config scheduler elector h.keyed).mp hj
    rw [hjseq]
    exact h.job_le _ j (Store.mem_loaded h.keyed hmem).1
  · intro id hid
    obtain ⟨t₀, -, ht₀, -⟩ := (loadedState_queue config scheduler elector h.keyed).mp hid
    rw [htseq]
    exact h.task_le id t₀ ht₀

theorem loadedState_free (h : store.Stored) {id : TaskId} {t : Task}
    (ht : (loadedState config scheduler elector store now).tasks[id]? = some t) :
    t.state.isHeld ≠ true := by
  intro hheld
  have hst := (loadedState_waiting config scheduler elector h ht
    (TaskState.held_not_terminal hheld)).1
  rw [hst] at hheld
  cases hheld

theorem bootstrap_settled (h : store.Stored) :
    Settled (bootstrap config scheduler elector store now) := by
  refine Arranged.refresh (s := loadedState config scheduler elector store now) ?_
  refine ⟨loadedState_wf _ config scheduler elector h.keyed h.unassigned,
    loadedState_numbered config scheduler elector h, ?_, ?_, ?_⟩
  · intro id t ht hst
    exact (loadedState_waiting config scheduler elector h ht (by rw [hst]; rfl)).2
  · intro id t ht hheld
    exact absurd hheld (loadedState_free config scheduler elector h ht)
  · intro id id' t t' n ht _ hheld
    exact absurd hheld (loadedState_free config scheduler elector h ht)

/-- From any store a process may find, in every state of every run in which no worker takes over the id
of a connection that holds unfinished work. -/
theorem placement_holds (hstore : store.Reachable) (boot : Millis) (turns : List Turn)
    (hspare : Run.AllSteps step (fun s turn => s.evictsHolder turn.2 = false)
      (bootstrap config scheduler elector store boot) turns) :
    ∀ s ∈ session config scheduler elector store boot turns, s.Placement := by
  have hall := Run.invariant (I := Settled) (fun s turn h hok => handle_settled h hok)
    (bootstrap_settled config scheduler elector hstore.stored) hspare
  exact fun s hs => (hall s hs).placement

end Boot

/-- A worker falls silent while it holds nothing, dials in again and is given work. -/
def reconnectTurns : List Turn :=
  [(0, .attachRemote (some 5) ⟨4, 8⟩), (3500, .tick), (3600, .attachRemote (some 5) ⟨4, 8⟩),
    (3700, .submitJob (.sleep 100 1) none)]

set_option maxRecDepth 20000 in
theorem placement_after_reconnect :
    (Run.final step (bootstrap (.oneWorker 5 ⟨4, 8⟩) leastLoaded lowestHealthyId .empty 0)
      reconnectTurns).Placement :=
  placement_holds (.oneWorker 5 ⟨4, 8⟩) leastLoaded lowestHealthyId .empty 0 reconnectTurns
    (by decide) _ (Run.final_mem_visited _ _)

/-- A worker falls silent while it holds a task, and dials in again. -/
def takeoverTurns : List Turn :=
  [(0, .attachRemote (some 5) ⟨4, 8⟩), (1, .submitJob (.sleep 100 1) none), (3500, .tick),
    (3600, .attachRemote (some 5) ⟨4, 8⟩)]

set_option maxRecDepth 20000 in
theorem placement_broken_by_takeover :
    ¬ ∀ s ∈ session (.oneWorker 5 ⟨4, 8⟩) leastLoaded lowestHealthyId .empty 0 takeoverTurns,
      s.Placement := by
  intro h
  have hlast := h _ (Run.final_mem_visited _ takeoverTurns)
  have hrow : ∃ t ∈ (Run.final step (bootstrap (.oneWorker 5 ⟨4, 8⟩) leastLoaded lowestHealthyId
      .empty 0) takeoverTurns).tasks[1]?, t.state = .assigned ∧ t.assignedTo = some 5 := by decide
  have hchannel : (Run.final step (bootstrap (.oneWorker 5 ⟨4, 8⟩) leastLoaded lowestHealthyId
      .empty 0) takeoverTurns).channel 5 = some 1 := by decide
  have hempty : ((Run.final step (bootstrap (.oneWorker 5 ⟨4, 8⟩) leastLoaded lowestHealthyId
      .empty 0) takeoverTurns).mailboxes 1).history = [] := by decide
  obtain ⟨t, ht, hstate, hnode⟩ := hrow
  rcases hlast.each 1 t ht (by rw [hstate]; rfl) with ⟨hw, -⟩ | ⟨⟨n, hp⟩, -⟩
  · have hqueued := hw.state
    rw [hstate] at hqueued
    cases hqueued
  · obtain rfl : n = 5 := Option.some.inj (hp.assignedTo.symm.trans hnode)
    obtain ⟨c, u, hc, hmem, -⟩ := hp.delivered
    obtain rfl : c = 1 := Option.some.inj (hc.symm.trans hchannel)
    rw [hempty] at hmem
    cases hmem

end Gavel.Cluster.Supervisor
