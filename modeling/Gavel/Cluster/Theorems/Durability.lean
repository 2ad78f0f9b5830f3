import Gavel.Cluster.Lemmas.Behind

/-!
# The store catches up with the memory

Updates reach the store in order, one writer applying one queue. A task that is written directly while an
older value of it is still queued is overwritten by that older value, and stays so.
-/

namespace Gavel.Cluster

variable {a b st st' : Store} {t : Task} {j : Job} {w : Write} {op : DurableOp}

/-! ## Stores with the same rows -/

structure Store.Agrees (a b : Store) : Prop where
  job : ∀ id : JobId, a.jobs[id]? = b.jobs[id]?
  task : ∀ k : TaskId, a.tasks[k]? = b.tasks[k]?

namespace Store

theorem Agrees.refl (a : Store) : a.Agrees a := ⟨fun _ => rfl, fun _ => rfl⟩

theorem Agrees.trans {c : Store} (h : a.Agrees b) (h' : b.Agrees c) : a.Agrees c :=
  ⟨fun id => (h.job id).trans (h'.job id), fun k => (h.task k).trans (h'.task k)⟩

theorem Agrees.saveTask (h : a.Agrees b) (t : Task) : (a.saveTask t).Agrees (b.saveTask t) := by
  refine ⟨h.job, ?_⟩
  intro k
  simp only [Store.saveTask, Table.get_modify, h.task]

theorem Agrees.drain (h : a.Agrees b) (w : Write) : (a.drain w).Agrees (b.drain w) := by
  cases w with
  | job j =>
      refine ⟨?_, h.task⟩
      intro id
      simp only [Store.drain, Store.saveJob, Table.get_modify, h.job]
  | task t => exact h.saveTask t
  | failure => exact ⟨h.job, h.task⟩
  | event => exact ⟨h.job, h.task⟩
  | roles => exact ⟨h.job, h.task⟩

/-- Nothing is stored under the ids of a new job and its tasks. -/
def Fresh (st : Store) (j : Job) (ts : List Task) : Prop :=
  st.jobs[j.id]? = none ∧ ∀ t ∈ ts, st.tasks[t.id]? = none

theorem Fresh.create {ts : List Task} (h : st.Fresh j ts) (hnd : (ts.map Task.id).Nodup) :
    st.perform (.createJob j ts) = st.withJob j ts := createJob_eq h.1 hnd h.2

theorem Fresh.drain {ts : List Task} (h : st.Fresh j ts) (w : Write) : (st.drain w).Fresh j ts := by
  obtain ⟨hj, ht⟩ := h
  cases w with
  | job i =>
      refine ⟨?_, ht⟩
      simp only [Store.drain, Store.saveJob, Table.get_modify]
      split
      · rename_i hid
        rw [hid, hj]; rfl
      · exact hj
  | task u =>
      refine ⟨hj, ?_⟩
      intro t hm
      simp only [Store.drain, Store.saveTask, Table.get_modify]
      split
      · rename_i hid
        rw [hid, ht t hm]; rfl
      · exact ht t hm
  | failure => exact ⟨hj, ht⟩
  | event => exact ⟨hj, ht⟩
  | roles => exact ⟨hj, ht⟩

theorem Agrees.withJob (h : a.Agrees b) (j : Job) (ts : List Task) :
    (a.withJob j ts).Agrees (b.withJob j ts) where
  job := by
    intro id
    simp only [Store.withJob, Table.get_insert, h.job]
  task := fun k => Table.get_insertAll_congr (h.task k)

/-! ## What may overtake what -/

/-- The row an update is about. -/
def Touches (w : Write) (j : Job) (ts : List Task) : Prop :=
  match w with
  | .job i => i.id = j.id
  | .task u => ∃ t ∈ ts, u.id = t.id
  | _ => False

theorem saveTask_drain (h : ∀ u, w = .task u → u.id ≠ t.id) :
    ((st.saveTask t).drain w).Agrees ((st.drain w).saveTask t) := by
  cases w with
  | task u =>
      have hne := h u rfl
      refine ⟨fun _ => rfl, ?_⟩
      intro k
      simp only [Store.drain, Store.saveTask, Table.get_modify]
      by_cases hu : u.id = k
      · subst hu
        simp [Ne.symm hne]
      · by_cases ht : t.id = k
        · subst ht; simp [hne]
        · simp [hu, ht]
  | _ => exact ⟨fun _ => rfl, fun _ => rfl⟩

theorem withJob_drain {ts : List Task} (h : ¬ Touches w j ts) :
    ((st.withJob j ts).drain w).Agrees ((st.drain w).withJob j ts) := by
  cases w with
  | job i =>
      refine ⟨?_, fun _ => rfl⟩
      intro k
      have hne : i.id ≠ j.id := h
      simp only [Store.drain, Store.saveJob, Store.withJob, Table.get_modify, Table.get_insert]
      by_cases hi : i.id = k
      · subst hi; simp [Ne.symm hne]
      · simp [hi]
  | task u =>
      refine ⟨fun _ => rfl, ?_⟩
      intro k
      have hne : ∀ t ∈ ts, t.id ≠ u.id := fun t ht he => h ⟨t, ht, he.symm⟩
      simp only [Store.drain, Store.saveTask, Store.withJob, Table.get_modify]
      split
      · subst k
        rw [Table.get_insertAll_ne hne, Table.get_insertAll_ne hne, Table.get_modify, if_pos rfl]
      · rename_i hk
        refine Table.get_insertAll_congr ?_
        rw [Table.get_modify, if_neg hk]
  | _ => exact ⟨fun _ => rfl, fun _ => rfl⟩

end Store

/-! ## Every interleaving -/

namespace Backed

variable {b : Backed} {st₀ : Store}

/-- The operations handed over so far. -/
def handed (b : Backed) : List DurableOp := b.supervisor.ops.take b.issued

/-- A direct write of a task that finds no older write of the same task on its way. -/
def orderly (b : Backed) : BackedAction → Bool
  | .issue =>
      match b.next with
      | some (.saveTask t) => b.writer.pending.all fun w =>
          match w with
          | .task u => u.id != t.id
          | _ => true
      | _ => true
  | _ => true

/-- Once the writer has caught up, the store is where the operations lead in order. -/
def CatchesUp (st₀ : Store) (b : Backed) : Prop :=
  (b.writer.flush Store.drain b.store).Agrees (st₀.replay b.handed)

/-- Whatever is on its way is about a row that is there. -/
theorem pending_row (h : b.Sound st₀) {w : Write} (hw : w ∈ b.writer.pending) :
    (∀ u, w = .task u → ∃ t, (st₀.replay b.handed).tasks[u.id]? = some t) ∧
    (∀ i, w = .job i → ∃ j, (st₀.replay b.handed).jobs[i.id]? = some j) := by
  obtain ⟨done, rest, hsplit, hpending, -⟩ := h.behind.split
  rw [hpending, List.mem_filterMap] at hw
  obtain ⟨op, hop, hw⟩ := hw
  obtain ⟨l, r, rfl⟩ := List.append_of_mem hop
  have hpre : done ++ (l ++ op :: r) <+: b.supervisor.ops := hsplit ▸ List.take_prefix _ _
  obtain ⟨after, hafter⟩ := id hpre
  have hops : b.supervisor.ops = (done ++ l) ++ op :: (r ++ after) := by
    rw [← List.append_assoc, List.append_assoc] at hafter; exact hafter.symm
  have happ := (h.tracks.past.applies hops).1
  have hgrows := h.tracks.past.grows (p := done ++ l) (q := op :: r)
    (by rw [List.append_assoc]; exact hpre)
  rw [List.append_assoc, ← hsplit] at hgrows
  cases op with
  | queued w' =>
      cases hw
      refine ⟨?_, ?_⟩
      · rintro u rfl
        obtain ⟨t₀, ht₀, -⟩ := happ
        obtain ⟨t, ht, -⟩ := hgrows.task _ t₀ ht₀
        exact ⟨t, ht⟩
      · rintro i rfl
        obtain ⟨j₀, hj₀, -⟩ := happ
        obtain ⟨j, hj, -⟩ := hgrows.job _ j₀ hj₀
        exact ⟨j, hj⟩
  | _ => cases hw

/-- An awaited operation may overtake what is pending. -/
theorem flush_perform {P : Store → Prop} (op : DurableOp)
    (hP : ∀ st w, P st → P (st.drain w)) (hstore : P b.store)
    (hcomm : ∀ st, P st → ∀ w ∈ b.writer.pending,
      ((st.perform op).drain w).Agrees ((st.drain w).perform op))
    (hcongr : ((b.writer.flush Store.drain b.store).perform op).Agrees
      ((st₀.replay b.handed).perform op)) :
    (b.writer.flush Store.drain (b.store.perform op)).Agrees ((st₀.replay b.handed).perform op) :=
  (Writer.flush_overtake (f := fun st : Store => st.perform op) Store.Agrees.refl
    (fun _ _ _ h h' => h.trans h') (fun _ _ w h => h.drain w) hP hcomm hstore).trans hcongr

theorem CatchesUp.hand (hs : b.Sound st₀) (h : b.CatchesUp st₀) {op : DurableOp}
    (hop : b.next = some op) (hok : b.orderly .issue = true) : (b.hand op).CatchesUp st₀ := by
  obtain ⟨-, htake, after, hafter⟩ := next_split hop
  have happ : (st₀.replay b.handed).Applies op := (hs.tracks.past.applies hafter).1
  have hreplay : st₀.replay (b.supervisor.ops.take (b.issued + 1)) =
      (st₀.replay b.handed).perform op := by rw [htake, Store.replay_concat]; rfl
  have direct (hflush : (b.writer.flush Store.drain (b.store.perform op)).Agrees
      ((st₀.replay b.handed).perform op)) :
      CatchesUp st₀ { b with issued := b.issued + 1, store := b.store.perform op } := by
    change (b.writer.flush Store.drain (b.store.perform op)).Agrees
      (st₀.replay (b.supervisor.ops.take (b.issued + 1)))
    rw [hreplay]
    exact hflush
  cases op with
  | queued w =>
      simp only [Backed.hand]
      split
      · change ((b.writer.push w).flush Store.drain b.store).Agrees
          (st₀.replay (b.supervisor.ops.take (b.issued + 1)))
        rw [Writer.flush_push, hreplay]
        exact Store.Agrees.drain h w
      · exact h
  | reserveJob =>
      exact direct (flush_perform (P := fun _ => True) _ (fun _ _ _ => trivial) trivial
        (fun _ _ w _ => by cases w <;> exact ⟨fun _ => rfl, fun _ => rfl⟩) ⟨h.job, h.task⟩)
  | reserveTasks count =>
      exact direct (flush_perform (P := fun _ => True) _ (fun _ _ _ => trivial) trivial
        (fun _ _ w _ => by cases w <;> exact ⟨fun _ => rfl, fun _ => rfl⟩) ⟨h.job, h.task⟩)
  | createJob j ts =>
      obtain ⟨spec, id, first, now, rfl, rfl, hj, ht⟩ := happ
      have hnd := Supervisor.newTasks_nodup spec id first now
      have hnew (t : Task) (hm : t ∈ Supervisor.newTasks spec id first now) :
          (st₀.replay b.handed).tasks[t.id]? = none := by
        obtain ⟨i, sp, -, rfl⟩ := Supervisor.mem_newTasks hm
        exact ht i
      have hfresh : b.store.Fresh (Job.new id spec now) (Supervisor.newTasks spec id first now) := by
        obtain ⟨done, rest, hsplit, -, hbetween⟩ := hs.behind.split
        rw [← hsplit] at hbetween
        exact ⟨(hbetween.job_fresh hj).2, fun t hm => hbetween.task_fresh (hnew t hm)⟩
      have hflushed : (b.writer.flush Store.drain b.store).Fresh (Job.new id spec now)
          (Supervisor.newTasks spec id first now) :=
        ⟨(h.job _).trans hj, fun t hm => (h.task _).trans (hnew t hm)⟩
      have hdone : (st₀.replay b.handed).Fresh (Job.new id spec now)
          (Supervisor.newTasks spec id first now) := ⟨hj, hnew⟩
      refine direct (flush_perform (P := fun st => st.Fresh (Job.new id spec now)
        (Supervisor.newTasks spec id first now)) _ (fun _ w h => h.drain w) hfresh ?_ ?_)
      · intro st hst w hw
        rw [hst.create hnd, (hst.drain w).create hnd]
        refine Store.withJob_drain ?_
        obtain ⟨htask, hjob⟩ := pending_row hs hw
        cases w with
        | task u =>
            rintro ⟨t, hm, he⟩
            obtain ⟨t', ht'⟩ := htask u rfl
            rw [he, hnew t hm] at ht'
            cases ht'
        | job i =>
            intro he
            obtain ⟨j', hj'⟩ := hjob i rfl
            rw [show i.id = id from he, hj] at hj'
            cases hj'
        | _ => exact False.elim
      · rw [hflushed.create hnd, hdone.create hnd]
        exact Store.Agrees.withJob h _ _
  | saveTask t =>
      refine direct (flush_perform (P := fun _ => True) _ (fun _ _ _ => trivial) trivial ?_
        (Store.Agrees.saveTask h t))
      intro st _ w hw
      refine Store.saveTask_drain ?_
      rintro u rfl
      simp only [orderly, hop, List.all_eq_true] at hok
      simpa using hok _ hw

theorem CatchesUp.step (hs : b.Sound st₀) (h : b.CatchesUp st₀) {a : BackedAction}
    (hok : b.orderly a = true) : (b.step a).CatchesUp st₀ := by
  cases a with
  | turn t =>
      simp only [Backed.step]
      split
      · rename_i hdone
        have hpre := Supervisor.Changes.ops_prefix
          (Supervisor.handle_changes t.1 hs.wf t.2)
        have hlen : b.issued = b.supervisor.ops.length := by rw [hdone]; simp [Supervisor.ops]
        have hsame : (b.supervisor.step t).ops.take b.issued = b.handed := by
          rw [handed, hlen, List.take_length]
          exact (List.prefix_iff_eq_take.mp hpre).symm
        unfold CatchesUp handed
        rw [hsame]
        exact h
      · exact h
  | issue =>
      unfold Backed.step
      cases hop : b.next with
      | none => exact h
      | some op => exact h.hand hs hop hok
  | take =>
      change ((b.writer.take).flush Store.drain b.store).Agrees _
      rw [Writer.flush_take]
      exact h
  | apply =>
      unfold Backed.step
      cases hcur : b.writer.current with
      | none => exact h
      | some w =>
          change (b.writer.finish.flush Store.drain (b.store.drain w)).Agrees _
          rw [Writer.flush_finish _ hcur]
          exact h

/-- The operations handed over lead, in order, to a store that holds what the memory holds. -/
theorem Sound.holds (h : b.Sound st₀) : (st₀.replay b.handed).Holds b.memory.1 b.memory.2 := by
  unfold memory
  split
  · rename_i hdone
    have hall : b.handed = b.supervisor.ops := by
      rw [handed, hdone, Supervisor.ops, ← List.map_take, List.take_length]
    rw [hall]
    exact h.tracks.holds
  · cases hlast : (b.supervisor.journal.take b.issued).getLast? with
    | none => exact ⟨by simp, by simp⟩
    | some e =>
        obtain ⟨before, hbefore⟩ := List.getLast?_eq_some_iff.mp hlast
        have hops : b.handed = before.map JournalEntry.op ++ [e.op] := by
          rw [handed, Supervisor.ops, ← List.map_take, hbefore]; simp
        have hsplit : b.supervisor.journal = before ++ e :: b.supervisor.journal.drop b.issued := by
          have happend := List.take_append_drop b.issued b.supervisor.journal
          rw [hbefore, List.append_assoc] at happend
          exact happend.symm
        rw [hops, Store.replay_concat]
        exact (h.tracks.past before e _ hsplit).2.2

/-- Every task and every job in memory is stored as it is. -/
structure UpToDate (b : Backed) : Prop where
  task : ∀ (id : TaskId) t, b.memory.2[id]? = some t → b.store.tasks[id]? = some t
  job : ∀ (id : JobId) j, b.memory.1[id]? = some j → b.store.jobs[id]? = some j

theorem CatchesUp.upToDate (hs : b.Sound st₀) (h : b.CatchesUp st₀) (hidle : b.writer.isIdle = true) :
    b.UpToDate := by
  have hagrees : b.store.Agrees (st₀.replay b.handed) := by
    rw [CatchesUp, Writer.flush_idle _ hidle] at h
    exact h
  exact ⟨fun id t ht => (hagrees.task id).trans (hs.holds.task id t ht),
    fun id j hj => (hagrees.job id).trans (hs.holds.job id j hj)⟩

/-- From any store a process may find, in every state of every interleaving in which no task is written
directly while an older write of it is on its way: an idle writer leaves the store up to date. -/
theorem idle_up_to_date {store : Store} (hstore : store.Reachable) (config : LocalClusterConfig)
    (scheduler : Scheduler) (elector : Elector) (now : Millis) (actions : List BackedAction)
    (horder : Run.AllSteps Backed.step (fun b a => b.orderly a = true)
      (boot config scheduler elector store now) actions) :
    ∀ b ∈ Run.visited Backed.step (boot config scheduler elector store now) actions,
      b.writer.isIdle = true → b.UpToDate := by
  have hboot : (boot config scheduler elector store now).CatchesUp store := Store.Agrees.refl store
  have hall := Run.invariant (I := fun b => b.Sound store ∧ b.CatchesUp store)
    (fun b a h hok => ⟨h.1.step a, h.2.step h.1 hok⟩)
    ⟨boot_sound hstore.stored config scheduler elector now, hboot⟩ horder
  intro b hb hidle
  obtain ⟨hs, hc⟩ := hall b hb
  exact hc.upToDate hs hidle

/-- Some messages, each handed over to the end, and then a writer with time on its hands. -/
def thenDrain (turns : List Supervisor.Turn) : List BackedAction :=
  .issue :: (turns.flatMap fun t => .turn t :: List.replicate 8 .issue) ++
    (List.replicate 16 [.take, .apply]).flatten

/-- One worker, one job. -/
def oneJobTurns : List Supervisor.Turn :=
  [(0, .attachRemote (some 5) ⟨4, 8⟩), (1, .submitJob (.sleep 100 1) none)]

set_option maxRecDepth 20000 in
theorem up_to_date_after_submission :
    (Run.final Backed.step (boot (.oneWorker 5 ⟨4, 8⟩) leastLoaded lowestHealthyId .empty 0)
      (thenDrain oneJobTurns)).UpToDate :=
  idle_up_to_date .empty (.oneWorker 5 ⟨4, 8⟩) leastLoaded lowestHealthyId 0 (thenDrain oneJobTurns)
    (by decide) _ (Run.final_mem_visited _ _) (by decide)

/-- The worker's connection is gone but not detached yet when its failure report is handled: the task is
put back, and the attempt to place it again is refused while the earlier writes are still queued. -/
def refusedTurns : List Supervisor.Turn :=
  oneJobTurns ++ [(2, .close 0),
    (3, .report (.taskFinished 5 (Task.new 1 1 0 (.sleep 100) 1) (.failed .executionError "boom")))]

set_option maxRecDepth 20000 in
theorem stale_after_refusal :
    ¬ ∀ b ∈ Run.visited Backed.step (boot (.oneWorker 5 ⟨4, 8⟩) leastLoaded lowestHealthyId .empty 0)
      (thenDrain refusedTurns), b.writer.isIdle = true → b.UpToDate := by
  intro h
  have hlast := h _ (Run.final_mem_visited _ (thenDrain refusedTurns)) (by decide)
  have hmemory : ∃ t ∈ (Run.final Backed.step (boot (.oneWorker 5 ⟨4, 8⟩) leastLoaded lowestHealthyId
      .empty 0) (thenDrain refusedTurns)).memory.2[1]?, t.attempt = 2 := by decide
  have hstored : ∃ t ∈ (Run.final Backed.step (boot (.oneWorker 5 ⟨4, 8⟩) leastLoaded lowestHealthyId
      .empty 0) (thenDrain refusedTurns)).store.tasks[1]?, t.attempt = 1 := by decide
  obtain ⟨t, ht, hattempt⟩ := hmemory
  obtain ⟨u, hu, hold⟩ := hstored
  cases (hlast.task 1 t ht).symm.trans hu
  rw [hold] at hattempt
  cases hattempt

end Backed

end Gavel.Cluster
