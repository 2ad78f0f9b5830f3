import Gavel.Cluster.Lemmas.Handle
import Mathlib.Data.List.Flatten

/-!
# Startup

The registry the supervisor starts with carries its keys, and the jobs it restores are rows of the
store: every unfinished one, and the recent window.
-/

namespace Gavel.Cluster

variable {now : Millis}

/-! ## The registry -/

/-- Every entry of the registry has a property. -/
def Entries (p : NodeId → NodeEntry → Prop) (nodes : Table NodeEntry) : Prop :=
  ∀ (n : NodeId) e, nodes[n]? = some e → p n e

/-- The entry with other roles. -/
def NodeEntry.withRoles (e : NodeEntry) (roles : RoleSet) : NodeEntry :=
  { e with node := { e.node with roles := roles } }

namespace Entries

variable {p : NodeId → NodeEntry → Prop} {nodes : Table NodeEntry}

theorem insert (h : Entries p nodes) {n : NodeId} {e : NodeEntry} (he : p n e) :
    Entries p (nodes.insert n e) := by
  intro a x hx
  rw [Table.get_insert] at hx
  split at hx
  · subst a; cases hx; exact he
  · exact h a x hx

theorem modify (h : Entries p nodes) (n : NodeId) {f : NodeEntry → NodeEntry}
    (hf : ∀ e, p n e → p n (f e)) : Entries p (nodes.modify n f) := by
  intro a x hx
  rw [Table.get_modify] at hx
  split at hx
  · subst a
    obtain ⟨e, he, rfl⟩ := Option.map_eq_some_iff.mp hx
    exact hf e (h n e he)
  · exact h a x hx

theorem foldl {β : Type} {g : Table NodeEntry → β → Table NodeEntry} (l : List β) (h : Entries p nodes)
    (hg : ∀ nodes, ∀ x ∈ l, Entries p nodes → Entries p (g nodes x)) : Entries p (l.foldl g nodes) := by
  induction l generalizing nodes with
  | nil => exact h
  | cons x l ih =>
      exact ih (hg nodes x List.mem_cons_self h) fun nodes y hy => hg nodes y (List.mem_cons_of_mem _ hy)

end Entries

/-- The registry before roles are spread: in-process nodes, then the declared workers. -/
theorem initialNodes_entries {p : NodeId → NodeEntry → Prop} (config : LocalClusterConfig)
    (now : Millis) (hsim : ∀ index < config.nodeCount, p (index + 1) (simulatedEntry config now index))
    (hdecl : ∀ d ∈ config.remoteNodes, p d.1 (declaredEntry now d)) :
    Entries p (initialNodes config now) := by
  unfold initialNodes
  refine Entries.foldl _ (Entries.foldl _ ?_ ?_) ?_
  · intro n e he; simp at he
  · intro nodes index hi h
    exact h.insert (hsim index (List.mem_range.mp hi))
  · intro nodes d hd h
    split
    · exact h
    · exact h.insert (hdecl d hd)

theorem placeRole_some {role : Role} {ids : List NodeId} {cursor offset : Nat}
    {nodes nodes' : Table NodeEntry} (h : placeRole role ids cursor nodes = some (offset, nodes')) :
    ∃ (id : NodeId) (e : NodeEntry), nodes[id]? = some e ∧
      nodes' = nodes.insert id (e.withRoles (e.node.roles.insert role)) := by
  obtain ⟨k, -, hk⟩ := List.exists_of_findSome?_eq_some h
  simp only [Option.bind_eq_bind, Option.bind_eq_some_iff] at hk
  obtain ⟨id, -, e, he, hk⟩ := hk
  split at hk
  · cases hk
  · cases hk; exact ⟨id, e, he, rfl⟩

section Spreading

variable {p : NodeId → NodeEntry → Prop}
  (hrole : ∀ n e role, p n e → p n (e.withRoles (e.node.roles.insert role)))

include hrole

theorem placeReplicas_entries (role : Role) (ids : List NodeId) (count : Nat) (cursor : Nat)
    {nodes : Table NodeEntry} (h : Entries p nodes) :
    Entries p (placeReplicas role ids count (cursor, nodes)).2 := by
  induction count generalizing cursor nodes with
  | zero => exact h
  | succ count ih =>
      unfold placeReplicas
      cases hp : placeRole role ids cursor nodes with
      | none => exact h
      | some r =>
          obtain ⟨id, e, he, hr⟩ := placeRole_some (show placeRole role ids cursor nodes = some (r.1, r.2) from hp)
          refine ih _ ?_
          rw [hr]
          exact h.insert (hrole id e role (h id e he))

theorem spreadRoles_entries (policies : RolePolicies) (ids : List NodeId) (roles : List Role)
    (cursor : Nat) {nodes : Table NodeEntry} (h : Entries p nodes) :
    Entries p (roles.foldl (fun acc role => placeReplicas role ids (policies role).minReplicas acc)
      (cursor, nodes)).2 := by
  induction roles generalizing cursor nodes with
  | nil => exact h
  | cons role roles ih => exact ih _ (placeReplicas_entries hrole role ids _ cursor h)

theorem assignInitialRoles_entries (policies : RolePolicies) {nodes : Table NodeEntry}
    (h : Entries p nodes) : Entries p (assignInitialRoles policies nodes) := by
  unfold assignInitialRoles
  dsimp only
  split
  · exact h
  · refine spreadRoles_entries hrole policies _ _ 0 ?_
    exact Entries.foldl _ h fun nodes id _ hn => hn.modify id fun e he => hrole id e .compute he

end Spreading

/-- Registry rows carry their own key. -/
def Keyed (nodes : Table NodeEntry) : Prop := Entries (fun n e => e.node.id = n) nodes

theorem initialNodes_keyed (config : LocalClusterConfig) (now : Millis) :
    Keyed (initialNodes config now) :=
  initialNodes_entries config now (fun _ _ => rfl) fun _ _ => rfl

theorem assignInitialRoles_keyed (policies : RolePolicies) {nodes : Table NodeEntry}
    (h : Keyed nodes) : Keyed (assignInitialRoles policies nodes) :=
  assignInitialRoles_entries (p := fun n e => e.node.id = n) (fun _ _ _ h => h) policies h

theorem restoreRoles_entries {p : NodeId → NodeEntry → Prop}
    (hroles : ∀ n e roles, p n e → p n (e.withRoles roles)) (stored : Table RoleSet)
    {nodes : Table NodeEntry} (h : Entries p nodes) : Entries p (restoreRoles stored nodes) :=
  Entries.foldl _ h fun _ r _ hn => hn.modify r.1 fun e he => hroles r.1 e r.2 he

theorem restoreRoles_keyed (stored : Table RoleSet) {nodes : Table NodeEntry} (h : Keyed nodes) :
    Keyed (restoreRoles stored nodes) :=
  restoreRoles_entries (p := fun n e => e.node.id = n) (fun _ _ _ h => h) stored h

/-! ## The jobs a restart loads -/

namespace Store

/-- Rows of the store carry their own key. -/
structure Keyed (st : Store) : Prop where
  task : ∀ (id : TaskId) t, st.tasks[id]? = some t → t.id = id
  job : ∀ (id : JobId) j, st.jobs[id]? = some j → j.id = id

variable {st : Store}

theorem mem_tasksForJob (id : JobId) (t : Task) : t ∈ st.tasksForJob id ↔
    (∃ k : TaskId, st.tasks[k]? = some t) ∧ t.jobId = id := by
  unfold tasksForJob
  rw [(List.perm_insertionSort _ _).mem_iff, List.mem_filter, Table.mem_rows]
  simp

theorem tasksForJob_nodup (h : st.Keyed) (id : JobId) :
    ((st.tasksForJob id).map Task.id).Nodup := by
  unfold tasksForJob
  rw [((List.perm_insertionSort _ _).map _).nodup_iff]
  have hs := Table.rows_sorted (f := Task.id) h.task
  have hnd : (st.tasks.rows.map Task.id).Nodup := List.pairwise_map.mpr (hs.imp Nat.ne_of_lt)
  exact hnd.sublist (List.filter_sublist.map _)

theorem mem_unfinishedJobs (r : Job × List Task) : r ∈ st.unfinishedJobs ↔
    (∃ k : JobId, st.jobs[k]? = some r.1) ∧ r.1.state.isTerminal = false ∧
      r.2 = st.tasksForJob r.1.id := by
  unfold unfinishedJobs
  simp only [List.mem_map, List.mem_filter, Table.mem_rows]
  constructor
  · rintro ⟨j, ⟨hj, hs⟩, rfl⟩
    refine ⟨hj, ?_, rfl⟩
    revert hs
    cases j.state <;> simp [JobState.isTerminal]
  · rintro ⟨hj, hs, ht⟩
    refine ⟨r.1, ⟨hj, ?_⟩, by rw [← ht]⟩
    revert hs
    cases r.1.state <;> simp [JobState.isTerminal]

theorem unfinishedJobs_sorted (h : st.Keyed) :
    st.unfinishedJobs.Pairwise fun a b => a.1.id < b.1.id := by
  unfold unfinishedJobs
  rw [List.pairwise_map]
  exact (Table.rows_sorted (f := Job.id) h.job).filter _

/-- What is left of the unfinished jobs after a cursor. -/
def unfinishedAfter (st : Store) (after : Option JobId) : List (Job × List Task) :=
  st.unfinishedJobs.filter fun r => after.all fun id => decide (id < r.1.id)

theorem unfinishedAfter_none : st.unfinishedAfter none = st.unfinishedJobs := by
  simp [unfinishedAfter]

/-- Moving the cursor to a remaining job filters the remaining jobs. -/
theorem unfinishedAfter_next {after : Option JobId} {r : Job × List Task}
    (hr : r ∈ st.unfinishedAfter after) : st.unfinishedAfter (some r.1.id) =
      (st.unfinishedAfter after).filter fun r' => decide (r.1.id < r'.1.id) := by
  have hafter := (List.mem_filter.mp hr).2
  unfold unfinishedAfter
  rw [List.filter_filter]
  refine List.filter_congr ?_
  intro r' _
  cases after with
  | none => simp
  | some a =>
      simp only [Option.all_some, decide_eq_true_eq] at hafter
      by_cases hlt : r.1.id < r'.1.id
      · simp [hlt, Nat.lt_trans hafter hlt]
      · simp [hlt]

/-- Once there is fuel for what is left, every remaining job is loaded and loaded ones stay. -/
theorem restorePages_complete (h : st.Keyed) (fuel : Nat) (after : Option JobId)
    (acc : Table (Job × List Task)) (hfuel : (st.unfinishedAfter after).length < fuel)
    {r : Job × List Task} (hr : r ∈ st.unfinishedJobs)
    (hloaded : acc[r.1.id]? = some r ∨ r ∈ st.unfinishedAfter after) :
    (restorePages st fuel after acc)[r.1.id]? = some r := by
  induction fuel generalizing after acc with
  | zero => omega
  | succ fuel ih =>
      have hsorted : (st.unfinishedAfter after).Pairwise fun a b => a.1.id < b.1.id :=
        (unfinishedJobs_sorted h).filter _
      have huniq : ∀ a ∈ st.unfinishedJobs, ∀ b ∈ st.unfinishedJobs, a.1.id = b.1.id → a = b :=
        fun a ha b hb he => (List.inj_on_of_nodup_map
          (List.pairwise_map.mpr ((unfinishedJobs_sorted h).imp Nat.ne_of_lt))) ha hb he
      unfold restorePages
      have hpage : st.unfinishedJobsPage after recoveryPage =
          (st.unfinishedAfter after).take recoveryPage := rfl
      simp only [hpage]
      generalize hrem : st.unfinishedAfter after = rem at *
      cases hlast : (rem.take recoveryPage).getLast? with
      | none =>
          have hempty : rem = [] := by
            rw [List.getLast?_eq_none_iff, List.take_eq_nil_iff] at hlast
            exact hlast.resolve_left (by simp [recoveryPage])
          simpa [hempty] using hloaded
      | some last =>
          dsimp only
          have hlmem : last ∈ rem.take recoveryPage := List.mem_of_getLast? hlast
          -- The page is loaded; whatever was loaded before is overwritten with itself.
          have hstep : (Table.insertAll (fun r => r.1.id) acc (rem.take recoveryPage))[r.1.id]? = some r ∨
              r ∈ rem.drop recoveryPage := by
            by_cases hp : r ∈ rem.take recoveryPage
            · have hnd : ((rem.take recoveryPage).map fun r => r.1.id).Nodup :=
                List.pairwise_map.mpr ((hsorted.take).imp Nat.ne_of_lt)
              exact .inl (Table.get_insertAll_mem hnd hp)
            · rcases hloaded with hacc | hin
              · refine .inl ((Table.get_insertAll_ne ?_).trans hacc)
                intro r' hr' he
                have hmem : r' ∈ st.unfinishedJobs := by
                  have hr'' := List.mem_of_mem_take hr'
                  rw [← hrem] at hr''
                  exact (List.mem_filter.mp hr'').1
                exact hp (huniq r' hmem r hr he ▸ hr')
              · rw [← List.take_append_drop recoveryPage rem] at hin
                exact .inr ((List.mem_append.mp hin).resolve_left hp)
          have hfold : (rem.take recoveryPage).foldl (fun restored r => restored.insert r.1.id r) acc =
              Table.insertAll (fun r => r.1.id) acc (rem.take recoveryPage) := rfl
          rw [hfold]
          split
          · have hlrem : last ∈ st.unfinishedAfter after := hrem ▸ List.mem_of_mem_take hlmem
            have hnext := unfinishedAfter_next hlrem
            rw [hrem] at hnext
            refine ih (some last.1.id) _ ?_ ?_
            · rw [hnext]
              have hshort : (rem.filter fun r' => decide (last.1.id < r'.1.id)).length < rem.length :=
                List.length_filter_lt_length_iff_exists.mpr
                  ⟨last, List.mem_of_mem_take hlmem, by simp⟩
              omega
            · refine hstep.imp id ?_
              intro hdrop
              rw [hnext, List.mem_filter]
              refine ⟨List.mem_of_mem_drop hdrop, ?_⟩
              rw [← List.take_append_drop recoveryPage rem, List.pairwise_append] at hsorted
              simpa using hsorted.2.2 last hlmem r hdrop
          · rename_i hshort
            refine hstep.resolve_right ?_
            have hlen : rem.length < recoveryPage := by
              rw [List.length_take] at hshort
              omega
            rw [List.drop_eq_nil_of_le (Nat.le_of_lt hlen)]
            simp

/-- Every loaded row was loaded before or is an unfinished job. -/
theorem restorePages_sound (fuel : Nat) (after : Option JobId) (acc : Table (Job × List Task))
    {id : JobId} {r : Job × List Task} (hr : (restorePages st fuel after acc)[id]? = some r) :
    acc[id]? = some r ∨ (r ∈ st.unfinishedJobs ∧ r.1.id = id) := by
  induction fuel generalizing after acc with
  | zero => exact .inl hr
  | succ fuel ih =>
      unfold restorePages at hr
      dsimp only at hr
      have hins (hr : (Table.insertAll (fun r => r.1.id) acc
          (st.unfinishedJobsPage after recoveryPage))[id]? = some r) :
          acc[id]? = some r ∨ (r ∈ st.unfinishedJobs ∧ r.1.id = id) := by
        rcases Table.get_insertAll_some hr with ⟨hm, hk⟩ | ⟨hold, _⟩
        · exact .inr ⟨(List.mem_filter.mp (List.mem_of_mem_take hm)).1, hk⟩
        · exact .inl hold
      cases hlast : (st.unfinishedJobsPage after recoveryPage).getLast? with
      | none =>
          simp only [hlast] at hr
          exact .inl hr
      | some last =>
          simp only [hlast] at hr
          split at hr
          · rcases ih _ _ hr with hr | hr
            · exact hins hr
            · exact .inr hr
          · exact hins hr

theorem restoredJobs_some (h : st.Keyed) {buffer : Nat} {id : JobId} {r : Job × List Task}
    (hr : (restoredJobs st buffer)[id]? = some r) :
    st.jobs[id]? = some r.1 ∧ r.2 = st.tasksForJob id := by
  unfold restoredJobs at hr
  rcases restorePages_sound _ _ _ hr with hrecent | ⟨hun, hid⟩
  · have hrecent : (Table.insertAll (fun r => r.1.id) ∅
        ((st.recentJobs buffer).map fun j => (j, st.tasksForJob j.id)))[id]? = some r := by
      rw [Table.insertAll, List.foldl_map]
      exact hrecent
    rcases Table.get_insertAll_some hrecent with ⟨hm, hk⟩ | ⟨hold, _⟩
    · obtain ⟨j, hj, rfl⟩ := List.mem_map.mp hm
      obtain ⟨k, hk'⟩ := Table.mem_rows.mp (List.mem_reverse.mp (List.mem_of_mem_take hj))
      obtain rfl : k = id := (h.job k j hk').symm.trans hk
      exact ⟨hk', by rw [h.job k j hk']⟩
    · simp at hold
  · obtain ⟨⟨k, hk⟩, -, ht⟩ := (mem_unfinishedJobs r).mp hun
    obtain rfl : k = id := (h.job k _ hk).symm.trans hid
    exact ⟨hk, hid ▸ ht⟩

theorem restoredJobs_unfinished (h : st.Keyed) (buffer : Nat) {id : JobId} {j : Job}
    (hj : st.jobs[id]? = some j) (hopen : j.state.isTerminal = false) :
    (restoredJobs st buffer)[id]? = some (j, st.tasksForJob id) := by
  have hmem : (j, st.tasksForJob id) ∈ st.unfinishedJobs :=
    (mem_unfinishedJobs _).mpr ⟨⟨id, hj⟩, hopen, by rw [h.job id j hj]⟩
  have hc := restorePages_complete h (st.unfinishedJobs.length + 1) none
    ((st.recentJobs buffer).foldl (fun restored job =>
      restored.insert job.id (job, st.tasksForJob job.id)) ∅)
    (by rw [unfinishedAfter_none]; omega) hmem (.inr (by rw [unfinishedAfter_none]; exact hmem))
  rw [h.job id j hj] at hc
  exact hc

/-- The jobs a restart loads, in id order. -/
def loaded (st : Store) (buffer : Nat) : List (Job × List Task) := (restoredJobs st buffer).rows

theorem mem_loaded (h : st.Keyed) {buffer : Nat} {r : Job × List Task}
    (hr : r ∈ st.loaded buffer) :
    st.jobs[r.1.id]? = some r.1 ∧ r.2 = st.tasksForJob r.1.id := by
  obtain ⟨k, hk⟩ := Table.mem_rows.mp hr
  obtain ⟨hj, ht⟩ := restoredJobs_some h hk
  rw [h.job k r.1 hj]
  exact ⟨hj, ht⟩

theorem loaded_sorted (h : st.Keyed) (buffer : Nat) :
    (st.loaded buffer).Pairwise fun a b => a.1.id < b.1.id :=
  Table.rows_sorted (f := fun r => r.1.id) fun k _ hr => h.job k _ (restoredJobs_some h hr).1

theorem loaded_unfinished (h : st.Keyed) (buffer : Nat) {id : JobId} {j : Job}
    (hj : st.jobs[id]? = some j) (hopen : j.state.isTerminal = false) :
    (j, st.tasksForJob id) ∈ st.loaded buffer :=
  Table.mem_rows.mpr ⟨id, restoredJobs_unfinished h buffer hj hopen⟩

theorem mem_loaded_task (h : st.Keyed) {buffer : Nat} {r : Job × List Task} {t : Task}
    (hr : r ∈ st.loaded buffer) : t ∈ r.2 ↔ st.tasks[t.id]? = some t ∧ t.jobId = r.1.id := by
  rw [(mem_loaded h hr).2, mem_tasksForJob]
  constructor
  · rintro ⟨⟨k, hk⟩, hj⟩
    exact ⟨h.task k t hk ▸ hk, hj⟩
  · rintro ⟨hk, hj⟩
    exact ⟨⟨t.id, hk⟩, hj⟩

theorem loaded_tasks_nodup (h : st.Keyed) (buffer : Nat) :
    ((st.loaded buffer).flatMap fun r => r.2.map Task.id).Nodup := by
  refine List.nodup_flatMap.mpr ⟨?_, ?_⟩
  · intro r hr
    rw [(mem_loaded h hr).2]
    exact tasksForJob_nodup h _
  · refine (loaded_sorted h buffer).imp_of_mem ?_
    intro a b ha hb hlt x hxa hxb
    obtain ⟨t, ht, rfl⟩ := List.mem_map.mp hxa
    obtain ⟨u, hu, he⟩ := List.mem_map.mp hxb
    obtain ⟨hta, hja⟩ := (mem_loaded_task h ha).mp ht
    obtain ⟨hub, hjb⟩ := (mem_loaded_task h hb).mp hu
    rw [he, hta] at hub
    cases hub
    exact absurd (hja.symm.trans hjb) (Nat.ne_of_lt hlt)

theorem empty_keyed : Store.empty.Keyed := ⟨by simp [empty], by simp [empty]⟩

theorem empty_loaded (buffer : Nat) : Store.empty.loaded buffer = [] := by
  refine List.eq_nil_iff_forall_not_mem.mpr ?_
  intro r hr
  have hj := (mem_loaded empty_keyed hr).1
  simp [empty] at hj

end Store

namespace Supervisor

variable {s : Supervisor}

theorem launchNode_quiet (s : Supervisor) (now : Millis) (n : NodeId) :
    Quiet s (s.launchNode now n) := by
  unfold launchNode
  cases s.nodes[n]? with
  | none => exact .refl s
  | some e => exact ⟨rfl, rfl, rfl, rfl, rfl, rfl, [], by simp, by simp⟩

theorem bringUp_quiet (s : Supervisor) (now : Millis) (n : NodeId) :
    Quiet s (bringUp now s n) := by
  unfold bringUp
  cases s.nodes[n]? with
  | none => exact .refl s
  | some e =>
      have hroles := Quiet.persistRoles s now n e.node.roles
      dsimp only
      split
      · exact (hroles.trans (launchNode_quiet _ now n)).trans (Quiet.emit _ now rfl)
      · exact hroles

theorem bringUp_all_quiet (ids : List NodeId) : Quiet s (ids.foldl (bringUp now) s) := by
  induction ids generalizing s with
  | nil => exact .refl s
  | cons n ids ih => exact (bringUp_quiet s now n).trans ih

theorem bringUp_evolves (n : NodeId) : Evolves now s (bringUp now s n) := by
  unfold bringUp
  cases s.nodes[n]? with
  | none => exact .refl s
  | some e =>
      dsimp only
      split
      · exact Evolves.trans (.persistRoles (.refl s) n _) (rejoin_evolves n)
      · exact .persistRoles (.refl s) n _

theorem bringUp_all_evolves (ids : List NodeId) : Evolves now s (ids.foldl (bringUp now) s) := by
  induction ids generalizing s with
  | nil => exact .refl s
  | cons n ids ih => exact (bringUp_evolves n).trans ih

/-- The supervisor with its registry filled, before anything runs. -/
def registered (config : LocalClusterConfig) (scheduler : Scheduler) (elector : Elector)
    (store : Store) (now : Millis) : Supervisor :=
  { new config scheduler elector store with
    nodes := restoreRoles store.nodeRoles
      (assignInitialRoles config.policies (initialNodes config now)) }

/-- The supervisor with its nodes up, before it looks at the stored jobs. -/
def launched (config : LocalClusterConfig) (scheduler : Scheduler) (elector : Elector)
    (store : Store) (now : Millis) : Supervisor :=
  let s := registered config scheduler elector store now
  s.nodes.keys.foldl (bringUp now) s

variable (config : LocalClusterConfig) (scheduler : Scheduler) (elector : Elector) (store : Store)
  (now : Millis)

theorem registered_wf : (registered config scheduler elector store now).Wf where
  taskKey := by intro id t ht; simp [registered, new] at ht
  jobKey := by intro id j hj; simp [registered, new] at hj
  nodeKey := restoreRoles_keyed _ (assignInitialRoles_keyed _ (initialNodes_keyed config now))
  unassigned := by intro id t ht; simp [registered, new] at ht

theorem launched_quiet : Quiet (registered config scheduler elector store now)
    (launched config scheduler elector store now) := bringUp_all_quiet _

theorem launched_wf : (launched config scheduler elector store now).Wf :=
  (bringUp_all_evolves _ (registered_wf config scheduler elector store now)).2

/-! ## Loading -/

end Supervisor

/-- An unfinished task as a restart loads it. -/
def Task.resetAt (t : Task) (now : Millis) : Task :=
  { t with state := .queued, assignedTo := none, updatedAt := now }

/-- The restart puts the task back on the queue. -/
def Task.isReset (t : Task) (j : Job) : Bool := !j.state.isTerminal && !t.state.isTerminal

/-- A task of a job as a restart loads it. -/
def Task.loadedAs (now : Millis) (j : Job) (t : Task) : Task := if t.isReset j then t.resetAt now else t

theorem Task.loadedAs_id (now : Millis) (j : Job) (t : Task) : (t.loadedAs now j).id = t.id := by
  unfold loadedAs; split <;> rfl

theorem Task.loadedAs_jobId (now : Millis) (j : Job) (t : Task) :
    (t.loadedAs now j).jobId = t.jobId := by
  unfold loadedAs; split <;> rfl

namespace Supervisor

variable {s s' s'' : Supervisor} {now : Millis}

/-- Loading touches the work, the queue and the journal only. -/
structure LoadFrame (s s' : Supervisor) : Prop extends SameRegistry s s' where
  mailboxes : s'.mailboxes = s.mailboxes
  eventSeq : s'.eventSeq = s.eventSeq
  jobSeq : s'.jobSeq = s.jobSeq
  taskSeq : s'.taskSeq = s.taskSeq

theorem LoadFrame.refl (s : Supervisor) : LoadFrame s s := ⟨.refl s, rfl, rfl, rfl, rfl⟩

theorem LoadFrame.trans (h : LoadFrame s s') (h' : LoadFrame s' s'') : LoadFrame s s'' :=
  ⟨h.toSameRegistry.trans h'.toSameRegistry, h'.mailboxes.trans h.mailboxes,
    h'.eventSeq.trans h.eventSeq, h'.jobSeq.trans h.jobSeq, h'.taskSeq.trans h.taskSeq⟩

theorem restoreTask_frame (unfinished : Bool) (t : Task) :
    LoadFrame s (restoreTask now unfinished s t) := by
  unfold restoreTask
  split <;> exact ⟨⟨rfl, rfl, rfl, rfl, rfl, rfl, rfl⟩, rfl, rfl, rfl, rfl⟩

variable (now) in
theorem restoreTask_fields (j : Job) (t : Task) :
    (restoreTask now (!j.state.isTerminal) s t).jobs = s.jobs ∧
    (restoreTask now (!j.state.isTerminal) s t).tasks = s.tasks.insert t.id (t.loadedAs now j) ∧
    (restoreTask now (!j.state.isTerminal) s t).queue =
      s.queue ++ (if t.isReset j then [t.id] else []) ∧
    (restoreTask now (!j.state.isTerminal) s t).ops =
      s.ops ++ (if t.isReset j then [.saveTask (t.resetAt now)] else []) := by
  unfold restoreTask Task.loadedAs Task.isReset
  by_cases h : (!j.state.isTerminal && !t.state.isTerminal) = true
  · simp only [h, if_true]
    exact ⟨rfl, rfl, rfl, by simp [ops, Task.resetAt]⟩
  · simp only [h]
    exact ⟨rfl, rfl, by simp, by simp [ops]⟩

variable (now) in
theorem restoreTasks_fields (j : Job) (ts : List Task) :
    LoadFrame s (ts.foldl (restoreTask now (!j.state.isTerminal)) s) ∧
    (ts.foldl (restoreTask now (!j.state.isTerminal)) s).jobs = s.jobs ∧
    (ts.foldl (restoreTask now (!j.state.isTerminal)) s).tasks =
      s.tasks.insertAll Task.id (ts.map (Task.loadedAs now j)) ∧
    (ts.foldl (restoreTask now (!j.state.isTerminal)) s).queue =
      s.queue ++ (ts.filter (Task.isReset · j)).map Task.id ∧
    (ts.foldl (restoreTask now (!j.state.isTerminal)) s).ops =
      s.ops ++ (ts.filter (Task.isReset · j)).map (fun t => .saveTask (t.resetAt now)) := by
  induction ts generalizing s with
  | nil => simp [Table.insertAll, LoadFrame.refl]
  | cons t ts ih =>
      obtain ⟨hj, ht, hq, ho⟩ := restoreTask_fields (s := s) now j t
      obtain ⟨hf, hj', ht', hq', ho'⟩ := ih (s := restoreTask now (!j.state.isTerminal) s t)
      rw [List.foldl_cons]
      refine ⟨(restoreTask_frame _ t).trans hf, hj'.trans hj, ?_, ?_, ?_⟩
      · rw [ht', ht]
        simp [Table.insertAll, Task.loadedAs_id]
      · rw [hq', hq, List.filter_cons]
        split <;> simp
      · rw [ho', ho, List.filter_cons]
        split <;> simp

/-- The task ids of a loaded job that go back on the queue. -/
def resetIds (r : Job × List Task) : List TaskId := (r.2.filter (Task.isReset · r.1)).map Task.id

/-- The writes that record it. -/
def resetWrites (now : Millis) (r : Job × List Task) : List DurableOp :=
  (r.2.filter (Task.isReset · r.1)).map fun t => .saveTask (t.resetAt now)

variable (now) in
theorem restoreJob_fields (r : Job × List Task) :
    LoadFrame s (restoreJob now s r) ∧
    (restoreJob now s r).jobs = s.jobs.insert r.1.id r.1 ∧
    (restoreJob now s r).tasks = s.tasks.insertAll Task.id (r.2.map (Task.loadedAs now r.1)) ∧
    (restoreJob now s r).queue = s.queue ++ resetIds r ∧
    (restoreJob now s r).ops = s.ops ++ resetWrites now r := by
  obtain ⟨hf, hj, ht, hq, ho⟩ :=
    restoreTasks_fields (s := s.putJob r.1.id r.1) now r.1 r.2
  refine ⟨LoadFrame.trans ?_ hf, hj, ht, hq, ho⟩
  exact ⟨⟨rfl, rfl, rfl, rfl, rfl, rfl, rfl⟩, rfl, rfl, rfl, rfl⟩

variable (now) in
theorem restoreAll_fields (rs : List (Job × List Task)) :
    LoadFrame s (rs.foldl (restoreJob now) s) ∧
    (rs.foldl (restoreJob now) s).jobs = s.jobs.insertAll Job.id (rs.map Prod.fst) ∧
    (rs.foldl (restoreJob now) s).tasks =
      s.tasks.insertAll Task.id (rs.flatMap fun r => r.2.map (Task.loadedAs now r.1)) ∧
    (rs.foldl (restoreJob now) s).queue = s.queue ++ rs.flatMap resetIds ∧
    (rs.foldl (restoreJob now) s).ops = s.ops ++ rs.flatMap (resetWrites now) := by
  induction rs generalizing s with
  | nil => simp [Table.insertAll, LoadFrame.refl]
  | cons r rs ih =>
      obtain ⟨hf, hj, ht, hq, ho⟩ := restoreJob_fields (s := s) now r
      obtain ⟨hf', hj', ht', hq', ho'⟩ := ih (s := restoreJob now s r)
      rw [List.foldl_cons]
      refine ⟨hf.trans hf', ?_, ?_, ?_, ?_⟩
      · rw [hj', hj]; rfl
      · rw [ht', ht]
        simp [Table.insertAll, List.foldl_append]
      · rw [hq', hq]; simp
      · rw [ho', ho]; simp

/-! ## The state after loading -/

variable (config : LocalClusterConfig) (scheduler : Scheduler) (elector : Elector)

/-- The supervisor with its jobs loaded, before it elects a leader. -/
def loadedState (store : Store) (now : Millis) : Supervisor :=
  (launched config scheduler elector store now).restoreJobs now store

variable {store : Store}

variable (now) in
theorem loadedState_fields (store : Store) :
    LoadFrame (launched config scheduler elector store now)
      (loadedState config scheduler elector store now) ∧
    (loadedState config scheduler elector store now).jobs =
      Table.insertAll Job.id ∅ ((store.loaded config.jobBuffer).map Prod.fst) ∧
    (loadedState config scheduler elector store now).tasks = Table.insertAll Task.id ∅
      ((store.loaded config.jobBuffer).flatMap fun r => r.2.map (Task.loadedAs now r.1)) ∧
    (loadedState config scheduler elector store now).queue =
      (store.loaded config.jobBuffer).flatMap resetIds ∧
    (loadedState config scheduler elector store now).ops =
      (launched config scheduler elector store now).ops ++
        (store.loaded config.jobBuffer).flatMap (resetWrites now) := by
  have hq := launched_quiet config scheduler elector store now
  obtain ⟨hf, hj, ht, hqueue, ho⟩ := restoreAll_fields now
    (s := launched config scheduler elector store now) (store.loaded config.jobBuffer)
  have heq : loadedState config scheduler elector store now =
      (store.loaded config.jobBuffer).foldl (restoreJob now)
        (launched config scheduler elector store now) := by
    unfold loadedState restoreJobs Store.loaded
    rw [hq.config]
    rfl
  rw [heq]
  refine ⟨hf, ?_, ?_, ?_, ho⟩
  · rw [hj, hq.jobs]; rfl
  · rw [ht, hq.tasks]; rfl
  · rw [hqueue, hq.queue]; rfl

theorem loadedState_job (h : store.Keyed) {id : JobId} {j : Job} :
    (loadedState config scheduler elector store now).jobs[id]? = some j ↔
      j.id = id ∧ (j, store.tasksForJob id) ∈ store.loaded config.jobBuffer := by
  rw [(loadedState_fields _ config scheduler elector store).2.1]
  have hnd : (((store.loaded config.jobBuffer).map Prod.fst).map Job.id).Nodup := by
    rw [List.map_map]
    exact List.pairwise_map.mpr ((Store.loaded_sorted h _).imp Nat.ne_of_lt)
  constructor
  · intro hj
    rcases Table.get_insertAll_some hj with ⟨hm, rfl⟩ | ⟨hold, _⟩
    · obtain ⟨r, hr, rfl⟩ := List.mem_map.mp hm
      refine ⟨rfl, ?_⟩
      rw [← (Store.mem_loaded h hr).2]
      exact hr
    · simp at hold
  · rintro ⟨rfl, hm⟩
    exact Table.get_insertAll_mem hnd (List.mem_map.mpr ⟨_, hm, rfl⟩)

theorem loadedState_task (h : store.Keyed) {id : TaskId} {t : Task} :
    (loadedState config scheduler elector store now).tasks[id]? = some t ↔
      ∃ t₀ j, store.tasks[id]? = some t₀ ∧ t = t₀.loadedAs now j ∧
        (loadedState config scheduler elector store now).jobs[t₀.jobId]? = some j := by
  have hnd : (((store.loaded config.jobBuffer).flatMap fun r =>
      r.2.map (Task.loadedAs now r.1)).map Task.id).Nodup := by
    have heq := Store.loaded_tasks_nodup h config.jobBuffer
    rw [List.map_flatMap]
    simpa [Function.comp_def, Task.loadedAs_id] using heq
  rw [(loadedState_fields _ config scheduler elector store).2.2.1]
  constructor
  · intro ht
    rcases Table.get_insertAll_some ht with ⟨hm, rfl⟩ | ⟨hold, _⟩
    · obtain ⟨r, hr, hm⟩ := List.mem_flatMap.mp hm
      obtain ⟨t₀, ht₀, rfl⟩ := List.mem_map.mp hm
      obtain ⟨hs, hjid⟩ := (Store.mem_loaded_task h hr).mp ht₀
      refine ⟨t₀, r.1, by rw [Task.loadedAs_id]; exact hs, rfl, ?_⟩
      rw [loadedState_job config scheduler elector h, hjid, ← (Store.mem_loaded h hr).2]
      exact ⟨rfl, hr⟩
    · simp at hold
  · rintro ⟨t₀, j, ht₀, rfl, hj⟩
    obtain ⟨hid, hr⟩ := (loadedState_job config scheduler elector h).mp hj
    have hkey := h.task id t₀ ht₀
    have hmem : t₀.loadedAs now j ∈ (store.loaded config.jobBuffer).flatMap fun r =>
        r.2.map (Task.loadedAs now r.1) := by
      refine List.mem_flatMap.mpr ⟨_, hr, List.mem_map.mpr ⟨t₀, ?_, rfl⟩⟩
      exact (Store.mem_loaded_task h hr).mpr ⟨hkey ▸ ht₀, hid.symm⟩
    have hget := Table.get_insertAll_mem (m := ∅) hnd hmem
    rw [Task.loadedAs_id, hkey] at hget
    exact hget

theorem loadedState_queue (h : store.Keyed) {id : TaskId} :
    id ∈ (loadedState config scheduler elector store now).queue ↔
      ∃ t₀ j, store.tasks[id]? = some t₀ ∧ t₀.isReset j = true ∧
        (loadedState config scheduler elector store now).jobs[t₀.jobId]? = some j := by
  rw [(loadedState_fields _ config scheduler elector store).2.2.2.1, List.mem_flatMap]
  constructor
  · rintro ⟨r, hr, hm⟩
    obtain ⟨t₀, ht₀, rfl⟩ := List.mem_map.mp hm
    obtain ⟨hin, hreset⟩ := List.mem_filter.mp ht₀
    obtain ⟨hs, hjid⟩ := (Store.mem_loaded_task h hr).mp hin
    refine ⟨t₀, r.1, hs, hreset, ?_⟩
    rw [loadedState_job config scheduler elector h, hjid, ← (Store.mem_loaded h hr).2]
    exact ⟨rfl, hr⟩
  · rintro ⟨t₀, j, ht₀, hreset, hj⟩
    obtain ⟨hid, hr⟩ := (loadedState_job config scheduler elector h).mp hj
    have hkey := h.task id t₀ ht₀
    refine ⟨_, hr, List.mem_map.mpr ⟨t₀, List.mem_filter.mpr ⟨?_, hreset⟩, hkey⟩⟩
    exact (Store.mem_loaded_task h hr).mpr ⟨hkey ▸ ht₀, hid.symm⟩

theorem loadedState_queue_nodup (h : store.Keyed) :
    (loadedState config scheduler elector store now).queue.Nodup := by
  rw [(loadedState_fields _ config scheduler elector store).2.2.2.1]
  refine (Store.loaded_tasks_nodup h config.jobBuffer).sublist ?_
  refine List.Sublist.flatMap_right _ ?_
  intro r _
  exact List.filter_sublist.map _

variable (now) in
theorem loadedState_wf (h : store.Keyed)
    (hopen : ∀ (id : TaskId) t, store.tasks[id]? = some t → t.state = .queued → t.assignedTo = none) :
    (loadedState config scheduler elector store now).Wf where
  taskKey := by
    intro id t ht
    obtain ⟨t₀, j, ht₀, rfl, -⟩ := (loadedState_task config scheduler elector h).mp ht
    rw [Task.loadedAs_id]
    exact h.task id t₀ ht₀
  jobKey := fun id j hj => ((loadedState_job config scheduler elector h).mp hj).1
  nodeKey := by
    rw [(loadedState_fields _ config scheduler elector store).1.nodes]
    exact (launched_wf config scheduler elector store now).nodeKey
  unassigned := by
    intro id t ht hst
    obtain ⟨t₀, j, ht₀, rfl, -⟩ := (loadedState_task config scheduler elector h).mp ht
    unfold Task.loadedAs at hst ⊢
    split
    · rfl
    · rename_i hr
      simp only [hr] at hst
      exact hopen id t₀ ht₀ hst

theorem bootstrap_eq_loaded (store : Store) : bootstrap config scheduler elector store now =
    (loadedState config scheduler elector store now).refreshLeadership now := rfl

/-! ## Over an empty store -/

variable (now) in
theorem loadedState_empty :
    (loadedState config scheduler elector .empty now).jobs = ∅ ∧
    (loadedState config scheduler elector .empty now).tasks = ∅ ∧
    (loadedState config scheduler elector .empty now).queue = [] ∧
    (loadedState config scheduler elector .empty now).ops =
      (launched config scheduler elector .empty now).ops := by
  obtain ⟨-, hj, ht, hq, ho⟩ := loadedState_fields now config scheduler elector .empty
  simp only [Store.empty_loaded, List.map_nil, List.flatMap_nil, List.append_nil] at hj ht hq ho
  exact ⟨hj, ht, hq, ho⟩

theorem bootstrap_empty_wf : (bootstrap config scheduler elector .empty now).Wf := by
  have hw := loadedState_wf now config scheduler elector Store.empty_keyed
    (by simp [Store.empty])
  have hq := Quiet.refreshLeadership (loadedState config scheduler elector .empty now) now
  rw [bootstrap_eq_loaded]
  refine hq.wf hw ?_
  rw [refreshLeadership_nodes]
  exact hw.nodeKey

end Supervisor

end Gavel.Cluster
