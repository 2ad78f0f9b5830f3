import Gavel.Lib.Run
import Mathlib.Data.List.Induction
import Mathlib.Data.List.Nodup
import Mathlib.Data.List.Perm.Basic

/-!
# A window over a queue of tasks

Tasks that share a store run side by side, at most a fixed number at a time: when one is done the next in
the queue starts. Each task makes one call after another, and between two of its calls others may make
theirs. If every task has a part of the store to itself, it leaves there what it would have left alone.
-/

namespace Gavel

/-- How a task starts, what one of its calls does for an answer, and when it has ended. -/
structure Tasks (σ τ γ α : Type) where
  first : τ → γ
  call : τ → γ → α → σ → σ × γ
  ended : γ → Bool

structure Fanout (σ τ γ : Type) where
  store : σ
  queue : List τ
  running : List (τ × γ)
  joined : List (τ × γ)

inductive FanoutStep (κ α : Type) where
  | call (k : κ) (answer : α)
  /-- A task that has ended is joined, and the window filled up again. -/
  | join (k : κ)

variable {σ τ γ α κ : Type}

namespace Tasks

variable (T : Tasks σ τ γ α)

/-- One call of a task alone. -/
def step (t : τ) (s : σ × γ) (a : α) : σ × γ := if T.ended s.2 then s else T.call t s.2 a s.1

/-- A task alone, with the answers to its calls. -/
def solo (s : σ) (t : τ) (answers : List α) : σ × γ := answers.foldl (T.step t) (s, T.first t)

/-- A task alone, with the answers to its calls and no answer beyond them. -/
inductive Worked (t : τ) (s : σ) : List α → σ → γ → Prop where
  | first : Worked t s [] s (T.first t)
  | call {answers : List α} {now : σ} {g : γ} (h : Worked t s answers now g) (hg : ¬ T.ended g = true)
      (a : α) : Worked t s (answers ++ [a]) (T.call t g a now).1 (T.call t g a now).2

variable {T} in
theorem Worked.solo {t : τ} {s now : σ} {answers : List α} {g : γ} (h : T.Worked t s answers now g) :
    T.solo s t answers = (now, g) := by
  induction h with
  | first => rfl
  | call h hg a ih =>
      rw [Tasks.solo] at ih
      rw [Tasks.solo, List.foldl_concat, ih, Tasks.step, if_neg hg]

/-- Every task has a part of the store to itself. -/
structure Owned (key : τ → κ) (Same : κ → σ → σ → Prop) : Prop where
  refl : ∀ k s, Same k s s
  trans : ∀ k s t u, Same k s t → Same k t u → Same k s u
  own : ∀ t g a s s', Same (key t) s s' →
    Same (key t) (T.call t g a s).1 (T.call t g a s').1 ∧ (T.call t g a s).2 = (T.call t g a s').2
  other : ∀ t g a s k, k ≠ key t → Same k s (T.call t g a s).1

end Tasks

namespace Fanout

variable (T : Tasks σ τ γ α) (key : τ → κ) (width : Nat)

/-- Fill the window up from the queue. -/
def fill (s : Fanout σ τ γ) : Fanout σ τ γ :=
  let free := width - s.running.length
  { s with queue := s.queue.drop free, running := s.running ++ (s.queue.take free).map fun t => (t, T.first t) }

def start (store : σ) (tasks : List τ) : Fanout σ τ γ := fill T width ⟨store, tasks, [], []⟩

/-- The tasks, wherever they stand. -/
def all (s : Fanout σ τ γ) : List τ := s.queue ++ s.running.map Prod.fst ++ s.joined.map Prod.fst

/-- Nothing is left to do. -/
def Finished (s : Fanout σ τ γ) : Prop := s.queue = [] ∧ s.running = []

section Step

variable [DecidableEq κ]

/-- Move a task on. -/
def put (k : κ) (g : γ) (running : List (τ × γ)) : List (τ × γ) :=
  running.map fun p => if key p.1 = k then (p.1, g) else p

def step (s : Fanout σ τ γ) : FanoutStep κ α → Fanout σ τ γ
  | .call k answer =>
      match s.running.find? fun p => key p.1 = k with
      | some (t, g) =>
          if T.ended g then s
          else
            let (store, g') := T.call t g answer s.store
            { s with store, running := put key k g' s.running }
      | none => s
  | .join k =>
      match s.running.find? fun p => key p.1 = k with
      | some (t, g) =>
          if T.ended g then
            fill T width
              { s with
                running := s.running.eraseP fun p => key p.1 = k
                joined := s.joined ++ [(t, g)] }
          else s
      | none => s

/-- The answer a step gives to a task: to a call of one that is at work and has not ended. -/
def answered (s : Fanout σ τ γ) (k : κ) : FanoutStep κ α → List α
  | .call k' answer =>
      match s.running.find? fun p => key p.1 = k' with
      | some (_, g) => if k' = k ∧ T.ended g = false then [answer] else []
      | none => []
  | .join _ => []

/-- The answers a run gives to the calls of a task, in their order. -/
def answers (s : Fanout σ τ γ) (k : κ) : List (FanoutStep κ α) → List α
  | [] => []
  | i :: steps => answered T key s k i ++ answers (step T key width s i) k steps

theorem answers_concat (s : Fanout σ τ γ) (k : κ) (steps : List (FanoutStep κ α)) (i : FanoutStep κ α) :
    answers T key width s k (steps ++ [i]) =
      answers T key width s k steps ++ answered T key (Run.final (step T key width) s steps) k i := by
  induction steps generalizing s with
  | nil => simp [answers, Run.final]
  | cons j steps ih =>
      rw [List.cons_append, answers, ih, answers, List.append_assoc]
      rfl

end Step

/-! ## Bookkeeping -/

section Bookkeeping

variable {T key width} {s : Fanout σ τ γ} {tasks : List τ} {k : κ} {g : γ} {p : τ × γ}

theorem start_fst (T : Tasks σ τ γ α) (l : List τ) : (l.map fun t => (t, T.first t)).map Prod.fst = l := by
  rw [List.map_map]
  exact List.map_id l

theorem fill_all : (fill T width s).all.Perm s.all := by
  simp only [all, fill, List.map_append, start_fst]
  refine List.Perm.append_right _ (List.perm_append_comm.trans ?_)
  rw [List.append_assoc, List.take_append_drop]
  exact List.perm_append_comm

/-- The window is never too wide, and full while a task waits. -/
structure Windowed (width : Nat) (s : Fanout σ τ γ) : Prop where
  narrow : s.running.length ≤ width
  full : s.queue ≠ [] → s.running.length = width

theorem fill_windowed (h : s.running.length ≤ width) : (fill T width s).Windowed width where
  narrow := by
    simp only [fill, List.length_append, List.length_map, List.length_take]
    omega
  full hq := by
    have hlen : width - s.running.length < s.queue.length := by
      refine Nat.lt_of_not_le fun hle => hq ?_
      exact List.drop_eq_nil_of_le hle
    simp only [fill, List.length_append, List.length_map, List.length_take]
    omega

variable [DecidableEq κ]

theorem put_fst (k : κ) (g : γ) (running : List (τ × γ)) :
    (put key k g running).map Prod.fst = running.map Prod.fst := by
  simp only [put, List.map_map]
  refine List.map_congr_left fun p _ => ?_
  simp only [Function.comp_apply]
  split <;> rfl

theorem find_running (h : (s.running.find? fun q => decide (key q.1 = k)) = some p) :
    p ∈ s.running ∧ key p.1 = k :=
  ⟨List.mem_of_find?_eq_some h, of_decide_eq_true (List.find?_some h :)⟩

/-- The task that is joined leaves the window. -/
theorem joined_all {t : τ} (h : (s.running.find? fun q => decide (key q.1 = k)) = some (t, g)) :
    { s with
      running := s.running.eraseP fun q => key q.1 = k
      joined := s.joined ++ [(t, g)] : Fanout σ τ γ }.all.Perm s.all := by
  obtain ⟨hk, before, after, hl, hbefore⟩ := List.find?_eq_some_iff_append.mp h
  have herase : s.running.eraseP (fun q => decide (key q.1 = k)) = before ++ after := by
    rw [hl, List.eraseP_append_right _ (by simpa using hbefore), List.eraseP_cons, hk]
    rfl
  simp only [all, herase]
  simp only [hl, List.map_append, List.map_cons, List.map_nil, List.append_assoc]
  refine List.Perm.append_left _ (List.Perm.append_left _ ?_)
  rw [← List.append_assoc]
  exact List.perm_append_singleton _ _

theorem step_windowed (h : s.Windowed width) (i : FanoutStep κ α) : (s.step T key width i).Windowed width := by
  cases i with
  | call k answer =>
      simp only [step]
      split
      · split
        · exact h
        · refine ⟨?_, fun hq => ?_⟩
          · simpa only [put, List.length_map] using h.narrow
          · simpa only [put, List.length_map] using h.full hq
      · exact h
  | join k =>
      simp only [step]
      split
      · split
        · exact fill_windowed (Nat.le_trans List.eraseP_sublist.length_le h.narrow)
        · exact h
      · exact h

end Bookkeeping

/-! ## Every task as if alone -/

section Isolated

variable {T key width} {Same : κ → σ → σ → Prop} {store now : σ} {tasks : List τ} {s : Fanout σ τ γ}
variable {t : τ} {g : γ} {given : List α} {p : τ × γ}

/-- A task has made the calls it would have made alone with its answers, and left its part so. -/
def Alone (T : Tasks σ τ γ α) (key : τ → κ) (Same : κ → σ → σ → Prop) (store now : σ) (given : List α)
    (p : τ × γ) : Prop :=
  ∃ alone, T.Worked p.1 store given alone p.2 ∧ Same (key p.1) alone now

theorem Alone.call (ho : T.Owned key Same) (h : Alone T key Same store now given (t, g))
    (hg : ¬ T.ended g = true) (a : α) :
    Alone T key Same store (T.call t g a now).1 (given ++ [a]) (t, (T.call t g a now).2) := by
  obtain ⟨alone, hworked, hsame⟩ := h
  obtain ⟨hown, hnext⟩ := ho.own t g a _ _ hsame
  exact ⟨(T.call t g a alone).1, hnext ▸ hworked.call hg a, hown⟩

/-- What another task does to the store does not matter. -/
theorem Alone.others (ho : T.Owned key Same) (h : Alone T key Same store now given p)
    (hne : key p.1 ≠ key t) (g : γ) (a : α) : Alone T key Same store (T.call t g a now).1 given p := by
  obtain ⟨alone, hworked, hsame⟩ := h
  exact ⟨alone, hworked, ho.trans _ _ _ _ hsame (ho.other t g a now _ hne)⟩

/-- The window over some tasks, that begin with a store, once they were given some answers. -/
structure Isolated (T : Tasks σ τ γ α) (key : τ → κ) (Same : κ → σ → σ → Prop) (store : σ) (tasks : List τ)
    (given : κ → List α) (s : Fanout σ τ γ) : Prop where
  all : s.all.Perm tasks
  waiting : ∀ t ∈ s.queue, given (key t) = [] ∧ Same (key t) store s.store
  worked : ∀ p ∈ s.running ++ s.joined, Alone T key Same store s.store (given (key p.1)) p
  ended : ∀ p ∈ s.joined, T.ended p.2 = true
  others : ∀ k, k ∉ tasks.map key → Same k store s.store

namespace Isolated

variable {given : κ → List α}

theorem fill (h : Isolated T key Same store tasks given s) :
    Isolated T key Same store tasks given (fill T width s) where
  all := fill_all.trans h.all
  waiting t ht := h.waiting t (List.mem_of_mem_drop ht)
  worked p hp := by
    rcases List.mem_append.mp hp with hp | hp
    · rcases List.mem_append.mp hp with hp | hp
      · exact h.worked p (List.mem_append_left _ hp)
      · obtain ⟨t, ht, rfl⟩ := List.mem_map.mp hp
        obtain ⟨hgiven, hsame⟩ := h.waiting t (List.mem_of_mem_take ht)
        exact ⟨store, hgiven ▸ .first, hsame⟩
    · exact h.worked p (List.mem_append_right _ hp)
  ended := h.ended
  others := h.others

theorem start (ho : T.Owned key Same) (store : σ) (tasks : List τ) :
    Isolated T key Same store tasks (fun _ => []) (start T width store tasks) := by
  refine fill ⟨?_, fun t _ => ⟨rfl, ho.refl _ _⟩, ?_, ?_, fun k _ => ho.refl _ _⟩
  · simp [Fanout.all]
  · simp
  · simp

/-- No key is met twice. -/
theorem apart (hk : (tasks.map key).Nodup) (h : Isolated T key Same store tasks given s) :
    (s.queue.map key ++ (s.running ++ s.joined).map fun p => key p.1).Nodup := by
  have hall : (s.all.map key).Nodup := (h.all.map key).nodup_iff.mpr hk
  simpa only [Fanout.all, List.map_append, List.map_map, List.append_assoc, Function.comp_def] using hall

/-- Once nothing is left to do every task was joined, once. -/
theorem finished (h : Isolated T key Same store tasks given s) (hf : s.Finished) :
    (s.joined.map Prod.fst).Perm tasks := by
  simpa only [Fanout.all, hf.1, hf.2, List.map_nil, List.nil_append] using h.all

variable [DecidableEq κ]

theorem call (ho : T.Owned key Same) (hk : (tasks.map key).Nodup)
    (h : Isolated T key Same store tasks given s) (hmem : (t, g) ∈ s.running) (hg : ¬ T.ended g = true)
    (a : α) :
    Isolated T key Same store tasks (fun k => given k ++ if key t = k then [a] else [])
      { s with
        store := (T.call t g a s.store).1
        running := put key (key t) (T.call t g a s.store).2 s.running } := by
  obtain ⟨-, hnodup, hdisjoint⟩ := List.nodup_append.mp (h.apart hk)
  have hsole : ∀ p ∈ s.running ++ s.joined, key p.1 = key t → p = (t, g) := fun p hp heq =>
    List.inj_on_of_nodup_map hnodup hp (List.mem_append_left _ hmem) heq
  have hmine : key t ∈ (s.running ++ s.joined).map fun p => key p.1 :=
    List.mem_map_of_mem (f := fun p : τ × γ => key p.1) (List.mem_append_left _ hmem)
  refine ⟨?_, fun t' ht' => ?_, fun p hp => ?_, h.ended, fun k hnot => ?_⟩
  · simpa only [Fanout.all, put_fst] using h.all
  · have hne : key t' ≠ key t := hdisjoint _ (List.mem_map_of_mem ht') _ hmine
    obtain ⟨hgiven, hsame⟩ := h.waiting t' ht'
    rw [if_neg hne.symm, List.append_nil]
    exact ⟨hgiven, ho.trans _ _ _ _ hsame (ho.other t g a s.store _ hne)⟩
  · rcases List.mem_append.mp hp with hp | hp
    · obtain ⟨q, hq, rfl⟩ := List.mem_map.mp hp
      have hq := List.mem_append_left s.joined hq
      by_cases heq : key q.1 = key t
      · rw [if_pos heq, hsole q hq heq, if_pos rfl]
        exact (h.worked _ (List.mem_append_left _ hmem)).call ho hg a
      · rw [if_neg heq, if_neg fun h => heq h.symm, List.append_nil]
        exact (h.worked q hq).others ho heq g a
    · have hp' := List.mem_append_right s.running hp
      have hne : key p.1 ≠ key t := by
        intro heq
        have hended := h.ended p hp
        rw [hsole p hp' heq] at hended
        exact hg hended
      rw [if_neg hne.symm, List.append_nil]
      exact (h.worked p hp').others ho hne g a
  · have hin : t ∈ tasks := h.all.subset <| List.mem_append_left _ <| List.mem_append_right _ <|
      List.mem_map_of_mem (f := Prod.fst) hmem
    have hne : k ≠ key t := fun heq => hnot (heq ▸ List.mem_map_of_mem hin)
    exact ho.trans _ _ _ _ (h.others k hnot) (ho.other t g a s.store k hne)

theorem step (ho : T.Owned key Same) (hk : (tasks.map key).Nodup)
    (h : Isolated T key Same store tasks given s) (i : FanoutStep κ α) :
    Isolated T key Same store tasks (fun k => given k ++ answered T key s k i) (s.step T key width i) := by
  cases i with
  | call k a =>
      simp only [Fanout.step, answered]
      split
      · rename_i t g hfind
        obtain ⟨hmem, hkey⟩ := find_running hfind
        obtain rfl : key t = k := hkey
        cases hg : T.ended g with
        | true => simpa only [hg, if_true, Bool.true_eq_false, and_false, if_false, List.append_nil] using h
        | false =>
            have hcalled := h.call ho hk hmem (Bool.eq_false_iff.mp hg) a
            simpa only [hg, Bool.false_eq_true, if_false, and_true] using hcalled
      · simpa only [List.append_nil] using h
  | join k =>
      simp only [Fanout.step, answered, List.append_nil]
      split
      · rename_i t g hfind
        split
        · rename_i hg
          refine fill ⟨(joined_all hfind).trans h.all, h.waiting, fun p hp => ?_, fun p hp => ?_, h.others⟩
          · refine h.worked p ?_
            rcases List.mem_append.mp hp with hp | hp
            · exact List.mem_append_left _ (List.mem_of_mem_eraseP hp)
            · rcases List.mem_append.mp hp with hp | hp
              · exact List.mem_append_right _ hp
              · rw [List.mem_singleton.mp hp]
                exact List.mem_append_left _ (find_running hfind).1
          · rcases List.mem_append.mp hp with hp | hp
            · exact h.ended p hp
            · rw [List.mem_singleton.mp hp]
              exact hg
        · exact h
      · exact h

end Isolated

variable [DecidableEq κ]

/-- Whatever the order of the calls, every task works as if alone with the answers it is given. -/
theorem isolated (ho : T.Owned key Same) (hk : (tasks.map key).Nodup) (store : σ) (width : Nat)
    (steps : List (FanoutStep κ α)) :
    Isolated T key Same store tasks
      (fun k => answers T key width (Fanout.start T width store tasks) k steps)
      (Run.final (step T key width) (Fanout.start T width store tasks) steps) := by
  induction steps using List.reverseRecOn with
  | nil => exact .start ho store tasks
  | append_singleton steps i ih =>
      simp only [answers_concat, Run.final_append]
      exact ih.step ho hk i

/-- At no moment are there more tasks at work than the window is wide, or fewer while one waits. -/
theorem windowed (store : σ) (tasks : List τ) (steps : List (FanoutStep κ α)) :
    ∀ s ∈ Run.visited (step T key width) (Fanout.start T width store tasks) steps, s.Windowed width :=
  Run.invariant_always (fun _ i h => step_windowed h i) steps (fill_windowed (Nat.zero_le width))

end Isolated

end Fanout

end Gavel
