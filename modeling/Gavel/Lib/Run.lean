/-!
# Runs of a deterministic machine

A machine is a function from a state and an input to a state. A run is a list of inputs; it visits a
list of states. The rules here carry an invariant along a run in which every step meets a condition,
and characterise the runs that keep a property by the condition on their steps.
-/

namespace Gavel.Run

variable {σ ι : Type} (step : σ → ι → σ)

/-- The states of a run, the first one included. -/
def visited (s : σ) : List ι → List σ
  | [] => [s]
  | i :: is => s :: visited (step s i) is

/-- Every step of the run meets the condition, in the state it starts from. -/
def AllSteps (C : σ → ι → Prop) (s : σ) : List ι → Prop
  | [] => True
  | i :: is => C s i ∧ AllSteps C (step s i) is

instance AllSteps.decidable (C : σ → ι → Prop) [∀ s i, Decidable (C s i)] :
    ∀ (s : σ) (is : List ι), Decidable (AllSteps step C s is)
  | _, [] => .isTrue trivial
  | s, i :: is =>
      have := AllSteps.decidable C (step s i) is
      inferInstanceAs (Decidable (C s i ∧ AllSteps step C (step s i) is))

/-- The last state of a run. -/
def final (s : σ) (is : List ι) : σ := is.foldl step s

variable {step}

theorem final_mem_visited (s : σ) (is : List ι) : final step s is ∈ visited step s is := by
  induction is generalizing s with
  | nil => simp [final, visited]
  | cons i is ih => exact List.mem_cons_of_mem _ (ih (step s i))

theorem final_append (s : σ) (is js : List ι) :
    final step s (is ++ js) = final step (final step s is) js := List.foldl_append

variable {C : σ → ι → Prop} {I P : σ → Prop}

/-- Invariant rule. -/
theorem invariant (hstep : ∀ s i, I s → C s i → I (step s i)) {s : σ} {is : List ι}
    (h : I s) (hc : AllSteps step C s is) : ∀ x ∈ visited step s is, I x := by
  induction is generalizing s with
  | nil =>
      intro x hx
      rw [List.mem_singleton.mp hx]
      exact h
  | cons i is ih =>
      intro x hx
      rcases List.mem_cons.mp hx with rfl | hx
      · exact h
      · exact ih (hstep s i h hc.1) hc.2 x hx

/-- Invariant rule without a condition on the steps. -/
theorem invariant_always (hstep : ∀ s i, I s → I (step s i)) {s : σ} (is : List ι)
    (h : I s) : ∀ x ∈ visited step s is, I x := by
  induction is generalizing s with
  | nil =>
      intro x hx
      rw [List.mem_singleton.mp hx]
      exact h
  | cons i is ih =>
      intro x hx
      rcases List.mem_cons.mp hx with rfl | hx
      · exact h
      · exact ih (hstep s i h) x hx

/-- The last state satisfies the invariant. -/
theorem invariant_final (hstep : ∀ s i, I s → I (step s i)) {s : σ} (is : List ι) (h : I s) :
    I (final step s is) := invariant_always hstep is h _ (final_mem_visited s is)

/-- What a condition and an invariant imply of one step holds of every step of a run. -/
theorem allSteps_of_invariant {D : σ → ι → Prop} (hstep : ∀ s i, I s → C s i → I (step s i))
    (hD : ∀ s i, I s → C s i → D s i) {s : σ} {is : List ι} (h : I s) (hc : AllSteps step C s is) :
    AllSteps step D s is := by
  induction is generalizing s with
  | nil => trivial
  | cons i is ih => exact ⟨hD s i h hc.1, ih (hstep s i h hc.1) hc.2⟩

/-- A condition on inputs alone that all inputs meet. -/
theorem allSteps_of_forall {p : ι → Prop} {s : σ} {is : List ι} (h : ∀ i ∈ is, p i) :
    AllSteps step (fun _ i => p i) s is := by
  induction is generalizing s with
  | nil => trivial
  | cons i is ih =>
      obtain ⟨hi, his⟩ := List.forall_mem_cons.mp h
      exact ⟨hi, ih his⟩

/-- Invariant rule for a machine whose inputs carry a clock that does not go back, if every step of the run
meets a condition. -/
theorem invariant_clocked_of_steps (time : ι → Nat) (I : Nat → σ → Prop)
    (hstep : ∀ t s i, I t s → t ≤ time i → C s i → I (time i) (step s i)) {s : σ} {is : List ι} {t : Nat}
    (h : I t s) (hfrom : ∀ i ∈ is, t ≤ time i) (hclock : (is.map time).Pairwise (· ≤ ·))
    (hc : AllSteps step C s is) : ∀ x ∈ visited step s is, ∃ t, I t x := by
  induction is generalizing s t with
  | nil =>
      intro x hx
      rw [List.mem_singleton.mp hx]
      exact ⟨t, h⟩
  | cons i is ih =>
      obtain ⟨hfirst, hrest⟩ := List.pairwise_cons.mp hclock
      intro x hx
      rcases List.mem_cons.mp hx with rfl | hx
      · exact ⟨t, h⟩
      · exact ih (hstep t s i h (hfrom i List.mem_cons_self) hc.1)
          (fun j hj => hfirst (time j) (List.mem_map_of_mem hj)) hrest hc.2 x hx

/-- Invariant rule for a machine whose inputs carry a clock that does not go back. -/
theorem invariant_clocked (time : ι → Nat) (I : Nat → σ → Prop)
    (hstep : ∀ t s i, I t s → t ≤ time i → I (time i) (step s i)) {s : σ} {is : List ι} {t : Nat}
    (h : I t s) (hfrom : ∀ i ∈ is, t ≤ time i) (hclock : (is.map time).Pairwise (· ≤ ·)) :
    ∀ x ∈ visited step s is, ∃ t, I t x :=
  invariant_clocked_of_steps (C := fun _ _ => True) time I (fun t s i h hle _ => hstep t s i h hle) h hfrom
    hclock (allSteps_of_forall fun _ _ => trivial)

theorem AllSteps.and {D : σ → ι → Prop} {s : σ} {is : List ι} (hc : AllSteps step C s is)
    (hd : AllSteps step D s is) : AllSteps step (fun s i => C s i ∧ D s i) s is := by
  induction is generalizing s with
  | nil => trivial
  | cons i is ih => exact ⟨⟨hc.1, hd.1⟩, ih hc.2 hd.2⟩

theorem AllSteps.of_append {s : σ} {is js : List ι} (h : AllSteps step C s (is ++ js)) :
    AllSteps step C (final step s is) js := by
  induction is generalizing s with
  | nil => exact h
  | cons i is ih => exact ih h.2

/-- A relation between the ends of every step that composes relates the ends of a run. -/
theorem related {R : σ → σ → Prop} (hrefl : ∀ s, R s s)
    (htrans : ∀ s t u, I s → R s t → R t u → R s u)
    (hstep : ∀ s i, I s → I (step s i) ∧ R s (step s i)) {s : σ} (is : List ι) (h : I s) :
    R s (final step s is) := by
  induction is generalizing s with
  | nil => exact hrefl s
  | cons i is ih =>
      obtain ⟨hi, hr⟩ := hstep s i h
      exact htrans s _ _ h hr (ih hi)

/-- If a step that breaks the condition also breaks the property, the property holds throughout a
run exactly when all its steps meet the condition. -/
theorem forall_visited_iff (hP : ∀ s, I s → P s)
    (hstep : ∀ s i, I s → C s i → I (step s i))
    (hbreak : ∀ s i, I s → ¬ C s i → ¬ P (step s i)) {s : σ} {is : List ι} (h : I s) :
    (∀ x ∈ visited step s is, P x) ↔ AllSteps step C s is := by
  constructor
  · intro hall
    induction is generalizing s with
    | nil => trivial
    | cons i is ih =>
        have hc : C s i := by
          refine Classical.byContradiction fun hc => ?_
          refine hbreak s i h hc (hall _ (List.mem_cons_of_mem _ ?_))
          cases is <;> simp [visited]
        exact ⟨hc, ih (hstep s i h hc) fun x hx => hall x (List.mem_cons_of_mem _ hx)⟩
  · intro hc x hx
    exact hP x (invariant hstep h hc x hx)

end Gavel.Run
