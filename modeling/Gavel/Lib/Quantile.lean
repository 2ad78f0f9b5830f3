import Mathlib.Algebra.Order.BigOperators.Group.List
import Mathlib.Algebra.Order.Ring.Nat
import Mathlib.Data.List.Sort

/-!
# Weighted points and their quantiles

Points of an order with a weight at each, the weight at or below a point, and the least point with a
given weight at or below it: the first at which the running sum over the sorted points gets there.
-/

namespace Gavel.Quantile

variable {α : Type} [LinearOrder α] {m m' : List (α × Nat)} {e : α × Nat} {p q : α} {target seen : Nat}

/-- The weight at or below a point. -/
def upto (m : List (α × Nat)) (p : α) : Nat := ((m.filter (·.1 ≤ p)).map Prod.snd).sum

/-- All of the weight. -/
def total (m : List (α × Nat)) : Nat := (m.map Prod.snd).sum

/-- The first point at which the running sum reaches a target. -/
def walk (target : Nat) : Nat → List (α × Nat) → Option α
  | _, [] => none
  | seen, e :: m => if target ≤ seen + e.2 then some e.1 else walk target (seen + e.2) m

/-- The least point with a given weight at or below it. -/
structure Reaches (m : List (α × Nat)) (target : Nat) (p : α) : Prop where
  enough : target ≤ upto m p
  least : ∀ q < p, upto m q < target

/-! ## The weight at or below a point -/

@[simp] theorem upto_nil (p : α) : upto [] p = 0 := rfl

theorem upto_cons (e : α × Nat) (m : List (α × Nat)) (p : α) :
    upto (e :: m) p = (if e.1 ≤ p then e.2 else 0) + upto m p := by
  by_cases h : e.1 ≤ p <;> simp [upto, h]

theorem upto_cons_le (h : e.1 ≤ p) : upto (e :: m) p = e.2 + upto m p := by
  rw [upto_cons, if_pos h]

theorem upto_perm (h : m.Perm m') (p : α) : upto m p = upto m' p :=
  ((h.filter _).map _).sum_eq

theorem upto_eq_zero (h : ∀ e ∈ m, p < e.1) : upto m p = 0 := by
  have hnone : m.filter (·.1 ≤ p) = [] := by
    apply List.filter_eq_nil_iff.mpr
    intro e he
    simpa using h e he
  rw [upto, hnone]
  rfl

theorem upto_mono (h : p ≤ q) (m : List (α × Nat)) : upto m p ≤ upto m q := by
  induction m with
  | nil => exact Nat.le_refl 0
  | cons e m ih =>
      rw [upto_cons, upto_cons]
      by_cases he : e.1 ≤ p
      · rw [if_pos he, if_pos (he.trans h)]
        omega
      · rw [if_neg he]
        omega

theorem upto_le_total (m : List (α × Nat)) (p : α) : upto m p ≤ total m := by
  induction m with
  | nil => exact Nat.le_refl 0
  | cons e m ih =>
      have htotal : total (e :: m) = e.2 + total m := by simp [total]
      rw [upto_cons, htotal]
      split <;> omega

theorem upto_eq_total (h : ∀ e ∈ m, e.1 ≤ p) : upto m p = total m := by
  rw [upto, List.filter_eq_self.mpr (by simpa using h), total]

theorem le_upto (he : e ∈ m) (h : e.1 ≤ p) : e.2 ≤ upto m p :=
  List.le_sum_of_mem (List.mem_map_of_mem (List.mem_filter.mpr ⟨he, by simpa using h⟩))

/-! ## The least point that reaches a target -/

theorem Reaches.unique (hp : Reaches m target p) (hq : Reaches m target q) : p = q := by
  rcases lt_trichotomy p q with h | h | h
  · exact absurd hp.enough (Nat.not_le_of_lt (hq.least p h))
  · exact h
  · exact absurd hq.enough (Nat.not_le_of_lt (hp.least q h))

theorem Reaches.congr (hm : ∀ q, upto m q = upto m' q) (h : Reaches m target p) : Reaches m' target p := by
  refine ⟨?_, ?_⟩
  · rw [← hm]
    exact h.enough
  · intro q hq
    rw [← hm]
    exact h.least q hq

theorem Reaches.le_of_enough (h : Reaches m target p) (hq : target ≤ upto m q) : p ≤ q := by
  by_contra hlt
  exact absurd hq (Nat.not_le_of_lt (h.least q (not_le.mp hlt)))

theorem Reaches.lt_of_short (h : Reaches m target p) (hq : upto m q < target) : q < p := by
  by_contra hle
  have hmono := upto_mono (not_lt.mp hle) m
  have henough := h.enough
  omega

omit [LinearOrder α] in
/-- A point that a walk ends at is one of the points. -/
theorem mem_of_walk (h : walk target seen m = some p) : ∃ e ∈ m, e.1 = p := by
  induction m generalizing seen with
  | nil => cases h
  | cons e m ih =>
      rw [walk] at h
      split at h
      · cases h
        exact ⟨e, List.mem_cons_self, rfl⟩
      · obtain ⟨e', he', heq⟩ := ih h
        exact ⟨e', List.mem_cons_of_mem _ he', heq⟩

omit [LinearOrder α] in
theorem walk_isSome (h : target ≤ seen + total m) (hseen : seen < target) :
    ∃ p, walk target seen m = some p := by
  induction m generalizing seen with
  | nil =>
      simp only [total, List.map_nil, List.sum_nil] at h
      omega
  | cons e m ih =>
      have htotal : total (e :: m) = e.2 + total m := by simp [total]
      rw [htotal] at h
      rw [walk]
      by_cases hreach : target ≤ seen + e.2
      · exact ⟨e.1, by rw [if_pos hreach]⟩
      · rw [if_neg hreach]
        exact ih (by omega) (by omega)

/-- What is left to reach after the weight already seen. -/
theorem walk_spec (hm : m.Pairwise fun a b => a.1 ≤ b.1) (hseen : seen < target)
    (h : walk target seen m = some p) :
    target ≤ seen + upto m p ∧ ∀ q < p, seen + upto m q < target := by
  induction m generalizing seen with
  | nil => cases h
  | cons e m ih =>
      obtain ⟨hle, hm⟩ := List.pairwise_cons.mp hm
      rw [walk] at h
      split at h
      · rename_i hreach
        cases h
        refine ⟨?_, ?_⟩
        · rw [upto_cons_le (le_refl e.1)]
          omega
        · intro q hq
          have hzero : upto (e :: m) q = 0 := by
            apply upto_eq_zero
            intro a ha
            rcases List.mem_cons.mp ha with rfl | ha
            · exact hq
            · exact hq.trans_le (hle a ha)
          rw [hzero]
          exact hseen
      · rename_i hshort
        obtain ⟨henough, hleast⟩ := ih hm (by omega) h
        obtain ⟨a, ha, rfl⟩ := mem_of_walk h
        refine ⟨?_, ?_⟩
        · rw [upto_cons_le (hle a ha)]
          omega
        · intro q hq
          have hbound := hleast q hq
          rw [upto_cons]
          split <;> omega

/-- The running sum over sorted points reaches a target at the least point that does. -/
theorem walk_reaches (hm : m.Pairwise fun a b => a.1 ≤ b.1) (hpos : 0 < target)
    (h : walk target 0 m = some p) : Reaches m target p := by
  obtain ⟨henough, hleast⟩ := walk_spec hm hpos h
  rw [Nat.zero_add] at henough
  refine ⟨henough, ?_⟩
  intro q hq
  rw [← Nat.zero_add (upto m q)]
  exact hleast q hq

end Gavel.Quantile
