import Gavel.Lib.OrderStatistics
import Mathlib.Algebra.BigOperators.Group.List.Basic
import Mathlib.Algebra.Order.Field.Rat
import Mathlib.Tactic.FieldSimp
import Mathlib.Tactic.Positivity
import Mathlib.Tactic.Linarith
import Mathlib.Tactic.Ring

/-!
# Ranks with ties

The rank of an entry is the average of the places its value takes in sorted order, counted from one. It
lies halfway between how many entries are smaller and how many are no greater, so that it grows with the
entry, does not depend on the order of the list, and the ranks of a list sum to what the places do.
-/

namespace Gavel.Ranks

open OrderStatistics

variable {α : Type} [LinearOrder α] {l l' : List α} {a b : α} {m n : Nat}

/-- The places a value takes in sorted order, from one. -/
def positions (l : List α) (a : α) : List Nat :=
  ((List.range l.length).filter fun k => (l.insertionSort (· ≤ ·))[k]? = some a).map (· + 1)

def averagePosition (l : List α) (a : α) : ℚ := (positions l a).sum / (positions l a).length

/-- How many entries are smaller. -/
def below (l : List α) (a : α) : Nat := l.countP (· < a)

/-- How many entries are no greater. -/
def upto (l : List α) (a : α) : Nat := l.countP (· ≤ a)

def midRank (l : List α) (a : α) : ℚ := ((below l a + upto l a + 1 : Nat) : ℚ) / 2

/-! ## Counting -/

theorem below_perm (h : l.Perm l') (a : α) : below l a = below l' a := h.countP_eq _

theorem upto_perm (h : l.Perm l') (a : α) : upto l a = upto l' a := h.countP_eq _

theorem midRank_perm (h : l.Perm l') (a : α) : midRank l a = midRank l' a := by
  rw [midRank, midRank, below_perm h, upto_perm h]

theorem upto_le_length (l : List α) (a : α) : upto l a ≤ l.length := List.countP_le_length

theorem below_lt_upto (h : a ∈ l) : below l a < upto l a := by
  obtain ⟨i, hi, rfl⟩ := List.mem_iff_getElem.mp ((List.mem_insertionSort (· ≤ ·)).mpr h)
  have hsplit := (getElem_eq_iff (List.pairwise_insertionSort (· ≤ ·) l) hi).mp rfl
  have hperm := List.perm_insertionSort (· ≤ ·) l
  rw [hperm.countP_eq, hperm.countP_eq] at hsplit
  exact lt_of_le_of_lt hsplit.1 hsplit.2

theorem upto_le_below (h : a < b) : upto l a ≤ below l b := by
  refine List.countP_mono_left fun c _ hc => ?_
  exact decide_eq_true ((of_decide_eq_true hc).trans_lt h)

theorem below_le_upto (l : List α) (a : α) : below l a ≤ upto l a := by
  refine List.countP_mono_left fun c _ hc => ?_
  exact decide_eq_true (of_decide_eq_true hc).le

/-- A smaller entry has a smaller rank. -/
theorem midRank_lt (ha : a ∈ l) (h : a < b) : midRank l a < midRank l b := by
  have hlt : below l a + upto l a + 1 < below l b + upto l b + 1 := by
    have := below_lt_upto ha
    have : upto l a ≤ below l b := upto_le_below h
    have := below_le_upto l b
    omega
  have hcast : ((below l a + upto l a + 1 : Nat) : ℚ) < ((below l b + upto l b + 1 : Nat) : ℚ) :=
    Nat.cast_lt.mpr hlt
  unfold midRank
  linarith

/-! ## The average of the places -/

theorem filter_range_between (h : n ≤ m) {k : Nat} :
    (List.range m).filter (fun i => k ≤ i ∧ i < n) = List.range' k (n - k) := by
  refine (List.pairwise_lt_range.filter _).eq_of_mem_iff (List.pairwise_lt_range' 1) fun i => ?_
  rw [List.mem_filter, List.mem_range, decide_eq_true_eq, List.mem_range'_1]
  omega

theorem two_mul_sum_range' (m n : Nat) : 2 * (List.range' m n).sum + n = n * (2 * m + n) := by
  induction n generalizing m with
  | zero => simp
  | succ n ih =>
      rw [List.range'_succ, List.sum_cons]
      have := ih (m + 1)
      have hexpand : (n + 1) * (2 * m + (n + 1)) = n * (2 * (m + 1) + n) + 2 * m + 1 := by ring
      omega

theorem positions_eq (l : List α) (a : α) :
    positions l a = List.range' (below l a + 1) (upto l a - below l a) := by
  have hsorted := List.pairwise_insertionSort (· ≤ ·) l
  have hperm := List.perm_insertionSort (· ≤ ·) l
  have hplaces : (List.range l.length).filter (fun k => (l.insertionSort (· ≤ ·))[k]? = some a) =
      (List.range l.length).filter (fun k => below l a ≤ k ∧ k < upto l a) := by
    refine List.filter_congr fun k hk => ?_
    have hlt : k < (l.insertionSort (· ≤ ·)).length := by
      rw [List.length_insertionSort]
      exact List.mem_range.mp hk
    rw [decide_eq_decide, List.getElem?_eq_getElem hlt, Option.some.injEq, getElem_eq_iff hsorted hlt,
      hperm.countP_eq, hperm.countP_eq]
    rfl
  rw [positions, hplaces, filter_range_between (upto_le_length l a), Nat.add_comm (below l a) 1,
    ← List.map_add_range']
  exact List.map_congr_left fun k _ => Nat.add_comm k 1

/-- The average of the places of an entry is halfway between its bounds. -/
theorem averagePosition_eq (h : a ∈ l) : averagePosition l a = midRank l a := by
  obtain ⟨count, hcount⟩ := Nat.exists_eq_add_of_lt (below_lt_upto h)
  have hlength : upto l a - below l a = count + 1 := by omega
  have hsum := two_mul_sum_range' (below l a + 1) (count + 1)
  have hne : (count : ℚ) + 1 ≠ 0 := by positivity
  rw [averagePosition, midRank, positions_eq, hlength, List.length_range', hcount]
  -- the cast must not go into the sum
  generalize (List.range' (below l a + 1) (count + 1)).sum = total at hsum ⊢
  have hcast : (2 : ℚ) * total + (count + 1) = (count + 1) * (2 * (below l a + 1) + (count + 1)) := by
    exact_mod_cast hsum
  push_cast
  field_simp
  linarith

/-! ## The sum of the ranks -/

/-- Twice the ranks of the entries of one list among those of another. -/
def doubled (l m : List α) : Nat := (l.map fun a => below m a + upto m a).sum

theorem doubled_cons_right (a : α) (l m : List α) :
    doubled l (a :: m) = doubled l m + l.countP (a < ·) + l.countP (a ≤ ·) := by
  induction l with
  | nil => rfl
  | cons b l ih =>
      simp only [doubled, List.map_cons, List.sum_cons, below, upto, List.countP_cons] at ih ⊢
      omega

/-- Of two entries, one is smaller than the other or both are the same. -/
theorem doubled_add (l m : List α) : doubled l m + doubled m l = 2 * (l.length * m.length) := by
  induction l with
  | nil => simp [doubled, below, upto]
  | cons a l ih =>
      have habove : m.countP (a < ·) + upto m a = m.length := by
        rw [upto, Nat.add_comm, m.length_eq_countP_add_countP (· ≤ a)]
        simp only [decide_eq_true_eq, not_le]
      have hfrom : m.countP (a ≤ ·) + below m a = m.length := by
        rw [below, Nat.add_comm, m.length_eq_countP_add_countP (· < a)]
        simp only [decide_eq_true_eq, not_lt]
      have hcons : doubled (a :: l) m = below m a + upto m a + doubled l m := rfl
      rw [doubled_cons_right, hcons, List.length_cons, Nat.add_mul, Nat.one_mul]
      omega

/-- The ranks of a list sum to what the places from one do. -/
theorem sum_midRank (l : List α) : (l.map (midRank l)).sum = (l.length * (l.length + 1) : ℚ) / 2 := by
  have hhalf (m : List α) : (m.map (midRank l)).sum = ((doubled m l + m.length : Nat) : ℚ) / 2 := by
    induction m with
    | nil => simp [doubled]
    | cons a m ih =>
        have hcons : doubled (a :: m) l = below l a + upto l a + doubled m l := rfl
        rw [List.map_cons, List.sum_cons, ih, midRank, hcons, List.length_cons]
        push_cast
        ring
  have hdouble := doubled_add l l
  have hsum : doubled l l = l.length * l.length := by omega
  rw [hhalf, hsum]
  push_cast
  ring

end Gavel.Ranks
