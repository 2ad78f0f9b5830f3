import Mathlib.Data.List.Sort
import Mathlib.Order.Bounds.Basic

/-!
# Order statistics

The first entry of a sorted list is its least and the last one its greatest. The entries with a property
that smaller ones share come first. The entry at a place is the one that splits the list there: no more
entries than the place has before it are smaller, and more are no greater.
-/

namespace Gavel.OrderStatistics

variable {α : Type} [LinearOrder α] {s : List α} {a p : α} {i : Nat}

theorem isLeast_head (hs : s.Pairwise (· ≤ ·)) (h : s.head? = some a) : IsLeast {b | b ∈ s} a := by
  obtain ⟨rest, rfl⟩ := List.head?_eq_some_iff.mp h
  refine ⟨List.mem_cons_self, ?_⟩
  intro b hb
  rcases List.mem_cons.mp hb with rfl | hb
  · exact le_refl b
  · exact (List.pairwise_cons.mp hs).1 b hb

theorem isGreatest_getLast (hs : s.Pairwise (· ≤ ·)) (h : s.getLast? = some a) :
    IsGreatest {b | b ∈ s} a := by
  obtain ⟨init, rfl⟩ := List.getLast?_eq_some_iff.mp h
  refine ⟨List.mem_append_right _ (List.mem_singleton_self a), ?_⟩
  intro b hb
  rcases List.mem_append.mp hb with hb | hb
  · exact (List.pairwise_append.mp hs).2.2 b hb a (List.mem_singleton_self a)
  · exact (List.mem_singleton.mp hb).le

/-- If the least entry has not a property that smaller ones share, no entry has. -/
theorem none_of_head {q : α → Bool} (hs : (a :: s).Pairwise (· ≤ ·)) (hq : ∀ a b, a ≤ b → q b → q a)
    (ha : ¬ q a) : (a :: s).countP q = 0 := by
  refine List.countP_eq_zero.mpr fun b hb hqb => ?_
  rcases List.mem_cons.mp hb with rfl | hb
  · exact ha hqb
  · exact ha (hq a b ((List.pairwise_cons.mp hs).1 b hb) hqb)

/-- Along a sorted list the entries with a property that smaller ones share come first. -/
theorem lt_countP_iff (hs : s.Pairwise (· ≤ ·)) {q : α → Bool} (hq : ∀ a b, a ≤ b → q b → q a)
    (hi : i < s.length) : i < s.countP q ↔ q s[i] := by
  induction s generalizing i with
  | nil => exact absurd hi (Nat.not_lt_zero i)
  | cons a s ih =>
      by_cases ha : q a
      · rw [List.countP_cons_of_pos ha]
        cases i with
        | zero => exact iff_of_true (Nat.succ_pos _) ha
        | succ i =>
            exact Nat.succ_lt_succ_iff.trans (ih (List.pairwise_cons.mp hs).2 (Nat.lt_of_succ_lt_succ hi))
      · have hnone := none_of_head hs hq ha
        rw [hnone]
        exact iff_of_false (Nat.not_lt_zero i) (List.countP_eq_zero.mp hnone _ (List.getElem_mem hi))

/-- The entries before the partition point of a property that smaller ones share. -/
theorem length_takeWhile (hs : s.Pairwise (· ≤ ·)) {q : α → Bool} (hq : ∀ a b, a ≤ b → q b → q a) :
    (s.takeWhile q).length = s.countP q := by
  induction s with
  | nil => rfl
  | cons a s ih =>
      by_cases ha : q a
      · rw [List.takeWhile_cons_of_pos ha, List.length_cons, ih (List.pairwise_cons.mp hs).2,
          List.countP_cons_of_pos ha]
      · rw [List.takeWhile_cons_of_neg ha, none_of_head hs hq ha, List.length_nil]

/-- An entry is at a place exactly when it splits the list there. -/
theorem getElem_eq_iff (hs : s.Pairwise (· ≤ ·)) (hi : i < s.length) :
    s[i] = p ↔ s.countP (· < p) ≤ i ∧ i < s.countP (· ≤ p) := by
  have hbelow : i < s.countP (· < p) ↔ decide (s[i] < p) = true := by
    apply lt_countP_iff hs _ hi
    intro a b hab hb
    exact decide_eq_true (hab.trans_lt (of_decide_eq_true hb))
  have hupto : i < s.countP (· ≤ p) ↔ decide (s[i] ≤ p) = true := by
    apply lt_countP_iff hs _ hi
    intro a b hab hb
    exact decide_eq_true (hab.trans (of_decide_eq_true hb))
  rw [← Nat.not_lt, hbelow, hupto, decide_eq_true_eq, decide_eq_true_eq, not_lt]
  constructor
  · rintro rfl
    exact ⟨le_refl _, le_refl _⟩
  · rintro ⟨hge, hle⟩
    exact le_antisymm hle hge

end Gavel.OrderStatistics
