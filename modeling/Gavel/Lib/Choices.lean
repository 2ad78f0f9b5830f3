import Gavel.Lib.OrderStatistics
import Mathlib.Algebra.Group.Action.Defs
import Mathlib.Algebra.Order.BigOperators.Group.List
import Mathlib.Algebra.Order.Ring.Nat
import Mathlib.Data.List.Sort
import Mathlib.Order.Bounds.Basic

/-!
# Choices of the least sum

A choice takes entries of a list, each at most as often as the list has it. Of all choices of one size
the first entries of the sorted list have the least sum, and no other choice has it. Entries with a
number of copies are spelled out as the list of their copies.
-/

namespace Gavel.Choices

section Order

variable {α : Type} [LinearOrder α] {l s t : List α} {a d : α} {m n : Nat}

/-- So many entries out of a list. -/
structure Choice (l : List α) (n : Nat) (t : List α) : Prop where
  subperm : t.Subperm l
  size : t.length = n

/-- A choice in ascending order is nowhere below the first entries. -/
theorem forall₂_take (hs : s.Pairwise (· ≤ ·)) (h : t.Sublist s) :
    List.Forall₂ (· ≤ ·) (s.take t.length) t := by
  induction t generalizing s with
  | nil => simp
  | cons b t ih =>
      cases s with
      | nil => cases h
      | cons a s =>
          obtain ⟨hle, hs⟩ := List.pairwise_cons.mp hs
          have hab : a ≤ b := by
            rcases List.mem_cons.mp (h.subset List.mem_cons_self) with rfl | hb
            · exact le_refl b
            · exact hle b hb
          exact .cons hab (ih hs h.tail)

theorem Choice.forall₂ (hs : s.Pairwise (· ≤ ·)) (hsl : s.Perm l) (h : Choice l n t) :
    ∃ t', t'.Perm t ∧ List.Forall₂ (· ≤ ·) (s.take n) t' := by
  have hperm := List.perm_insertionSort (· ≤ ·) t
  refine ⟨t.insertionSort (· ≤ ·), hperm, ?_⟩
  have hsub : (t.insertionSort (· ≤ ·)).Sublist s := by
    apply List.sublist_of_subperm_of_pairwise (r := (· ≤ ·))
    · exact (hperm.subperm.trans h.subperm).trans hsl.symm.subperm
    · exact List.pairwise_insertionSort _ t
    · exact hs
  have htake := forall₂_take hs hsub
  rwa [hperm.length_eq, h.size] at htake

/-- More of the first entries end no lower. -/
theorem getLast_take_mono (hs : s.Pairwise (· ≤ ·)) (hd : ∀ a ∈ s, d ≤ a) (h : m ≤ n) :
    (s.take m).getLast?.getD d ≤ (s.take n).getLast?.getD d := by
  cases hm : (s.take m).getLast? with
  | none =>
      cases hn : (s.take n).getLast? with
      | none => exact le_refl d
      | some b => exact hd b (List.mem_of_mem_take (List.mem_of_getLast? hn))
  | some a =>
      have ha : a ∈ s.take n := (List.take_sublist_take_left h).subset (List.mem_of_getLast? hm)
      cases hn : (s.take n).getLast? with
      | none =>
          rw [List.getLast?_eq_none_iff.mp hn] at ha
          cases ha
      | some b => exact (OrderStatistics.isGreatest_getLast (hs.sublist (List.take_sublist n s)) hn).2 ha

end Order

/-! ## The least sum -/

section Sum

variable {α : Type} [LinearOrder α] [AddCommMonoid α] [IsOrderedCancelAddMonoid α]
  {l s t : List α} {n : Nat}

/-- The first entries of the sorted list sum to the least. -/
theorem isLeast_sum_take (hs : s.Pairwise (· ≤ ·)) (hsl : s.Perm l) (hn : n ≤ s.length) :
    IsLeast {c | ∃ t, Choice l n t ∧ t.sum = c} (s.take n).sum := by
  constructor
  · refine ⟨s.take n, ⟨(List.take_sublist n s).subperm.trans hsl.subperm, ?_⟩, rfl⟩
    rw [List.length_take, min_eq_left hn]
  · rintro c ⟨t, ht, rfl⟩
    obtain ⟨t', hperm, hle⟩ := ht.forall₂ hs hsl
    rw [← hperm.sum_eq]
    exact hle.sum_le_sum

/-- What is entry by entry no greater and sums to no less is the same. -/
theorem eq_of_sum_le (h : List.Forall₂ (· ≤ ·) s t) (hsum : t.sum ≤ s.sum) : s = t := by
  induction h with
  | nil => rfl
  | cons hab hst ih =>
      rename_i a b s t
      rw [List.sum_cons, List.sum_cons] at hsum
      have hrest : s.sum ≤ t.sum := hst.sum_le_sum
      have hba : b ≤ a := le_of_add_le_add_right (hsum.trans (add_le_add_right hrest a))
      obtain rfl := le_antisymm hab hba
      rw [ih (le_of_add_le_add_left hsum)]

/-- Only the first entries have the least sum. -/
theorem Choice.perm_take (hs : s.Pairwise (· ≤ ·)) (hsl : s.Perm l) (h : Choice l n t)
    (hsum : t.sum ≤ (s.take n).sum) : t.Perm (s.take n) := by
  obtain ⟨t', hperm, hle⟩ := h.forall₂ hs hsl
  rw [← hperm.sum_eq] at hsum
  rw [eq_of_sum_le hle hsum]
  exact hperm.symm

end Sum

/-! ## The mean -/

section Mean

variable {s : List Nat} {a : Nat}

theorem le_mean (h : ∀ b ∈ s, a ≤ b) (hs : 0 < s.length) : a ≤ s.sum / s.length := by
  rw [Nat.le_div_iff_mul_le hs, Nat.mul_comm, ← smul_eq_mul]
  exact List.card_nsmul_le_sum s a h

theorem mean_le (h : ∀ b ∈ s, b ≤ a) : s.sum / s.length ≤ a := by
  apply Nat.div_le_of_le_mul
  rw [← smul_eq_mul]
  exact List.sum_le_card_nsmul s a h

end Mean

/-! ## Copies spelled out -/

section Copies

variable {α : Type} {m m' : List (α × Nat)} {e : α × Nat} {a : α}

/-- Every entry as often as it has copies. -/
def copies (m : List (α × Nat)) : List α := m.flatMap fun e => List.replicate e.2 e.1

@[simp] theorem copies_nil : copies ([] : List (α × Nat)) = [] := rfl

@[simp] theorem copies_cons (e : α × Nat) (m : List (α × Nat)) :
    copies (e :: m) = List.replicate e.2 e.1 ++ copies m := rfl

@[simp] theorem copies_append (m m' : List (α × Nat)) : copies (m ++ m') = copies m ++ copies m' :=
  List.flatMap_append

theorem copies_flatMap {β : Type} (f : β → List (α × Nat)) (l : List β) :
    copies (l.flatMap f) = l.flatMap fun b => copies (f b) := List.flatMap_assoc

theorem mem_copies : a ∈ copies m ↔ ∃ e ∈ m, 0 < e.2 ∧ e.1 = a := by
  simp only [copies, List.mem_flatMap, List.mem_replicate, Nat.pos_iff_ne_zero, eq_comm]

theorem length_copies (m : List (α × Nat)) : (copies m).length = (m.map Prod.snd).sum := by
  induction m with
  | nil => rfl
  | cons e m ih => simp [ih]

theorem pairwise_copies [Preorder α] (h : m.Pairwise fun e e' => e.1 < e'.1) :
    (copies m).Pairwise (· ≤ ·) := by
  induction m with
  | nil => exact List.Pairwise.nil
  | cons e m ih =>
      obtain ⟨hlt, hm⟩ := List.pairwise_cons.mp h
      refine List.pairwise_append.mpr ⟨List.pairwise_replicate.mpr (.inr (le_refl e.1)), ih hm, ?_⟩
      intro a ha b hb
      obtain ⟨e', he', -, rfl⟩ := mem_copies.mp hb
      rw [List.eq_of_mem_replicate ha]
      exact (hlt e' he').le

/-- An entry of a list without repeats has its own copies and no others. -/
theorem count_copies [DecidableEq α] (h : m.Pairwise fun e e' => e.1 ≠ e'.1) (he : e ∈ m) :
    (copies m).count e.1 = e.2 := by
  induction m with
  | nil => cases he
  | cons e' m ih =>
      obtain ⟨hne, hm⟩ := List.pairwise_cons.mp h
      rw [copies_cons, List.count_append]
      rcases List.mem_cons.mp he with rfl | he
      · have hnone : (copies m).count e.1 = 0 := by
          apply List.count_eq_zero.mpr
          intro hmem
          obtain ⟨e', he', -, heq⟩ := mem_copies.mp hmem
          exact hne e' he' heq.symm
        rw [hnone, List.count_replicate_self, Nat.add_zero]
      · rw [ih hm he, List.count_replicate, if_neg (by simpa using hne e he), Nat.zero_add]

end Copies

end Gavel.Choices
