import Mathlib.Algebra.Order.Ring.Nat
import Mathlib.Data.List.Basic

/-!
# Counting in a list whose entries change in place

What a count becomes when one entry is replaced, and when one property is split into two.
-/

namespace Gavel.Slots

variable {α : Type} {p q r : α → Bool} {l : List α} {i : Nat} {a b : α}

/-- Replacing an entry moves a count by what the two entries contribute. -/
theorem countP_set (h : l[i]? = some a) :
    (l.set i b).countP p + (p a).toNat = l.countP p + (p b).toNat := by
  obtain ⟨hi, rfl⟩ := List.getElem?_eq_some_iff.mp h
  have hcounted := List.boole_getElem_le_countP (p := p) hi
  rw [List.countP_set hi]
  cases ha : p l[i] with
  | false => cases p b <;> simp
  | true =>
      rw [ha, if_pos rfl] at hcounted
      cases p b <;> simp only [if_true, Bool.false_eq_true, if_false, Bool.toNat_true, Bool.toNat_false] <;>
        omega

/-- A replaced entry that counted, if its replacement does, leaves no count larger. -/
theorem countP_set_le (h : l[i]? = some a) (hab : p b = true → p a = true) :
    (l.set i b).countP p ≤ l.countP p := by
  have hset := countP_set (p := p) (b := b) h
  cases hb : p b with
  | false =>
      rw [hb] at hset
      exact Nat.le_trans (Nat.le_add_right _ _) (Nat.le_of_eq hset)
  | true =>
      rw [hb, hab hb] at hset
      exact Nat.le_of_eq (Nat.add_right_cancel hset)

/-- Erasing an entry takes away what it contributes. -/
theorem countP_eraseIdx (h : l[i]? = some a) : (l.eraseIdx i).countP p + (p a).toNat = l.countP p := by
  obtain ⟨hi, rfl⟩ := List.getElem?_eq_some_iff.mp h
  have hsplit : l = l.take i ++ l[i] :: l.drop (i + 1) := by
    rw [List.getElem_cons_drop, List.take_append_drop]
  have hcount := congrArg (List.countP p) hsplit
  rw [List.countP_append, List.countP_cons] at hcount
  rw [List.eraseIdx_eq_take_drop_succ, List.countP_append, hcount]
  cases p l[i] <;> simp [Nat.add_assoc]

theorem countP_le_add (h : ∀ x ∈ l, p x = true → q x = true ∨ r x = true) :
    l.countP p ≤ l.countP q + l.countP r := by
  induction l with
  | nil => exact Nat.le_refl 0
  | cons x l ih =>
      have hrest := ih fun y hy => h y (List.mem_cons_of_mem x hy)
      have hx := h x List.mem_cons_self
      simp only [List.countP_cons]
      cases hp : p x with
      | false =>
          simp only [Bool.false_eq_true, if_false]
          omega
      | true =>
          rcases hx hp with hq | hr
          · simp only [hq, if_true]
            omega
          · simp only [hr, if_true]
            omega

end Gavel.Slots
