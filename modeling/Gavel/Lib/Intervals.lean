import Mathlib.Algebra.BigOperators.Group.List.Basic
import Mathlib.Algebra.Order.Ring.Nat
import Mathlib.Data.List.Basic

/-!
# Intervals that end where the next begins

A strictly increasing list of instants cuts what comes after the first of them into half-open intervals,
the last one without an end: every instant lies in exactly one.
-/

namespace Gavel.Intervals

variable {l : List Nat} {i j x : Nat}

/-- An instant lies in the interval that begins at a position. -/
def Holds (l : List Nat) (x i : Nat) : Prop :=
  (∃ s, l[i]? = some s ∧ s ≤ x) ∧ ∀ u, l[i + 1]? = some u → x < u

theorem get_lt_get (h : l.Pairwise (· < ·)) {a b : Nat} (ha : l[i]? = some a) (hb : l[j]? = some b)
    (hij : i < j) : a < b := by
  obtain ⟨hi, rfl⟩ := List.getElem?_eq_some_iff.mp ha
  obtain ⟨hj, rfl⟩ := List.getElem?_eq_some_iff.mp hb
  exact List.pairwise_iff_getElem.mp h i j hi hj hij

/-- The last start that is not later begins the interval of an instant. -/
theorem exists_holds (h : l.Pairwise (· < ·)) (hx : ∃ s ∈ l, s ≤ x) : ∃ i, Holds l x i := by
  induction l with
  | nil =>
      obtain ⟨s, hs, -⟩ := hx
      cases hs
  | cons a l ih =>
      obtain ⟨hlt, hl⟩ := List.pairwise_cons.mp h
      by_cases hlater : ∃ s ∈ l, s ≤ x
      · obtain ⟨i, hi⟩ := ih hl hlater
        exact ⟨i + 1, by simpa only [Holds, List.getElem?_cons_succ] using hi⟩
      · refine ⟨0, ⟨a, rfl, ?_⟩, fun u hu => ?_⟩
        · obtain ⟨s, hs, hle⟩ := hx
          rcases List.mem_cons.mp hs with rfl | hs
          · exact hle
          · exact absurd ⟨s, hs, hle⟩ hlater
        · exact Nat.not_le.mp fun hle => hlater ⟨u, List.mem_of_getElem? hu, hle⟩

theorem holds_unique (h : l.Pairwise (· < ·)) (hi : Holds l x i) (hj : Holds l x j) : i = j := by
  have hle {i j : Nat} (hi : Holds l x i) (hj : Holds l x j) : j ≤ i := by
    by_contra hlt
    obtain ⟨s, hs, hsx⟩ := hj.1
    have hj' := (List.getElem?_eq_some_iff.mp hs).1
    have hnext : l[i + 1]? = some l[i + 1] := List.getElem?_eq_getElem (by omega)
    have hux := hi.2 _ hnext
    rcases Nat.lt_or_ge (i + 1) j with hij | hij
    · have hus := get_lt_get h hnext hs hij
      omega
    · obtain rfl : j = i + 1 := by omega
      have heq := Option.some.inj (hnext.symm.trans hs)
      omega
  exact Nat.le_antisymm (hle hj hi) (hle hi hj)

/-! ## The intervals as a list -/

/-- Every start with the one after it. -/
def cut : List Nat → List (Nat × Option Nat)
  | [] => []
  | a :: l => (a, l.head?) :: cut l

/-- An instant lies in an interval that may be without end. -/
def Lies (w : Nat × Option Nat) (x : Nat) : Prop := w.1 ≤ x ∧ w.2.all (x < ·) = true

instance Lies.decidable (w : Nat × Option Nat) (x : Nat) : Decidable (Lies w x) :=
  inferInstanceAs (Decidable (_ ∧ _))

theorem cut_eq_mapIdx {α : Type} (key : α → Nat) (l : List α) :
    (l.mapIdx fun i a => (key a, (l[i + 1]?).map key)) = cut (l.map key) := by
  induction l with
  | nil => rfl
  | cons a l ih =>
      rw [List.mapIdx_cons, List.map_cons, cut, ← ih, List.head?_map, List.head?_eq_getElem?]
      rfl

/-- Of starts in order, which may be equal, exactly one begins the interval of an instant that is not
before all of them. -/
theorem countP_cut (h : l.Pairwise (· ≤ ·)) (x : Nat) :
    (cut l).countP (fun w => Lies w x) = if ∃ s ∈ l, s ≤ x then 1 else 0 := by
  induction l with
  | nil => rfl
  | cons a l ih =>
      obtain ⟨ha, hl⟩ := List.pairwise_cons.mp h
      rw [cut, List.countP_cons, ih hl]
      by_cases hlater : ∃ s ∈ l, s ≤ x
      · obtain ⟨s, hs, hsx⟩ := hlater
        have hnext : ¬ Lies (a, l.head?) x := by
          cases l with
          | nil => cases hs
          | cons b rest =>
              have hbs : b ≤ s := by
                rcases List.mem_cons.mp hs with rfl | hs
                · exact Nat.le_refl _
                · exact (List.pairwise_cons.mp hl).1 s hs
              exact fun hlies => Nat.not_lt.mpr (Nat.le_trans hbs hsx) (of_decide_eq_true hlies.2)
        have hl' : ∃ s ∈ l, s ≤ x := ⟨s, hs, hsx⟩
        have hal : ∃ s ∈ a :: l, s ≤ x := ⟨s, List.mem_cons_of_mem _ hs, hsx⟩
        rw [if_pos hl', if_pos hal, decide_eq_false hnext]
        rfl
      · have hlies : Lies (a, l.head?) x ↔ a ≤ x := by
          refine and_iff_left ?_
          cases l with
          | nil => rfl
          | cons b rest =>
              exact decide_eq_true (Nat.not_le.mp fun hle => hlater ⟨b, List.mem_cons_self, hle⟩)
        by_cases hax : a ≤ x
        · have hal : ∃ s ∈ a :: l, s ≤ x := ⟨a, List.mem_cons_self, hax⟩
          rw [if_neg hlater, if_pos hal, decide_eq_true (hlies.mpr hax)]
          rfl
        · have hnone : ¬ ∃ s ∈ a :: l, s ≤ x := by
            rintro ⟨s, hs, hsx⟩
            rcases List.mem_cons.mp hs with rfl | hs
            · exact hax hsx
            · exact hlater ⟨s, hs, hsx⟩
          rw [if_neg hlater, if_neg hnone, decide_eq_false (mt hlies.mp hax)]
          rfl

theorem sum_map_ite {β : Type} (p : β → Bool) (ws : List β) :
    (ws.map fun w => if p w then 1 else 0).sum = ws.countP p := by
  induction ws with
  | nil => rfl
  | cons w ws ih => rw [List.map_cons, List.sum_cons, ih, List.countP_cons, Nat.add_comm]

/-- What is counted interval by interval is counted once where exactly one interval counts it. -/
theorem sum_countP {α β : Type} {ws : List β} {l : List α} {p : β → α → Bool} {q : α → Bool}
    (h : ∀ a ∈ l, ws.countP (p · a) = if q a then 1 else 0) :
    (ws.map fun w => l.countP (p w)).sum = l.countP q := by
  induction l with
  | nil => simp
  | cons a l ih =>
      obtain ⟨ha, hl⟩ := List.forall_mem_cons.mp h
      simp only [List.countP_cons, List.sum_map_add]
      rw [ih hl, sum_map_ite, ha]

end Gavel.Intervals
