import Gavel.Lib.Collect
import Gavel.Lib.Extremes
import Gavel.Lib.Sorting
import Gavel.Market.Lemmas.Summaries

/-!
# Picking by a number

The first of the least, the last of the greatest and the stable sort. None of the three depends on the
order of the elements once the number tells any two of them apart.
-/

namespace Gavel.Market

open Gavel.Extremes (foldl_better_mem)

variable {α : Type} {key : α → Nat} {l l' : List α} {a b : α}

/-! ## Extremes -/

theorem minBy_concat (l : List α) (a : α) :
    minBy key (l ++ [a]) =
      some ((minBy key l).elim a fun best => if key a < key best then a else best) := by
  cases l <;> simp [minBy]

theorem maxBy_concat (l : List α) (a : α) :
    maxBy key (l ++ [a]) =
      some ((maxBy key l).elim a fun best => if key best ≤ key a then a else best) := by
  cases l <;> simp [maxBy]

theorem minBy_cons (a : α) (l : List α) :
    minBy key (a :: l) = some ((minBy key l).elim a fun best => if key a ≤ key best then a else best) := by
  induction l using List.reverseRecOn with
  | nil => rfl
  | append_singleton l b ih =>
      rw [← List.cons_append, minBy_concat, minBy_concat, ih]
      cases minBy key l with
      | none =>
          simp only [Option.elim_some, Option.elim_none, Option.some.injEq]
          split <;> split <;> first | rfl | omega
      | some best =>
          simp only [Option.elim_some, Option.some.injEq]
          by_cases hab : key a ≤ key best <;> by_cases hb : key b < key best <;>
            simp only [hab, hb, if_true, if_false]
          · split <;> split <;> first | rfl | omega
          · exact if_neg (by omega)
          · exact (if_neg (by omega)).symm

theorem minBy_mem (h : minBy key l = some a) : a ∈ l := by
  cases l with
  | nil => cases h
  | cons b l =>
      obtain rfl := Option.some.inj h
      exact foldl_better_mem (fun b best => key b < key best) l b

theorem maxBy_mem (h : maxBy key l = some a) : a ∈ l := by
  cases l with
  | nil => cases h
  | cons b l =>
      obtain rfl := Option.some.inj h
      exact foldl_better_mem (fun b best => key best ≤ key b) l b

/-- The number of the first of the least is the least. -/
theorem map_minBy (l : List α) : (minBy key l).map key = (l.map key).min? := by
  induction l using List.reverseRecOn with
  | nil => rfl
  | append_singleton l a ih =>
      rw [minBy_concat, List.map_append, List.map_singleton, Assoc.min?_concat, ← ih]
      cases minBy key l with
      | none => simp
      | some best =>
          simp only [Option.elim_some, Option.map_some, Option.getD_some, Option.some.injEq]
          split <;> omega

/-- The number of the last of the greatest is the greatest. -/
theorem map_maxBy (l : List α) : (maxBy key l).map key = (l.map key).max? := by
  induction l using List.reverseRecOn with
  | nil => rfl
  | append_singleton l a ih =>
      rw [maxBy_concat, List.map_append, List.map_singleton, Assoc.max?_concat, ← ih]
      cases maxBy key l with
      | none => simp
      | some best =>
          simp only [Option.elim_some, Option.map_some, Option.getD_some, Option.some.injEq]
          split <;> omega

theorem minBy_le (h : minBy key l = some a) (hb : b ∈ l) : key a ≤ key b := by
  have hmin := @map_minBy _ key l
  rw [h, Option.map_some] at hmin
  exact (List.min?_eq_some_iff.mp hmin.symm).2 _ (List.mem_map_of_mem hb)

/-- The least of two lists together is of the first one if this has one as small. -/
theorem minBy_append (h : minBy key (l ++ l') = some a) (hb : b ∈ l) (hle : key b ≤ key a) : a ∈ l := by
  induction l' using List.reverseRecOn generalizing a with
  | nil => exact minBy_mem (by simpa using h)
  | append_singleton l' c ih =>
      rw [← List.append_assoc, minBy_concat, Option.some.injEq] at h
      cases hl : minBy key (l ++ l') with
      | none =>
          have hmin := @map_minBy _ key (l ++ l')
          rw [hl] at hmin
          have hnil := List.map_eq_nil_iff.mp (List.min?_eq_none_iff.mp hmin.symm)
          exact absurd hnil (List.ne_nil_of_mem (List.mem_append_left l' hb))
      | some best =>
          have hbest := minBy_le hl (List.mem_append_left l' hb)
          rw [hl, Option.elim_some] at h
          split at h
          · subst h
            omega
          · subst h
            exact ih hl hle

/-! ## Elements in another order -/

/-- Elements with the same number are the same. -/
def Distinct (key : α → Nat) (l : List α) : Prop := ∀ a ∈ l, ∀ b ∈ l, key a = key b → a = b

theorem Distinct.of_nodup (h : (l.map key).Nodup) : Distinct key l :=
  fun _ ha _ hb => List.inj_on_of_nodup_map h ha hb

theorem Distinct.filter (h : Distinct key l) (p : α → Bool) : Distinct key (l.filter p) :=
  fun a ha b hb => h a (List.mem_of_mem_filter ha) b (List.mem_of_mem_filter hb)

theorem Distinct.map {β : Type} {key' : β → Nat} {f : α → β} (hf : ∀ a, key' (f a) = key a)
    (h : Distinct key l) : Distinct key' (l.map f) := by
  intro x hx y hy hxy
  obtain ⟨a, ha, rfl⟩ := List.mem_map.mp hx
  obtain ⟨b, hb, rfl⟩ := List.mem_map.mp hy
  rw [h a ha b hb (by rwa [hf, hf] at hxy)]

theorem distinct_id (l : List Nat) : Distinct id l := fun _ _ _ _ h => h

theorem pairwise_sortBy_key (key : α → Nat) (l : List α) :
    (sortBy key l).Pairwise fun a b => key a ≤ key b := by
  have : Std.Total (fun a b : α => key a ≤ key b) := ⟨fun a b => Nat.le_total (key a) (key b)⟩
  have : IsTrans α (fun a b : α => key a ≤ key b) := ⟨fun _ _ _ hab hbc => Nat.le_trans hab hbc⟩
  exact List.pairwise_insertionSort _ l

theorem head_sortBy_key (l : List α) : (sortBy key l).head? = minBy key l := by
  induction l with
  | nil => rfl
  | cons a l ih =>
      rw [minBy_cons, ← ih]
      change ((sortBy key l).orderedInsert _ a).head? = _
      cases sortBy key l with
      | nil => rfl
      | cons b rest =>
          rw [List.orderedInsert_cons]
          simp only [List.head?_cons, Option.elim_some]
          split <;> rfl

theorem filter_sortBy {p : α → Bool} (l : List α) : (sortBy key l).filter p = sortBy key (l.filter p) := by
  have : Std.Total (fun a b : α => key a ≤ key b) := ⟨fun a b => Nat.le_total (key a) (key b)⟩
  have : IsTrans α (fun a b : α => key a ≤ key b) := ⟨fun _ _ _ hab hbc => Nat.le_trans hab hbc⟩
  exact Sorting.filter_insertionSort l

theorem sortBy_perm (h : Distinct key l) (hp : l.Perm l') : sortBy key l = sortBy key l' := by
  have hsorted : (sortBy key l).Perm (sortBy key l') :=
    (List.perm_insertionSort _ l).trans (hp.trans (List.perm_insertionSort _ l').symm)
  refine hsorted.eq_of_pairwise ?_ (pairwise_sortBy_key key l) (pairwise_sortBy_key key l')
  intro a b ha hb hab hba
  exact h a (mem_sortBy.mp ha) b (hp.mem_iff.mpr (mem_sortBy.mp hb)) (Nat.le_antisymm hab hba)

theorem maxBy_perm (h : Distinct key l) (hp : l.Perm l') : maxBy key l = maxBy key l' := by
  have hmax : (maxBy key l).map key = (maxBy key l').map key := by
    rw [map_maxBy, map_maxBy]
    exact Assoc.max?_congr fun i => (hp.map key).mem_iff
  cases ha : maxBy key l with
  | none =>
      rw [ha, Option.map_none] at hmax
      exact (Option.map_eq_none_iff.mp hmax.symm).symm
  | some a =>
      rw [ha, Option.map_some] at hmax
      obtain ⟨b, hb, hba⟩ := Option.map_eq_some_iff.mp hmax.symm
      rw [hb, h a (maxBy_mem ha) b (hp.mem_iff.mpr (maxBy_mem hb)) hba.symm]

end Gavel.Market
