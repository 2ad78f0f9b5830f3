import Mathlib.Algebra.Order.Ring.Nat
import Mathlib.Data.List.Induction
import Mathlib.Data.List.Sort

/-!
# Sorted association lists

A map from numbers as the list of its entries, in ascending order of the keys.
-/

namespace Gavel.Assoc

variable {β : Type}

/-- Change the entry under a key, or make one. -/
def alter (k : Nat) (f : Option β → β) : List (Nat × β) → List (Nat × β)
  | [] => [(k, f none)]
  | (j, b) :: rest =>
      if k < j then (k, f none) :: (j, b) :: rest
      else if k = j then (j, f (some b)) :: rest
      else (j, b) :: alter k f rest

/-- The entry under a key. -/
def find (k : Nat) (m : List (Nat × β)) : Option β := (m.find? (·.1 = k)).map Prod.snd

variable {k j : Nat} {f : Option β → β} {m : List (Nat × β)} {e : Nat × β}

/-- The keys ascend. -/
def Sorted (m : List (Nat × β)) : Prop := m.Pairwise fun a b => a.1 < b.1

/-- Changing an entry makes its key one of the keys and leaves the others. -/
theorem mem_keys_alter : j ∈ (alter k f m).map Prod.fst ↔ j = k ∨ j ∈ m.map Prod.fst := by
  induction m with
  | nil => simp [alter]
  | cons e m ih =>
      obtain ⟨i, b⟩ := e
      simp only [alter]
      split
      · simp
      · split
        · rename_i heq
          simp [heq]
        · simp only [List.map_cons, List.mem_cons, ih]
          exact or_left_comm

theorem length_alter_le (k : Nat) (f : Option β → β) (m : List (Nat × β)) :
    (alter k f m).length ≤ m.length + 1 := by
  induction m with
  | nil => simp [alter]
  | cons e m ih =>
      simp only [alter]
      split
      · simp
      · split
        · simp
        · simpa using ih

theorem Sorted.alter (h : Sorted m) : Sorted (alter k f m) := by
  induction m with
  | nil => exact List.pairwise_singleton _ _
  | cons e m ih =>
      obtain ⟨i, b⟩ := e
      obtain ⟨hlt, hm⟩ := List.pairwise_cons.mp h
      simp only [Assoc.alter]
      split
      · rename_i hki
        refine List.pairwise_cons.mpr ⟨?_, h⟩
        intro a ha
        rcases List.mem_cons.mp ha with rfl | ha
        · exact hki
        · exact Nat.lt_trans hki (hlt a ha)
      · split
        · exact List.pairwise_cons.mpr ⟨hlt, hm⟩
        · rename_i hki hne
          refine List.pairwise_cons.mpr ⟨?_, ih hm⟩
          intro a ha
          have hkey : a.1 = k ∨ a.1 ∈ m.map Prod.fst :=
            mem_keys_alter.mp (List.mem_map_of_mem ha)
          rcases hkey with hak | hmem
          · simp only
            omega
          · obtain ⟨c, hc, hca⟩ := List.mem_map.mp hmem
            exact hca ▸ hlt c hc

/-- What holds of every value, and of the one put in, holds after a change. -/
theorem forall_alter {P : β → Prop} (hnew : P (f none)) (hheld : ∀ b, P b → P (f (some b)))
    (h : ∀ e ∈ m, P e.2) : ∀ e ∈ alter k f m, P e.2 := by
  induction m with
  | nil => simpa [alter] using hnew
  | cons c m ih =>
      obtain ⟨i, b⟩ := c
      obtain ⟨hb, hm⟩ := List.forall_mem_cons.mp h
      simp only [alter]
      split
      · exact List.forall_mem_cons.mpr ⟨hnew, h⟩
      · split
        · exact List.forall_mem_cons.mpr ⟨hheld b hb, hm⟩
        · exact List.forall_mem_cons.mpr ⟨hb, ih hm⟩

/-- Lists of the same numbers have the same least one. -/
theorem min?_congr {l l' : List Nat} (h : ∀ i, i ∈ l ↔ i ∈ l') : l.min? = l'.min? := by
  ext i
  simp only [List.min?_eq_some_iff, h]

/-- Lists of the same numbers have the same greatest one. -/
theorem max?_congr {l l' : List Nat} (h : ∀ i, i ∈ l ↔ i ∈ l') : l.max? = l'.max? := by
  ext i
  simp only [List.max?_eq_some_iff, h]

/-- The least of several lists is the least of their least ones. -/
theorem min?_flatMap {α : Type} {l : List α} {f : α → List Nat} {least : α → Nat}
    (h : ∀ a ∈ l, (f a).min? = some (least a)) : (l.flatMap f).min? = (l.map least).min? := by
  have hleast := fun a ha => List.min?_eq_some_iff.mp (h a ha)
  ext i
  simp only [List.min?_eq_some_iff, List.mem_flatMap, List.mem_map]
  constructor
  · rintro ⟨⟨a, ha, hi⟩, hle⟩
    have heq : least a = i :=
      Nat.le_antisymm ((hleast a ha).2 i hi) (hle _ ⟨a, ha, (hleast a ha).1⟩)
    refine ⟨⟨a, ha, heq⟩, ?_⟩
    rintro _ ⟨b, hb, rfl⟩
    exact hle _ ⟨b, hb, (hleast b hb).1⟩
  · rintro ⟨⟨a, ha, rfl⟩, hle⟩
    refine ⟨⟨a, ha, (hleast a ha).1⟩, ?_⟩
    rintro j ⟨b, hb, hj⟩
    exact Nat.le_trans (hle _ ⟨b, hb, rfl⟩) ((hleast b hb).2 j hj)

/-- The first key of a sorted list is its least. -/
theorem Sorted.head_min (h : Sorted m) : m.head?.map Prod.fst = (m.map Prod.fst).min? := by
  cases m with
  | nil => rfl
  | cons e m =>
      have hle := (List.pairwise_cons.mp h).1
      refine (List.min?_eq_some_iff.mpr ⟨by simp, ?_⟩).symm
      intro i hi
      rcases List.mem_cons.mp hi with rfl | hi
      · exact Nat.le_refl _
      · obtain ⟨c, hc, rfl⟩ := List.mem_map.mp hi
        exact Nat.le_of_lt (hle c hc)

/-- The last key of a sorted list is its greatest. -/
theorem Sorted.last_max (h : Sorted m) : m.getLast?.map Prod.fst = (m.map Prod.fst).max? := by
  induction m using List.reverseRecOn with
  | nil => rfl
  | append_singleton m e _ =>
      have hlt := (List.pairwise_append.mp h).2.2
      rw [List.getLast?_append, List.getLast?_singleton, Option.some_or, Option.map_some]
      refine (List.max?_eq_some_iff.mpr ⟨by simp, ?_⟩).symm
      intro i hi
      rcases List.mem_append.mp (List.map_append ▸ hi) with hi | hi
      · obtain ⟨c, hc, rfl⟩ := List.mem_map.mp hi
        exact Nat.le_of_lt (hlt c hc e (List.mem_singleton_self e))
      · exact Nat.le_of_eq (by simpa using hi)

end Gavel.Assoc
