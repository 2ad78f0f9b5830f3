import Mathlib.Data.List.Basic
import Mathlib.Data.List.Forall2

/-!
# Slices

A list cut at rising places falls into consecutive slices, which make it up again. Picking one element of
each slice keeps the order of the list.
-/

namespace Gavel.Slices

variable {α : Type} {r : α → α → Prop} {l picked : List α} {slices : List (List α)} {cut : Nat → Nat}
  {a : α}

/-- What lies between two places of a list. -/
def slice (l : List α) (i j : Nat) : List α := (l.take j).drop i

/-- The slices between the first places that a list is cut at. -/
def cuts (l : List α) (cut : Nat → Nat) (n : Nat) : List (List α) :=
  (List.range n).map fun i => slice l (cut i) (cut (i + 1))

theorem flatten_cuts (hstart : cut 0 = 0) (hmono : ∀ i, cut i ≤ cut (i + 1)) (n : Nat) :
    (cuts l cut n).flatten = l.take (cut n) := by
  induction n with
  | zero => simp [cuts, hstart]
  | succ n ih =>
      have hsplit := List.take_append_drop (cut n) (l.take (cut (n + 1)))
      rw [List.take_take, Nat.min_eq_left (hmono n)] at hsplit
      rw [cuts, List.range_succ, List.map_append, List.flatten_append, ← cuts, ih, List.map_singleton,
        List.flatten_singleton, slice, hsplit]

theorem slice_ne_nil {i j : Nat} (hij : i < j) (hj : j ≤ l.length) : slice l i j ≠ [] := by
  rw [← List.length_pos_iff_ne_nil, slice, List.length_drop, List.length_take]
  omega

/-- One element of each slice, related to every element of it. -/
def Picks (r : α → α → Prop) (picked : List α) (slices : List (List α)) : Prop :=
  List.Forall₂ (fun a slice => a ∈ slice ∧ ∀ b ∈ slice, r a b) picked slices

theorem Picks.sublist (h : Picks r picked slices) : picked.Sublist slices.flatten := by
  induction h with
  | nil => exact .slnil
  | cons ha _ ih => exact (List.singleton_sublist.mpr ha.1).append ih

theorem Picks.exists_of_mem (h : Picks r picked slices) (ha : a ∈ slices.flatten) :
    ∃ b ∈ picked, r b a := by
  induction h with
  | nil => cases ha
  | cons hb _ ih =>
      rw [List.flatten_cons, List.mem_append] at ha
      rcases ha with ha | ha
      · exact ⟨_, List.mem_cons_self, hb.2 a ha⟩
      · obtain ⟨b, hb, hba⟩ := ih ha
        exact ⟨b, List.mem_cons_of_mem _ hb, hba⟩

/-- Picking from slices that all have something to pick. -/
theorem picks_filterMap {pick : List α → Option α} (hsome : ∀ slice, slice ≠ [] → (pick slice).isSome)
    (hpick : ∀ slice a, pick slice = some a → a ∈ slice ∧ ∀ b ∈ slice, r a b)
    (h : ∀ slice ∈ slices, slice ≠ []) : Picks r (slices.filterMap pick) slices := by
  induction slices with
  | nil => exact .nil
  | cons slice slices ih =>
      obtain ⟨hne, hrest⟩ := List.forall_mem_cons.mp h
      obtain ⟨a, ha⟩ := Option.isSome_iff_exists.mp (hsome slice hne)
      rw [List.filterMap_cons_some ha]
      exact .cons (hpick slice a ha) (ih hrest)

end Gavel.Slices
