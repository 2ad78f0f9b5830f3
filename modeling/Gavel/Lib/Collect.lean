import Gavel.Lib.Assoc
import Gavel.Lib.Groups
import Mathlib.Algebra.BigOperators.Group.List.Basic
import Mathlib.Data.Finset.Card
import Mathlib.Order.Bounds.Basic

/-!
# Collecting under keys

A pass over a list that changes, for each element, the entry under its key. What stands under a key
afterwards is what the elements of that key come to, in their order, and the elements of other keys
have no say in it.
-/

namespace Gavel.Assoc

variable {α β γ : Type} {k j : Nat} {f : Option β → β} {m m' : List (Nat × β)} {b : β}

/-! ## Entries by key -/

theorem find_none (h : ∀ e ∈ m, e.1 ≠ k) : find k m = none := by
  simpa [find] using h

theorem mem_of_find (h : find k m = some b) : (k, b) ∈ m := by
  simp only [find, Option.map_eq_some_iff] at h
  obtain ⟨⟨i, c⟩, hc, rfl⟩ := h
  have hi : i = k := by simpa using List.find?_some hc
  exact hi ▸ List.mem_of_find?_eq_some hc

/-- A sorted list holds an entry exactly when it is found under its key. -/
theorem Sorted.mem_iff (h : Sorted m) : (k, b) ∈ m ↔ find k m = some b := by
  refine ⟨fun hmem => ?_, mem_of_find⟩
  induction m with
  | nil => cases hmem
  | cons e m ih =>
      obtain ⟨hlt, hm⟩ := List.pairwise_cons.mp h
      rcases List.mem_cons.mp hmem with rfl | hmem
      · simp [find]
      · have hne : e.1 ≠ k := Nat.ne_of_lt (hlt _ hmem)
        simpa [find, List.find?_cons, hne] using ih hm hmem

/-- Sorted lists with the same entry under every key are the same. -/
theorem Sorted.ext (h : Sorted m) (h' : Sorted m') (heq : ∀ k, find k m = find k m') : m = m' := by
  have hnodup : ∀ {m : List (Nat × β)}, Sorted m → m.Nodup :=
    fun hm => hm.imp fun hab heq => Nat.ne_of_lt hab (congrArg Prod.fst heq)
  have hperm : m.Perm m' := by
    refine (List.perm_ext_iff_of_nodup (hnodup h) (hnodup h')).mpr ?_
    rintro ⟨k, b⟩
    rw [h.mem_iff, h'.mem_iff, heq k]
  refine hperm.eq_of_pairwise ?_ h h'
  intro a b _ _ hab hba
  exact absurd hab (Nat.lt_asymm hba)

/-- The changed entry is found under its key, and every other one where it was. -/
theorem find_alter (h : Sorted m) :
    find j (alter k f m) = if j = k then some (f (find k m)) else find j m := by
  induction m with
  | nil =>
      by_cases hjk : j = k
      · simp [find, alter, hjk]
      · simp [find, alter, hjk, Ne.symm hjk]
  | cons e m ih =>
      obtain ⟨i, b⟩ := e
      obtain ⟨hlt, hm⟩ := List.pairwise_cons.mp h
      have ih := ih hm
      simp only [alter]
      split
      · rename_i hki
        have hnone : find k ((i, b) :: m) = none := by
          refine find_none fun e he => ?_
          rcases List.mem_cons.mp he with rfl | he
          · exact Nat.ne_of_gt hki
          · exact Nat.ne_of_gt (Nat.lt_trans hki (hlt e he))
        rw [hnone]
        by_cases hjk : j = k
        · simp [find, hjk]
        · simp [find, List.find?_cons, hjk, Ne.symm hjk]
      · split
        · rename_i hki
          subst hki
          by_cases hjk : j = k
          · simp [find, hjk]
          · simp [find, hjk, Ne.symm hjk]
        · rename_i hki
          by_cases hji : i = j
          · subst hji
            simp [find, Ne.symm hki]
          · by_cases hjk : j = k
            · simp only [hjk, if_true] at ih ⊢
              simpa [find, List.find?_cons, Ne.symm hki] using ih
            · simp only [hjk, if_false] at ih ⊢
              simpa [find, List.find?_cons, hji] using ih

/-! ## One pass -/

/-- Change, for every element in turn, the entry under its key. -/
def collect (key : α → Nat) (f : α → Option β → β) (l : List α) : List (Nat × β) :=
  l.foldl (fun m a => alter (key a) (f a) m) []

/-- What the elements of one key come to. -/
def combine (f : α → Option β → β) (l : List α) : Option β := l.foldl (fun held a => some (f a held)) none

variable {key : α → Nat} {step : α → Option β → β} {l l' : List α} {a : α}

theorem collect_concat (l : List α) (a : α) :
    collect key step (l ++ [a]) = alter (key a) (step a) (collect key step l) := by
  simp [collect]

theorem combine_concat (l : List α) (a : α) :
    combine step (l ++ [a]) = some (step a (combine step l)) := by
  simp [combine]

theorem sorted_collect (l : List α) : Sorted (collect key step l) := by
  induction l using List.reverseRecOn with
  | nil => exact List.Pairwise.nil
  | append_singleton l a ih =>
      rw [collect_concat]
      exact ih.alter

/-- Under a key stands what its own elements come to. -/
theorem find_collect (k : Nat) (l : List α) :
    find k (collect key step l) = combine step (l.filter (key · = k)) := by
  induction l using List.reverseRecOn with
  | nil => rfl
  | append_singleton l a ih =>
      rw [collect_concat, find_alter (sorted_collect l), List.filter_append]
      by_cases hk : k = key a
      · subst hk
        simp [combine_concat, ih]
      · simp [hk, Ne.symm hk, ih]

theorem mem_collect : (k, b) ∈ collect key step l ↔ combine step (l.filter (key · = k)) = some b := by
  rw [(sorted_collect l).mem_iff, find_collect]

/-- Passes that come to the same under every key leave the same entries. -/
theorem collect_congr {step' : α → Option β → β}
    (h : ∀ k, combine step (l.filter (key · = k)) = combine step' (l'.filter (key · = k))) :
    collect key step l = collect key step' l' := by
  refine (sorted_collect l).ext (sorted_collect l') fun k => ?_
  rw [find_collect, find_collect, h k]

/-- The keys of the entries are those of the elements. -/
theorem mem_keys_collect : k ∈ (collect key step l).map Prod.fst ↔ ∃ a ∈ l, key a = k := by
  induction l using List.reverseRecOn with
  | nil => simp [collect]
  | append_singleton l a ih =>
      rw [collect_concat, mem_keys_alter, ih]
      simp only [List.mem_append, List.mem_singleton, or_and_right, exists_or, exists_eq_left]
      exact or_comm.trans (or_congr_right eq_comm)

/-- What every step brings about, from nothing or from an entry it already holds of, holds of all entries. -/
theorem forall_collect {P : β → Prop} (h : ∀ a ∈ l, ∀ held, (∀ b ∈ held, P b) → P (step a held)) :
    ∀ e ∈ collect key step l, P e.2 := by
  induction l using List.reverseRecOn with
  | nil => simp [collect]
  | append_singleton l a ih =>
      rw [collect_concat]
      have ha := h a (by simp)
      apply forall_alter
      · exact ha none (by simp)
      · intro b hb
        exact ha (some b) (by simpa using hb)
      · exact ih fun b hb => h b (List.mem_append_left _ hb)

theorem collect_ne_nil (h : l ≠ []) : collect key step l ≠ [] := by
  obtain ⟨a, ha⟩ := List.exists_mem_of_ne_nil l h
  intro hnil
  have hmem : key a ∈ (collect key step l).map Prod.fst := mem_keys_collect.mpr ⟨a, ha, rfl⟩
  rw [hnil] at hmem
  cases hmem

theorem length_collect_le (l : List α) : (collect key step l).length ≤ l.length := by
  induction l using List.reverseRecOn with
  | nil => exact Nat.le_refl _
  | append_singleton l a ih =>
      rw [collect_concat, List.length_append]
      exact (length_alter_le _ _ _).trans (Nat.add_le_add_right ih 1)

/-- There are as many entries as keys. -/
theorem length_collect (l : List α) : (collect key step l).length = (l.map key).toFinset.card := by
  have hkeys : ((collect key step l).map Prod.fst).toFinset = (l.map key).toFinset := by
    ext k
    rw [List.mem_toFinset, List.mem_toFinset, mem_keys_collect, List.mem_map]
  have hnodup : ((collect key step l).map Prod.fst).Nodup :=
    List.pairwise_map.mpr ((sorted_collect l).imp Nat.ne_of_lt)
  rw [← hkeys, List.toFinset_card_of_nodup hnodup, List.length_map]

/-- The first entry is of the least key. -/
theorem head_collect {e : Nat × β} (h : (collect key step l).head? = some e) :
    IsLeast {k | ∃ a ∈ l, key a = k} e.1 ∧ combine step (l.filter (key · = e.1)) = some e.2 := by
  have hmin := Sorted.head_min (m := collect key step l) (sorted_collect l)
  rw [h, Option.map_some] at hmin
  obtain ⟨hmem, hle⟩ := List.min?_eq_some_iff.mp hmin.symm
  refine ⟨⟨mem_keys_collect.mp hmem, fun k hk => hle k (mem_keys_collect.mpr hk)⟩, ?_⟩
  exact mem_collect.mp (List.mem_of_mem_head? h)

/-- The last entry is of the greatest key. -/
theorem last_collect {e : Nat × β} (h : (collect key step l).getLast? = some e) :
    IsGreatest {k | ∃ a ∈ l, key a = k} e.1 ∧ combine step (l.filter (key · = e.1)) = some e.2 := by
  have hmax := Sorted.last_max (m := collect key step l) (sorted_collect l)
  rw [h, Option.map_some] at hmax
  obtain ⟨hmem, hle⟩ := List.max?_eq_some_iff.mp hmax.symm
  refine ⟨⟨mem_keys_collect.mp hmem, fun k hk => hle k (mem_keys_collect.mpr hk)⟩, ?_⟩
  exact mem_collect.mp (List.mem_of_getLast? h)

theorem min?_concat (l : List Nat) (n : Nat) : (l ++ [n]).min? = some (min (l.min?.getD n) n) := by
  cases l with
  | nil => simp
  | cons i l => simp only [List.cons_append, List.min?_cons', List.foldl_append, List.foldl_cons,
      List.foldl_nil, Option.getD_some]

theorem max?_concat (l : List Nat) (n : Nat) : (l ++ [n]).max? = some (max (l.max?.getD n) n) := by
  cases l with
  | nil => simp
  | cons i l => simp only [List.cons_append, List.max?_cons', List.foldl_append, List.foldl_cons,
      List.foldl_nil, Option.getD_some]

/-- The least of the numbers of a key. -/
theorem combine_min (v : α → Nat) (l : List α) :
    combine (fun a held => min (held.getD (v a)) (v a)) l = (l.map v).min? := by
  induction l using List.reverseRecOn with
  | nil => rfl
  | append_singleton l a ih =>
      rw [combine_concat, ih, List.map_append, List.map_singleton, min?_concat]

/-- The last of a key. -/
theorem combine_last (v : α → β) (l : List α) :
    combine (fun a _ => v a) l = l.getLast?.map v := by
  induction l using List.reverseRecOn with
  | nil => rfl
  | append_singleton l a _ =>
      rw [combine_concat, List.getLast?_append, List.getLast?_singleton, Option.some_or, Option.map_some]

/-- The elements of a key, in their order. -/
theorem combine_append (l : List α) :
    combine (fun a held => held.getD [] ++ [a]) l = if l = [] then none else some l := by
  induction l using List.reverseRecOn with
  | nil => rfl
  | append_singleton l a ih =>
      rw [combine_concat, ih]
      by_cases hl : l = [] <;> simp [hl]

/-! ## Groups -/

/-- Listing the elements under their keys groups them. -/
theorem collect_append (key : α → Nat) (l : List α) :
    collect key (fun a held => held.getD [] ++ [a]) l = Groups.grouped (· ≤ ·) key l := by
  have hsorted : Sorted (Groups.grouped (· ≤ ·) key l) := by
    refine List.pairwise_map.mpr ?_
    refine List.Pairwise.imp₂ (fun _ _ hle hne => Nat.lt_of_le_of_ne hle hne) ?_ Groups.keys_nodup
    exact List.pairwise_insertionSort _ _
  refine (sorted_collect l).ext hsorted fun k => ?_
  rw [find_collect, combine_append]
  split
  · rename_i hnil
    symm
    refine find_none ?_
    rintro ⟨i, g⟩ he rfl
    obtain ⟨a, ha, hak⟩ := Groups.mem_keys.mp (Groups.mem_grouped.mp he).1
    exact List.filter_eq_nil_iff.mp hnil a ha (by simpa using hak)
  · rename_i hne
    obtain ⟨a, ha⟩ := List.exists_mem_of_ne_nil _ hne
    obtain ⟨hal, hak⟩ := List.mem_filter.mp ha
    symm
    refine hsorted.mem_iff.mp (Groups.mem_grouped.mpr ⟨?_, rfl⟩)
    exact Groups.mem_keys.mpr ⟨a, hal, by simpa using hak⟩

theorem map_alter {φ : β → γ} {g : Option γ → γ} (h : ∀ held, φ (f held) = g (held.map φ)) :
    (alter k f m).map (fun e => (e.1, φ e.2)) = alter k g (m.map fun e => (e.1, φ e.2)) := by
  induction m with
  | nil => simp [alter, h]
  | cons e m ih =>
      obtain ⟨i, b⟩ := e
      simp only [alter, List.map_cons]
      split
      · simp [h]
      · split
        · simp [h]
        · simp [ih]

/-- A pass seen through a function of its values is a pass. -/
theorem map_collect {φ : β → γ} {step' : α → Option γ → γ}
    (h : ∀ a held, φ (step a held) = step' a (held.map φ)) (l : List α) :
    (collect key step l).map (fun e => (e.1, φ e.2)) = collect key step' l := by
  induction l using List.reverseRecOn with
  | nil => rfl
  | append_singleton l a ih => rw [collect_concat, collect_concat, map_alter (h a), ih]

/-- Listing something of each element under its key. -/
theorem collect_append_map (key : α → Nat) (v : α → γ) (l : List α) :
    collect key (fun a held => held.getD [] ++ [v a]) l =
      (Groups.grouped (· ≤ ·) key l).map fun e => (e.1, e.2.map v) := by
  rw [← collect_append]
  symm
  apply map_collect
  intro a held
  cases held <;> simp

end Gavel.Assoc
