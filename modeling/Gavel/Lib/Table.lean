import Std.Data.TreeMap
import Mathlib.Data.List.Perm.Subperm

/-!
# Ordered tables

A table is an ordered map with natural numbers as keys. This module fixes one spelling for looking a
row up after an update and adds what the ordered map of the standard library has no lemmas for: the
rows in key order, and the number of rows with a property.
-/

namespace Gavel

abbrev Table (α : Type) := Std.TreeMap Nat α

namespace Table

variable {α β : Type} {m : Table α} {k a : Nat} {v old : α} {p q : α → Bool}

/-! ## Looking up -/

@[simp] theorem get_empty : (∅ : Table α)[k]? = none := Std.TreeMap.getElem?_emptyc

theorem get_insert : (m.insert k v)[a]? = if k = a then some v else m[a]? := by
  simp [Std.TreeMap.getElem?_insert]

@[simp] theorem get_insert_self : (m.insert k v)[k]? = some v := by simp

theorem get_insert_ne (h : k ≠ a) : (m.insert k v)[a]? = m[a]? := by simp [get_insert, h]

theorem get_erase : (m.erase k)[a]? = if k = a then none else m[a]? := by
  simp [Std.TreeMap.getElem?_erase]

theorem get_modify {f : α → α} : (m.modify k f)[a]? = if k = a then m[k]?.map f else m[a]? := by
  simp [Std.TreeMap.getElem?_modify]

theorem get_filter {f : Nat → α → Bool} : (m.filter f)[a]? = m[a]?.filter (f a) :=
  Std.TreeMap.getElem?_filter'

theorem contains_eq_isSome : m.contains k = m[k]?.isSome :=
  Std.TreeMap.contains_eq_isSome_getElem?

/-! ## Rows in key order -/

def rows (m : Table α) : List α := m.toList.map Prod.snd

theorem mem_rows : v ∈ m.rows ↔ ∃ k : Nat, m[k]? = some v := by
  simp only [rows, List.mem_map]
  constructor
  · rintro ⟨⟨k, w⟩, hm, rfl⟩
    exact ⟨k, Std.TreeMap.mem_toList_iff_getElem?_eq_some.mp hm⟩
  · rintro ⟨k, hk⟩
    exact ⟨(k, v), Std.TreeMap.mem_toList_iff_getElem?_eq_some.mpr hk, rfl⟩

theorem keys_sorted (m : Table α) : (m.toList.map Prod.fst).Pairwise (· < ·) := by
  rw [List.pairwise_map]
  exact m.ordered_keys_toList.imp (by simp [Nat.compare_eq_lt])

/-- Rows that carry their own key come out in increasing order of it. -/
theorem rows_sorted {f : α → Nat} (h : ∀ (k : Nat) v, m[k]? = some v → f v = k) :
    m.rows.Pairwise (fun a b => f a < f b) := by
  have hk := keys_sorted m
  rw [List.pairwise_map] at hk
  rw [rows, List.pairwise_map]
  refine hk.imp_of_mem ?_
  intro a b ha hb hab
  have ha' := h a.1 a.2 (Std.TreeMap.mem_toList_iff_getElem?_eq_some.mp ha)
  have hb' := h b.1 b.2 (Std.TreeMap.mem_toList_iff_getElem?_eq_some.mp hb)
  omega

/-- Lists of entries in strictly ascending order of the keys with the same entries are equal. -/
theorem entries_eq {l l' : List (Nat × α)} (h : (l.map Prod.fst).Pairwise (· < ·))
    (h' : (l'.map Prod.fst).Pairwise (· < ·)) (hperm : l.Perm l') : l = l' := by
  rw [List.pairwise_map] at h h'
  refine hperm.eq_of_pairwise ?_ h h'
  intro a b _ _ hab hba
  omega

theorem nodup_of_keys_sorted {l : List (Nat × α)} (h : (l.map Prod.fst).Pairwise (· < ·)) :
    l.Nodup := by
  apply List.Pairwise.of_map Prod.fst _ h
  intro a b hlt heq
  rw [heq] at hlt
  omega

/-- A table with as many entries as another, each the image of the other's entry under its key, has
the images of all the other's entries. -/
theorem toList_eq_map {m' : Table β} {f : α → β}
    (hentry : ∀ (k : Nat) w, m'[k]? = some w → ∃ v, m[k]? = some v ∧ w = f v)
    (hsize : m'.size = m.size) : m'.toList = m.toList.map fun r => (r.1, f r.2) := by
  have hsub : m'.toList ⊆ m.toList.map fun r => (r.1, f r.2) := by
    rintro ⟨k, w⟩ hr
    obtain ⟨v, hv, rfl⟩ := hentry k w (Std.TreeMap.mem_toList_iff_getElem?_eq_some.mp hr)
    exact List.mem_map.mpr ⟨(k, v), Std.TreeMap.mem_toList_iff_getElem?_eq_some.mpr hv, rfl⟩
  have hnodup : m'.toList.Nodup := nodup_of_keys_sorted (keys_sorted m')
  have hlen : (m.toList.map fun r => (r.1, f r.2)).length ≤ m'.toList.length := by
    simp [Std.TreeMap.length_toList, hsize]
  have hperm := (List.subperm_of_subset hnodup hsub).perm_of_length_le hlen
  have hsorted : ((m.toList.map fun r => (r.1, f r.2)).map Prod.fst).Pairwise (· < ·) := by
    rw [List.map_map]
    exact keys_sorted m
  exact entries_eq (keys_sorted m') hsorted hperm

theorem rows_eq_map {m' : Table β} {f : α → β}
    (hentry : ∀ (k : Nat) w, m'[k]? = some w → ∃ v, m[k]? = some v ∧ w = f v)
    (hsize : m'.size = m.size) : m'.rows = m.rows.map f := by
  rw [rows, toList_eq_map hentry hsize, rows, List.map_map, List.map_map]
  rfl

/-- Where every entry of a table is under a key of another, it has as many entries exactly if it has
one under each of the other's keys. -/
theorem size_eq_iff {m' : Table β} {f : α → β}
    (hentry : ∀ (k : Nat) w, m'[k]? = some w → ∃ v, m[k]? = some v ∧ w = f v) :
    m'.size = m.size ↔ ∀ k : Nat, m[k]?.isSome → m'[k]?.isSome := by
  constructor
  · intro hsize k hk
    obtain ⟨v, hv⟩ := Option.isSome_iff_exists.mp hk
    have hmem : (k, f v) ∈ m'.toList := by
      rw [toList_eq_map hentry hsize]
      exact List.mem_map.mpr ⟨(k, v), Std.TreeMap.mem_toList_iff_getElem?_eq_some.mpr hv, rfl⟩
    rw [Std.TreeMap.mem_toList_iff_getElem?_eq_some.mp hmem]
    rfl
  · intro hall
    have hmem : ∀ k, k ∈ m'.toList.map Prod.fst ↔ k ∈ m.toList.map Prod.fst := by
      intro k
      simp only [List.mem_map, Prod.exists, exists_and_right, exists_eq_right,
        Std.TreeMap.mem_toList_iff_getElem?_eq_some]
      constructor
      · rintro ⟨w, hw⟩
        obtain ⟨v, hv, -⟩ := hentry k w hw
        exact ⟨v, hv⟩
      · rintro ⟨v, hv⟩
        exact Option.isSome_iff_exists.mp (hall k (by rw [hv]; rfl))
    have hnodup : ∀ {γ : Type} (t : Table γ), (t.toList.map Prod.fst).Nodup :=
      fun t => (keys_sorted t).imp Nat.ne_of_lt
    have hperm := (List.perm_ext_iff_of_nodup (hnodup m') (hnodup m)).mpr hmem
    simpa using hperm.length_eq

/-- A table whose entries are those of a list, under their positions, has the list as its rows. -/
theorem rows_eq_of_get {l : List α} (h : ∀ k : Nat, m[k]? = l[k]?) : m.rows = l := by
  let entries := l.zipIdx.map fun r => (r.2, r.1)
  have hkeys : entries.map Prod.fst = List.range l.length := by
    simp [entries, List.zipIdx_map_snd, List.range_eq_range', Function.comp_def]
  have hsorted : (entries.map Prod.fst).Pairwise (· < ·) := by
    rw [hkeys]
    exact List.pairwise_lt_range
  have hmem : ∀ r, r ∈ m.toList ↔ r ∈ entries := by
    rintro ⟨k, v⟩
    rw [Std.TreeMap.mem_toList_iff_getElem?_eq_some, h]
    simp [entries, List.mem_zipIdx_iff_getElem?]
  have hperm := (List.perm_ext_iff_of_nodup (nodup_of_keys_sorted (keys_sorted m))
    (nodup_of_keys_sorted hsorted)).mpr hmem
  rw [rows, entries_eq (keys_sorted m) hsorted hperm, List.map_map]
  exact List.zipIdx_map_fst 0 l

/-! ## Counting -/

def count (p : α → Bool) (m : Table α) : Nat := m.rows.countP p

theorem count_eq_toList : count p m = m.toList.countP (fun r => p r.2) := by
  simp [count, rows, List.countP_map, Function.comp_def]

@[simp] theorem count_empty : count p (∅ : Table α) = 0 := by
  simp [count, rows]

private theorem count_insert (m : Table α) : count p (m.insert k v) =
    (m.toList.filter (fun r => !decide (k = r.1))).countP (fun r => p r.2) + (if p v then 1 else 0) := by
  rw [count_eq_toList, (Std.TreeMap.toList_insert_perm (t := m) (k := k) (v := v)).countP_eq]
  simp [List.countP_cons]

theorem count_insert_none (h : m[k]? = none) :
    count p (m.insert k v) = count p m + (if p v then 1 else 0) := by
  rw [count_insert, count_eq_toList]
  congr 2
  refine List.filter_eq_self.mpr ?_
  rintro ⟨k', v'⟩ hm
  have hs := Std.TreeMap.mem_toList_iff_getElem?_eq_some.mp hm
  simp only [Bool.not_eq_true', decide_eq_false_iff_not]
  rintro rfl
  rw [h] at hs; cases hs

private theorem filter_key (m : Table α) (h : m[k]? = some old) :
    m.toList.filter (fun r => decide (k = r.1)) = [(k, old)] := by
  have hmem : (k, old) ∈ m.toList := Std.TreeMap.mem_toList_iff_getElem?_eq_some.mpr h
  have hnd : (m.toList.filter (fun r => decide (k = r.1))).Pairwise (fun a b => a.1 < b.1) := by
    have := keys_sorted m
    rw [List.pairwise_map] at this
    exact this.filter _
  cases hl : m.toList.filter (fun r => decide (k = r.1)) with
  | nil =>
      have : (k, old) ∈ m.toList.filter (fun r => decide (k = r.1)) := List.mem_filter.mpr ⟨hmem, by simp⟩
      rw [hl] at this; cases this
  | cons r rs =>
      rw [hl] at hnd
      have hall : ∀ x ∈ r :: rs, x = (k, old) := by
        intro x hx
        rw [← hl, List.mem_filter] at hx
        obtain ⟨hx, hk⟩ := hx
        obtain ⟨k', v'⟩ := x
        simp only [decide_eq_true_eq] at hk
        subst hk
        have hv := Std.TreeMap.mem_toList_iff_getElem?_eq_some.mp hx
        rw [h] at hv; cases hv; rfl
      cases rs with
      | nil => rw [hall r (by simp)]
      | cons r' rs =>
          have hlt := List.rel_of_pairwise_cons hnd (show r' ∈ r' :: rs by simp)
          rw [hall r (by simp), hall r' (by simp)] at hlt
          exact absurd hlt (Nat.lt_irrefl _)

theorem count_insert_some (h : m[k]? = some old) :
    count p (m.insert k v) + (if p old then 1 else 0) = count p m + (if p v then 1 else 0) := by
  have hsplit : count p m =
      (m.toList.filter (fun r => decide (k = r.1))).countP (fun r => p r.2) +
        (m.toList.filter (fun r => !decide (k = r.1))).countP (fun r => p r.2) := by
    rw [count_eq_toList, ← List.countP_append]
    exact (List.filter_append_perm (fun r : Nat × α => decide (k = r.1)) m.toList).symm.countP_eq _
  rw [count_insert, hsplit, filter_key m h]
  simp only [List.countP_cons, List.countP_nil]
  omega

/-- Replacing a row by one that counts the same. -/
theorem count_insert_same (h : m[k]? = some old) (hp : p old = p v) :
    count p (m.insert k v) = count p m := by
  have hc := count_insert_some (v := v) (p := p) h
  rw [hp] at hc
  omega

/-- A predicate that splits into two disjoint ones. -/
theorem count_split {r : α → Bool}
    (h : ∀ v, (if p v then 1 else 0) = (if q v then 1 else 0) + (if r v then 1 else 0)) :
    count p m = count q m + count r m := by
  unfold count
  induction m.rows with
  | nil => rfl
  | cons v vs ih =>
      have hv := h v
      simp only [List.countP_cons]
      omega

theorem count_pos_iff : 0 < count p m ↔ ∃ (k : Nat) (v : α), m[k]? = some v ∧ p v = true := by
  simp only [count, List.countP_pos_iff, mem_rows]
  constructor
  · rintro ⟨v, ⟨k, hk⟩, hp⟩; exact ⟨k, v, hk, hp⟩
  · rintro ⟨k, v, hk, hp⟩; exact ⟨v, ⟨k, hk⟩, hp⟩

theorem count_eq_zero_iff : count p m = 0 ↔ ∀ (k : Nat) v, m[k]? = some v → p v = false := by
  simp only [count, List.countP_eq_zero, mem_rows]
  constructor
  · intro h k v hk; simpa using h v ⟨k, hk⟩
  · rintro h v ⟨k, hk⟩; simpa using h k v hk

/-- Counting only looks at which keys hold a row the predicate picks. -/
theorem count_congr_get {m' : Table α} (h : ∀ k : Nat, m[k]?.any p = m'[k]?.any p) :
    count p m = count p m' := by
  have keys_nodup (m : Table α) : ((m.toList.filter fun r => p r.2).map Prod.fst).Nodup := by
    refine List.Nodup.sublist (List.filter_sublist.map _) ?_
    exact (keys_sorted m).imp Nat.ne_of_lt
  have mem_keys (m : Table α) (k : Nat) :
      k ∈ (m.toList.filter fun r => p r.2).map Prod.fst ↔ m[k]?.any p = true := by
    simp only [List.mem_map, List.mem_filter, Prod.exists, exists_and_right, exists_eq_right,
      Std.TreeMap.mem_toList_iff_getElem?_eq_some, Option.any_eq_true]
  have hperm : ((m.toList.filter fun r => p r.2).map Prod.fst).Perm
      ((m'.toList.filter fun r => p r.2).map Prod.fst) := by
    refine (List.perm_ext_iff_of_nodup (keys_nodup m) (keys_nodup m')).mpr ?_
    intro k
    rw [mem_keys, mem_keys, h k]
  rw [count_eq_toList, count_eq_toList, List.countP_eq_length_filter, List.countP_eq_length_filter]
  simpa using hperm.length_eq

theorem count_filter {f : Nat → α → Bool}
    (h : ∀ (k : Nat) v, m[k]? = some v → p v = true → f k v = true) :
    count p (m.filter f) = count p m := by
  rw [count_eq_toList, count_eq_toList, Std.TreeMap.toList_filter, List.countP_filter]
  refine List.countP_congr ?_
  rintro ⟨k, v⟩ hm
  have hk := Std.TreeMap.mem_toList_iff_getElem?_eq_some.mp hm
  simp only [Bool.and_eq_true, and_iff_left_iff_imp]
  exact h k v hk

/-! ## Bulk updates -/

/-- Insert rows that carry their own key, one after the other. -/
def insertAll (key : α → Nat) (m : Table α) (vs : List α) : Table α :=
  vs.foldl (fun m v => m.insert (key v) v) m

/-- Remove a list of keys. -/
def eraseAll (m : Table α) (ks : List Nat) : Table α := ks.foldl (fun m k => m.erase k) m

/-- In a pass whose steps write under a key or leave what is there, the last write stands. -/
theorem get_foldl_or {γ : Type} {step : Table α → γ → Table α} {f : γ → Option α}
    (h : ∀ m x, (step m x)[a]? = (f x).or m[a]?) (l : List γ) (m : Table α) :
    (l.foldl step m)[a]? = (l.reverse.findSome? f).or m[a]? := by
  induction l generalizing m with
  | nil => rfl
  | cons x l ih =>
      rw [List.foldl_cons, ih, h, List.reverse_cons, List.findSome?_append, Option.or_assoc]
      cases hx : f x <;> simp [hx]

variable {key : α → Nat} {vs : List α}

theorem get_insertAll_ne (h : ∀ v ∈ vs, key v ≠ a) : (insertAll key m vs)[a]? = m[a]? := by
  induction vs generalizing m with
  | nil => rfl
  | cons v vs ih =>
      have ih := ih (m := m.insert (key v) v) fun w hw => h w (List.mem_cons_of_mem _ hw)
      exact ih.trans (get_insert_ne (h v (by simp)))

/-- What is inserted does not depend on what was there. -/
theorem get_insertAll_congr {m' : Table α} (h : m[a]? = m'[a]?) :
    (insertAll key m vs)[a]? = (insertAll key m' vs)[a]? := by
  induction vs generalizing m m' with
  | nil => exact h
  | cons v vs ih =>
      have hstep : (m.insert (key v) v)[a]? = (m'.insert (key v) v)[a]? := by rw [get_insert, get_insert, h]
      exact ih hstep

theorem get_insertAll_mem (hnd : (vs.map key).Nodup) (h : v ∈ vs) :
    (insertAll key m vs)[key v]? = some v := by
  induction vs generalizing m with
  | nil => cases h
  | cons w vs ih =>
      rw [List.map_cons, List.nodup_cons] at hnd
      rcases List.mem_cons.mp h with rfl | h
      · have hne : ∀ w ∈ vs, key w ≠ key v := fun w hw he =>
          hnd.1 (he ▸ List.mem_map_of_mem hw)
        exact (get_insertAll_ne hne).trans get_insert_self
      · exact ih hnd.2 h

/-- Where a row of the enlarged table comes from. -/
theorem get_insertAll_some (h : (insertAll key m vs)[a]? = some v) :
    (v ∈ vs ∧ key v = a) ∨ (m[a]? = some v ∧ ∀ w ∈ vs, key w ≠ a) := by
  induction vs generalizing m with
  | nil => exact Or.inr ⟨h, by simp⟩
  | cons w vs ih =>
      rcases ih (m := m.insert (key w) w) h with ⟨hv, hk⟩ | ⟨hm, hne⟩
      · exact Or.inl ⟨List.mem_cons_of_mem _ hv, hk⟩
      · rw [get_insert] at hm
        split at hm
        · cases hm; exact Or.inl ⟨by simp, ‹_›⟩
        · refine Or.inr ⟨hm, ?_⟩
          intro x hx
          rcases List.mem_cons.mp hx with rfl | hx
          · assumption
          · exact hne x hx

theorem count_insertAll (hnd : (vs.map key).Nodup) (hnew : ∀ v ∈ vs, m[key v]? = none) :
    count p (insertAll key m vs) = count p m + vs.countP p := by
  induction vs generalizing m with
  | nil => simp [insertAll]
  | cons v vs ih =>
      rw [List.map_cons, List.nodup_cons] at hnd
      have hnew' : ∀ w ∈ vs, (m.insert (key v) v)[key w]? = none := by
        intro w hw
        have hne : key v ≠ key w := fun he => hnd.1 (he ▸ List.mem_map_of_mem hw)
        rw [get_insert_ne hne]
        exact hnew w (List.mem_cons_of_mem _ hw)
      have ih := ih (m := m.insert (key v) v) hnd.2 hnew'
      rw [count_insert_none (hnew v (by simp))] at ih
      rw [List.countP_cons]
      exact ih.trans (by omega)

theorem get_eraseAll {ks : List Nat} :
    (eraseAll m ks)[a]? = if a ∈ ks then none else m[a]? := by
  induction ks generalizing m with
  | nil => simp [eraseAll]
  | cons k ks ih =>
      have ih := ih (m := m.erase k)
      refine (show (eraseAll m (k :: ks))[a]? = (eraseAll (m.erase k) ks)[a]? from rfl).trans ?_
      rw [ih, get_erase]
      by_cases hm : a ∈ ks
      · simp [hm]
      · by_cases hk : k = a
        · simp [hk]
        · simp [hm, hk, Ne.symm hk]

end Table

end Gavel
