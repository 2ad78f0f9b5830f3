import Mathlib.Data.List.Dedup
import Mathlib.Data.List.Nodup

/-!
# Tables with a primary key

Rows of which no two have the same key. A row is inserted unless its key is taken.
-/

namespace Gavel

/-- The rows of a table whose primary key is given by a function. -/
structure Keyed (α κ : Type) (key : α → κ) where
  rows : List α
  unique : rows.Pairwise fun a b => key a ≠ key b

namespace Keyed

variable {α κ : Type} {key : α → κ} {t : Keyed α κ key} {a b : α} {p : α → Bool}

/-- Among elements with a property there is one of the greatest score. -/
theorem exists_greatest {l : List α} {P : α → Prop} (score : α → Nat) (ha : a ∈ l) (hP : P a) :
    ∃ b ∈ l, P b ∧ ∀ c ∈ l, P c → score c ≤ score b := by
  classical
  have hmem : a ∈ l.filter P := by simp [ha, hP]
  have hne : (l.filter P).map score ≠ [] := List.ne_nil_of_mem (List.mem_map_of_mem hmem)
  obtain ⟨most, hmost⟩ := Option.isSome_iff_exists.mp (List.isSome_max?_of_ne_nil hne)
  obtain ⟨hmem, hle⟩ := List.max?_eq_some_iff.mp hmost
  obtain ⟨b, hb, rfl⟩ := List.mem_map.mp hmem
  obtain ⟨hbl, hPb⟩ : b ∈ l ∧ P b := by simpa using hb
  refine ⟨b, hbl, hPb, fun c hc hPc => ?_⟩
  exact hle _ (List.mem_map_of_mem (by simp [hc, hPc]))

theorem ext {u : Keyed α κ key} (h : t.rows = u.rows) : t = u := by
  cases t
  cases u
  cases h
  rfl

def empty : Keyed α κ key := ⟨[], .nil⟩

/-- Delete the rows that do not pass. -/
def keep (t : Keyed α κ key) (p : α → Bool) : Keyed α κ key := ⟨t.rows.filter p, t.unique.filter p⟩

theorem rows_keep : (t.keep p).rows = t.rows.filter p := rfl

@[simp] theorem mem_keep : a ∈ (t.keep p).rows ↔ a ∈ t.rows ∧ p a = true := List.mem_filter

/-- Two rows with one key are one row. -/
theorem eq_of_key (ha : a ∈ t.rows) (hb : b ∈ t.rows) (h : key a = key b) : a = b :=
  List.inj_on_of_nodup_map (List.pairwise_map.mpr t.unique) ha hb h

theorem nodup (t : Keyed α κ key) : t.rows.Nodup := t.unique.imp fun h heq => h (by rw [heq])

variable [DecidableEq κ]

/-- Whether a key is taken. -/
def has (t : Keyed α κ key) (k : κ) : Bool := t.rows.any (key · = k)

theorem has_iff {k : κ} : t.has k = true ↔ ∃ a ∈ t.rows, key a = k := by
  simp [has]

/-- There is at most one row of a key to be found. -/
theorem find?_key {k : κ} : (t.rows.find? fun a => decide (key a = k)) = some a ↔ a ∈ t.rows ∧ key a = k := by
  constructor
  · intro h
    exact ⟨List.mem_of_find?_eq_some h, of_decide_eq_true (List.find?_some h :)⟩
  · rintro ⟨ha, hk⟩
    cases hf : t.rows.find? fun a => decide (key a = k) with
    | none => exact absurd (decide_eq_true hk) (List.find?_eq_none.mp hf a ha)
    | some b =>
        have hb : key b = k := of_decide_eq_true (List.find?_some hf :)
        rw [eq_of_key (List.mem_of_find?_eq_some hf) ha (hb.trans hk.symm)]

/-- Insert a row unless its key is taken. -/
def add (t : Keyed α κ key) (a : α) : Keyed α κ key :=
  if h : t.has (key a) = true then t
  else ⟨t.rows ++ [a], by
    refine List.pairwise_append.mpr ⟨t.unique, List.pairwise_singleton _ _, ?_⟩
    intro b hb c hc heq
    rw [List.mem_singleton.mp hc] at heq
    exact h (has_iff.mpr ⟨b, hb, heq⟩)⟩

theorem add_of_has (h : t.has (key a) = true) : t.add a = t := dif_pos h

theorem rows_add_of_not_has (h : ¬ t.has (key a) = true) : (t.add a).rows = t.rows ++ [a] := by
  simp only [add, dif_neg h]

theorem mem_add : b ∈ (t.add a).rows ↔ b ∈ t.rows ∨ (b = a ∧ ¬ t.has (key a) = true) := by
  by_cases h : t.has (key a) = true
  · simp [add_of_has h, h]
  · simp [rows_add_of_not_has h, h]

theorem mem_add_of_mem (h : b ∈ t.rows) : b ∈ (t.add a).rows := mem_add.mpr (.inl h)

theorem has_add {k : κ} : (t.add a).has k = true ↔ t.has k = true ∨ key a = k := by
  simp only [has_iff, mem_add]
  constructor
  · rintro ⟨b, hb | ⟨rfl, -⟩, hk⟩
    · exact .inl ⟨b, hb, hk⟩
    · exact .inr hk
  · rintro (⟨b, hb, hk⟩ | hk)
    · exact ⟨b, .inl hb, hk⟩
    · by_cases h : t.has (key a) = true
      · obtain ⟨b, hb, hba⟩ := has_iff.mp h
        exact ⟨b, .inl hb, hba.trans hk⟩
      · exact ⟨a, .inr ⟨rfl, fun hhas => h (has_iff.mpr hhas)⟩, hk⟩

/-- Of a row that is inserted, the rows kept see what their own keys say. -/
theorem keep_add (h : ∀ b, key b = key a → p b = true) : (t.add a).keep p = (t.keep p).add a := by
  refine ext ?_
  by_cases hhas : t.has (key a) = true
  · obtain ⟨b, hb, hkey⟩ := has_iff.mp hhas
    have hkept : (t.keep p).has (key a) = true := has_iff.mpr ⟨b, mem_keep.mpr ⟨hb, h b hkey⟩, hkey⟩
    rw [add_of_has hhas, add_of_has hkept]
  · have hkept : ¬ (t.keep p).has (key a) = true := by
      intro hk
      obtain ⟨b, hb, hkey⟩ := has_iff.mp hk
      exact hhas (has_iff.mpr ⟨b, (mem_keep.mp hb).1, hkey⟩)
    rw [rows_add_of_not_has hkept, rows_keep, rows_keep, rows_add_of_not_has hhas, List.filter_append]
    simp [h a rfl]

theorem keep_add_of_not (h : p a = false) : (t.add a).keep p = t.keep p := by
  refine ext ?_
  by_cases hhas : t.has (key a) = true
  · rw [add_of_has hhas]
  · rw [rows_keep, rows_keep, rows_add_of_not_has hhas, List.filter_append]
    simp [h]

theorem keep_foldl_add {l : List α} (h : ∀ a ∈ l, ∀ b, key b = key a → p b = true) :
    (l.foldl add t).keep p = l.foldl add (t.keep p) := by
  induction l generalizing t with
  | nil => rfl
  | cons a l ih =>
      obtain ⟨ha, hl⟩ := List.forall_mem_cons.mp h
      rw [List.foldl_cons, ih hl, keep_add ha, List.foldl_cons]

theorem keep_foldl_add_of_not {l : List α} (h : ∀ a ∈ l, p a = false) : (l.foldl add t).keep p = t.keep p := by
  induction l generalizing t with
  | nil => rfl
  | cons a l ih =>
      obtain ⟨ha, hl⟩ := List.forall_mem_cons.mp h
      rw [List.foldl_cons, ih hl, keep_add_of_not ha]

/-- Change the row of a key, which stays the key it was. -/
def change (t : Keyed α κ key) (k : κ) (f : α → α) (hf : ∀ a, key (f a) = key a) : Keyed α κ key :=
  ⟨t.rows.map fun a => if key a = k then f a else a, by
    refine List.pairwise_map.mpr (t.unique.imp fun {a b} hab => ?_)
    have hkey (c : α) : key (if key c = k then f c else c) = key c := by
      split
      · exact hf c
      · rfl
    rwa [hkey, hkey]⟩

theorem mem_change {k : κ} {f : α → α} (hf : ∀ a, key (f a) = key a) :
    b ∈ (t.change k f hf).rows ↔ ∃ a ∈ t.rows, b = if key a = k then f a else a := by
  simp only [change, List.mem_map, eq_comm]

/-- After rows of different keys are inserted, the table has those whose keys were free. -/
theorem mem_foldl_add {l : List α} (h : l.Pairwise fun a b => key a ≠ key b) :
    b ∈ (l.foldl add t).rows ↔ b ∈ t.rows ∨ (b ∈ l ∧ ¬ t.has (key b) = true) := by
  induction l generalizing t with
  | nil => simp
  | cons a l ih =>
      obtain ⟨ha, hl⟩ := List.pairwise_cons.mp h
      rw [List.foldl_cons, ih hl, mem_add, has_add]
      constructor
      · rintro ((hb | ⟨rfl, hfree⟩) | ⟨hb, hfree⟩)
        · exact .inl hb
        · exact .inr ⟨List.mem_cons_self, hfree⟩
        · exact .inr ⟨List.mem_cons_of_mem _ hb, fun hhas => hfree (.inl hhas)⟩
      · rintro (hb | ⟨hb, hfree⟩)
        · exact .inl (.inl hb)
        · rcases List.mem_cons.mp hb with rfl | hb
          · exact .inl (.inr ⟨rfl, hfree⟩)
          · refine .inr ⟨hb, ?_⟩
            rintro (hhas | heq)
            · exact hfree hhas
            · exact ha b hb heq

/-- Rows whose keys are all taken change nothing. -/
theorem foldl_add_of_has {l : List α} (h : ∀ a ∈ l, t.has (key a) = true) : l.foldl add t = t := by
  induction l with
  | nil => rfl
  | cons a l ih =>
      obtain ⟨ha, hl⟩ := List.forall_mem_cons.mp h
      rw [List.foldl_cons, add_of_has ha, ih hl]

/-- After rows of different keys are inserted, each stands in the table itself or found its key taken. -/
theorem exists_mem_foldl_add {l : List α} (h : l.Pairwise fun a b => key a ≠ key b) (ha : a ∈ l) :
    ∃ b ∈ (l.foldl add t).rows, key b = key a ∧ (b = a ∨ b ∈ t.rows) := by
  by_cases hhas : t.has (key a) = true
  · obtain ⟨b, hb, hkey⟩ := has_iff.mp hhas
    exact ⟨b, (mem_foldl_add h).mpr (.inl hb), hkey, .inr hb⟩
  · exact ⟨a, (mem_foldl_add h).mpr (.inr ⟨ha, hhas⟩), rfl, .inl rfl⟩

/-- A key that is taken stays taken. -/
theorem has_foldl_add {l : List α} {k : κ} (h : t.has k = true) : (l.foldl add t).has k = true := by
  induction l generalizing t with
  | nil => exact h
  | cons a l ih => exact ih (has_add.mpr (.inl h))

theorem mem_of_mem_foldl_add {l : List α} (h : b ∈ (l.foldl add t).rows) : b ∈ t.rows ∨ b ∈ l := by
  induction l generalizing t with
  | nil => exact .inl h
  | cons a l ih =>
      rcases ih h with hb | hb
      · rcases mem_add.mp hb with hb | ⟨rfl, -⟩
        · exact .inl hb
        · exact .inr List.mem_cons_self
      · exact .inr (List.mem_cons_of_mem a hb)

/-- Whatever rows are inserted, every one finds its key taken afterwards. -/
theorem has_foldl_add_of_mem {l : List α} (ha : a ∈ l) : (l.foldl add t).has (key a) = true := by
  induction l generalizing t with
  | nil => cases ha
  | cons b l ih =>
      rw [List.foldl_cons]
      rcases List.mem_cons.mp ha with rfl | ha
      · have hadded : (t.add a).has (key a) = true := has_add.mpr (.inr rfl)
        exact has_foldl_add hadded
      · exact ih ha

/-- What is inserted into an empty table is kept without loss exactly if different rows have different
keys. -/
theorem foldl_add_perm_dedup [DecidableEq α] {l : List α} :
    (l.foldl add (empty : Keyed α κ key)).rows.Perm l.dedup ↔
      ∀ a ∈ l, ∀ b ∈ l, key a = key b → a = b := by
  constructor
  · intro h a ha b hb hkey
    exact eq_of_key (h.mem_iff.mpr (List.mem_dedup.mpr ha)) (h.mem_iff.mpr (List.mem_dedup.mpr hb)) hkey
  · intro h
    refine (List.perm_ext_iff_of_nodup (nodup _) (List.nodup_dedup l)).mpr fun a => ?_
    rw [List.mem_dedup]
    constructor
    · intro ha
      exact (mem_of_mem_foldl_add ha).resolve_left List.not_mem_nil
    · intro ha
      obtain ⟨b, hb, hkey⟩ := has_iff.mp (has_foldl_add_of_mem (t := (empty : Keyed α κ key)) ha)
      have hbl : b ∈ l := (mem_of_mem_foldl_add hb).resolve_left List.not_mem_nil
      rwa [← h b hbl a ha hkey]

end Keyed

end Gavel
