import Mathlib.Data.List.Sort

/-!
# Sorting by a comparator

A stable sort by a comparator, and the first of the elements under each key. The sorted elements with a
property depend on these elements alone, where the comparator tells them apart.
-/

namespace Gavel.Sorting

variable {α κ : Type} {cmp : α → α → Ordering} {l l' : List α} {a b : α} {p : α → Bool}

def sortWith (cmp : α → α → Ordering) (l : List α) : List α :=
  l.insertionSort fun a b => (cmp a b).isLE = true

theorem perm_sortWith (cmp : α → α → Ordering) (l : List α) : (sortWith cmp l).Perm l :=
  List.perm_insertionSort _ l

@[simp] theorem mem_sortWith : a ∈ sortWith cmp l ↔ a ∈ l := (perm_sortWith cmp l).mem_iff

theorem pairwise_sortWith [Std.TransCmp cmp] (l : List α) :
    (sortWith cmp l).Pairwise fun a b => (cmp a b).isLE = true := by
  have : Std.Total fun a b => (cmp a b).isLE = true := by
    refine ⟨fun a b => ?_⟩
    cases h : cmp a b with
    | lt => exact .inl rfl
    | eq => exact .inl rfl
    | gt =>
        right
        rw [Std.OrientedCmp.lt_of_gt h]
        rfl
  have : IsTrans α fun a b => (cmp a b).isLE = true := ⟨fun _ _ _ => Std.TransCmp.isLE_trans⟩
  exact List.pairwise_insertionSort _ l

/-- The elements with a property come in an order that the others have no part in. -/
theorem filter_sortWith_congr [Std.TransCmp cmp] (h : l.filter p = l'.filter p)
    (hdistinct : ∀ a ∈ l.filter p, ∀ b ∈ l.filter p, cmp a b = .eq → a = b) :
    (sortWith cmp l).filter p = (sortWith cmp l').filter p := by
  have hperm : ((sortWith cmp l).filter p).Perm ((sortWith cmp l').filter p) :=
    ((perm_sortWith cmp l).filter p).trans (h ▸ ((perm_sortWith cmp l').filter p).symm)
  refine hperm.eq_of_pairwise ?_ ((pairwise_sortWith l).filter p) ((pairwise_sortWith l').filter p)
  intro a b ha hb hab hba
  have hmem (x : α) (hx : x ∈ (sortWith cmp l).filter p) : x ∈ l.filter p :=
    ((perm_sortWith cmp l).filter p).mem_iff.mp hx
  exact hdistinct a (hmem a ha) b (hmem b (hperm.mem_iff.mpr hb)) (Std.OrientedCmp.isLE_antisymm hab hba)

/-- The same elements come out in the same order, where the comparator tells them apart. -/
theorem sortWith_congr [Std.TransCmp cmp] (h : l.Perm l') (heq : ∀ a b, cmp a b = .eq → a = b) :
    sortWith cmp l = sortWith cmp l' := by
  have hperm := (perm_sortWith cmp l).trans (h.trans (perm_sortWith cmp l').symm)
  refine hperm.eq_of_pairwise ?_ (pairwise_sortWith l) (pairwise_sortWith l')
  exact fun a b _ _ hab hba => heq a b (Std.OrientedCmp.isLE_antisymm hab hba)

/-- The one element with a property is found wherever it stands. -/
theorem find?_perm (h : l.Perm l') (hone : l.Pairwise fun a b => ¬ (p a ∧ p b)) :
    l.find? p = l'.find? p := by
  have hfilter : (l.filter p).Pairwise fun _ _ => False := by
    refine (hone.filter p).imp_of_mem fun ha hb hnot => hnot ⟨?_, ?_⟩
    · exact (List.mem_filter.mp ha).2
    · exact (List.mem_filter.mp hb).2
  have heq : l.filter p = l'.filter p := by
    have hperm := h.filter p
    cases hl : l.filter p with
    | nil =>
        rw [hl] at hperm
        exact hperm.nil_eq
    | cons a rest =>
        rw [hl] at hfilter hperm
        cases rest with
        | nil => exact (List.perm_singleton.mp hperm.symm).symm
        | cons b rest => exact absurd (List.rel_of_pairwise_cons hfilter List.mem_cons_self) id
  rw [← List.head?_filter, ← List.head?_filter, heq]

/-! ## The elements with a property -/

section Stable

variable {r : α → α → Prop} [DecidableRel r] {s : List α}

theorem orderedInsert_of_forall (h : ∀ b ∈ s, r a b) : s.orderedInsert r a = a :: s := by
  cases s with
  | nil => rfl
  | cons b s => exact List.orderedInsert_cons_of_le r s (h b List.mem_cons_self)

theorem filter_orderedInsert [IsTrans α r] (hs : s.Pairwise r) :
    (s.orderedInsert r a).filter p =
      if p a then (s.filter p).orderedInsert r a else s.filter p := by
  induction s with
  | nil => by_cases ha : p a <;> simp [ha]
  | cons b s ih =>
      obtain ⟨hb, hrest⟩ := List.pairwise_cons.mp hs
      by_cases hab : r a b
      · have hall : ∀ c ∈ (b :: s).filter p, r a c := fun c hc =>
          (List.mem_cons.mp (List.mem_of_mem_filter hc)).elim (fun heq => heq ▸ hab)
            fun hc => Trans.trans hab (hb c hc)
        rw [List.orderedInsert_cons_of_le r s hab, List.filter_cons, orderedInsert_of_forall hall]
      · rw [List.orderedInsert_of_not_le r s hab]
        by_cases hpb : p b
        · rw [List.filter_cons_of_pos hpb, List.filter_cons_of_pos hpb, ih hrest,
            List.orderedInsert_of_not_le r _ hab]
          split <;> rfl
        · rw [List.filter_cons_of_neg hpb, List.filter_cons_of_neg hpb, ih hrest]

/-- Sorting keeps the order of the elements with a property among themselves. -/
theorem filter_insertionSort [Std.Total r] [IsTrans α r] (l : List α) :
    (l.insertionSort r).filter p = (l.filter p).insertionSort r := by
  induction l with
  | nil => rfl
  | cons a l ih =>
      rw [List.insertionSort_cons, filter_orderedInsert (List.pairwise_insertionSort r l), ih,
        List.filter_cons]
      split <;> rfl

end Stable

/-! ## The first under each key -/

variable [DecidableEq κ] {key : α → κ} {seen : List κ} {k : κ}

/-- Keep an element unless its key was seen before. -/
def firsts (key : α → κ) : List κ → List α → List α
  | _, [] => []
  | seen, a :: l => if key a ∈ seen then firsts key seen l else a :: firsts key (key a :: seen) l

theorem firsts_sublist (seen : List κ) (l : List α) : (firsts key seen l).Sublist l := by
  induction l generalizing seen with
  | nil => exact List.Sublist.slnil
  | cons a l ih =>
      simp only [firsts]
      split
      · exact (ih seen).trans (List.sublist_cons_self a l)
      · exact (ih _).cons_cons a

theorem mem_of_mem_firsts (h : a ∈ firsts key seen l) : a ∈ l := (firsts_sublist seen l).subset h

theorem key_not_mem_of_mem_firsts (h : a ∈ firsts key seen l) : key a ∉ seen := by
  induction l generalizing seen with
  | nil => cases h
  | cons b l ih =>
      by_cases hb : key b ∈ seen
      · rw [firsts, if_pos hb] at h
        exact ih h
      · rw [firsts, if_neg hb] at h
        rcases List.mem_cons.mp h with rfl | h
        · exact hb
        · exact fun hmem => ih h (List.mem_cons_of_mem _ hmem)

theorem pairwise_firsts (seen : List κ) (l : List α) :
    (firsts key seen l).Pairwise fun a b => key a ≠ key b := by
  induction l generalizing seen with
  | nil => exact List.Pairwise.nil
  | cons a l ih =>
      simp only [firsts]
      split
      · exact ih seen
      · refine List.pairwise_cons.mpr ⟨fun b hb heq => ?_, ih _⟩
        exact key_not_mem_of_mem_firsts hb (heq ▸ List.mem_cons_self)

/-- What is kept is the first under its key. -/
theorem mem_firsts_iff : a ∈ firsts key seen l ↔ key a ∉ seen ∧ (l.filter (key · = key a)).head? = some a := by
  induction l generalizing seen with
  | nil => simp [firsts]
  | cons b l ih =>
      by_cases hkey : key b = key a
      · have hfirst : ((b :: l).filter (key · = key a)).head? = some b := by simp [hkey]
        rw [hfirst, firsts, Option.some.injEq]
        by_cases hb : key b ∈ seen
        · rw [if_pos hb, ih]
          simp [hkey ▸ hb]
        · rw [if_neg hb, List.mem_cons, ih]
          simp [hkey ▸ hb, hkey, eq_comm]
      · have hother : (b :: l).filter (key · = key a) = l.filter (key · = key a) := by simp [hkey]
        have hne : a ≠ b := fun heq => hkey (heq ▸ rfl)
        rw [hother, firsts]
        by_cases hb : key b ∈ seen
        · rw [if_pos hb, ih]
        · rw [if_neg hb, List.mem_cons, ih]
          simp [hne, Ne.symm hkey]

/-- Of a key that comes several times in a row, the first time alone counts. -/
theorem firsts_repeat {x : κ} {block rest : List κ} (hne : block ≠ []) (hblock : ∀ y ∈ block, y = x) :
    firsts id seen (block ++ rest) = firsts id seen (x :: rest) := by
  induction block generalizing seen with
  | nil => exact absurd rfl hne
  | cons y block ih =>
      obtain ⟨rfl, htail⟩ := List.forall_mem_cons.mp hblock
      by_cases hnil : block = []
      · rw [hnil]
        rfl
      · simp only [List.cons_append, firsts]
        split
        · rename_i hseen
          rw [ih hnil htail]
          simp only [firsts, if_pos hseen]
        · rw [ih hnil htail]
          simp only [firsts, id_eq, List.mem_cons_self, if_true]

/-- Every key that is new is represented. -/
theorem exists_mem_firsts (ha : a ∈ l) (hnew : key a ∉ seen) : ∃ b ∈ firsts key seen l, key b = key a := by
  induction l generalizing seen with
  | nil => cases ha
  | cons c l ih =>
      simp only [firsts]
      rcases List.mem_cons.mp ha with rfl | ha
      · exact ⟨a, by rw [if_neg hnew]; exact List.mem_cons_self, rfl⟩
      · split
        · exact ih ha hnew
        · by_cases hc : key a = key c
          · exact ⟨c, List.mem_cons_self, hc.symm⟩
          · have hneither : key a ∉ key c :: seen := by
              simpa only [List.mem_cons, not_or] using ⟨hc, hnew⟩
            obtain ⟨b, hb, heq⟩ := ih ha hneither
            exact ⟨b, List.mem_cons_of_mem _ hb, heq⟩

end Gavel.Sorting
