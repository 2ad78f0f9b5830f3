import Mathlib.Data.List.Induction
import Mathlib.Order.Bounds.Basic
import Mathlib.Order.MinMax
import Mathlib.Order.OrderDual

/-!
# Steps from a running least entry

Along a list, each entry above the least of those before it is paired with that least one. These pairs
are ordered pairs of the list, and every ordered pair that ascends ends where one of them ends and
starts no lower, so what is monotone in the start is greatest on one of them. Over the dual order the
running entry is the greatest. A running least value that starts from a bound keeps what came with the
value that first reached it. Whatever makes an entry the better one, the best is one of the entries.
-/

namespace Gavel.Extremes

theorem foldl_better_mem {α : Type} (better : α → α → Prop) [DecidableRel better] (l : List α) (a : α) :
    l.foldl (fun best b => if better b best then b else best) a ∈ a :: l := by
  induction l generalizing a with
  | nil => exact List.mem_singleton_self a
  | cons b l ih =>
      rw [List.foldl_cons]
      split
      · exact List.mem_cons_of_mem a (ih b)
      · rcases List.mem_cons.mp (ih a) with h | h
        · rw [h]
          exact List.mem_cons_self
        · exact List.mem_cons_of_mem a (List.mem_cons_of_mem b h)

variable {α : Type} [LinearOrder α] {t x q : α} {o : Option α} {l : List α}

/-- Each entry above the least before it, after that least one. -/
def steps : Option α → List α → List (α × α)
  | _, [] => []
  | none, p :: l => steps (some p) l
  | some t, p :: l => (if t < p then [(t, p)] else []) ++ steps (some (min t p)) l

theorem sublist_of_mem_steps (h : (t, q) ∈ steps o l) : [t, q].Sublist (o.toList ++ l) ∧ t < q := by
  induction l generalizing o with
  | nil => cases o <;> cases h
  | cons p l ih =>
      cases o with
      | none => exact ih h
      | some least =>
          rcases List.mem_append.mp h with h | h
          · split at h
            · rename_i hlt
              cases List.mem_singleton.mp h
              exact ⟨.cons_cons _ (.cons_cons _ (List.nil_sublist l)), hlt⟩
            · cases h
          · obtain ⟨hsub, hlt⟩ := ih h
            refine ⟨hsub.trans ?_, hlt⟩
            rcases min_choice least p with hmin | hmin <;> rw [hmin]
            · exact .cons_cons _ (.cons _ (List.Sublist.refl l))
            · exact .cons _ (List.Sublist.refl _)

theorem exists_step (h : [x, q].Sublist (o.toList ++ l)) (hlt : x < q) :
    ∃ t ≤ x, (t, q) ∈ steps o l := by
  induction l generalizing o x with
  | nil =>
      have hlen := h.length_le
      cases o <;> simp at hlen
  | cons p l ih =>
      cases o with
      | none => exact ih h hlt
      | some least =>
          -- What ends after the entry is a step from the least so far.
          have hlater : ∀ y, min least p ≤ y → y < q → q ∈ l →
              ∃ t ≤ y, (t, q) ∈ steps (some least) (p :: l) := by
            intro y hy hyq hq
            obtain ⟨t, ht, hmem⟩ := ih (o := some (min least p)) (x := min least p)
              (.cons_cons _ (List.singleton_sublist.mpr hq)) (hy.trans_lt hyq)
            exact ⟨t, ht.trans hy, List.mem_append_right _ hmem⟩
          cases h with
          | cons_cons _ h =>
              rcases List.mem_cons.mp (List.singleton_sublist.mp h) with rfl | hq
              · exact ⟨_, le_refl _, List.mem_append_left _ (by simp [hlt])⟩
              · exact hlater _ (min_le_left _ _) hlt hq
          | cons _ h =>
              cases h with
              | cons_cons _ h => exact hlater _ (min_le_right _ _) hlt (List.singleton_sublist.mp h)
              | cons _ h =>
                  obtain ⟨t, ht, hmem⟩ := ih (o := some (min least p)) (h.cons _) hlt
                  exact ⟨t, ht, List.mem_append_right _ hmem⟩

/-! ## The greatest value -/

theorem isGreatest_foldl_max {β : Type} (f : β → Nat) (l : List β) (a : Nat) :
    IsGreatest (insert a {n | ∃ b ∈ l, n = f b}) ((l.map f).foldl max a) := by
  induction l generalizing a with
  | nil =>
      refine ⟨Set.mem_insert _ _, ?_⟩
      rintro n (rfl | ⟨b, hb, -⟩)
      · exact le_refl n
      · cases hb
  | cons b l ih =>
      obtain ⟨hmem, hle⟩ := ih (max a (f b))
      rw [List.map_cons, List.foldl_cons]
      constructor
      · rcases hmem with hmax | ⟨c, hc, hval⟩
        · rw [hmax]
          rcases max_choice a (f b) with hmax | hmax <;> rw [hmax]
          · exact .inl rfl
          · exact .inr ⟨b, by simp, rfl⟩
        · exact .inr ⟨c, by simp [hc], hval⟩
      · have hfirst := hle (Set.mem_insert _ _)
        rintro n (rfl | ⟨c, hc, rfl⟩)
        · exact (le_max_left _ _).trans hfirst
        · rcases List.mem_cons.mp hc with rfl | hc
          · exact (le_max_right _ _).trans hfirst
          · exact hle (.inr ⟨c, hc, rfl⟩)

/-- What falls as its start rises is greatest on one of the steps. -/
theorem isGreatest_steps {f : α → α → Nat}
    (hf : ∀ t ∈ l, ∀ x q, t ≤ x → x < q → f x q ≤ f t q) :
    IsGreatest (insert 0 {n | ∃ x q, [x, q].Sublist l ∧ x < q ∧ n = f x q})
      (((steps none l).map fun step => f step.1 step.2).foldl max 0) := by
  obtain ⟨hmem, hle⟩ := isGreatest_foldl_max (fun step : α × α => f step.1 step.2) (steps none l) 0
  constructor
  · rcases hmem with hzero | ⟨⟨t, q⟩, hstep, hval⟩
    · exact .inl hzero
    · obtain ⟨hsub, hlt⟩ := sublist_of_mem_steps hstep
      exact .inr ⟨t, q, hsub, hlt, hval⟩
  · rintro n (rfl | ⟨x, q, hsub, hlt, rfl⟩)
    · exact Nat.zero_le _
    · obtain ⟨t, ht, hstep⟩ := exists_step (o := none) hsub hlt
      have hmem : t ∈ l := (sublist_of_mem_steps hstep).1.subset (by simp)
      exact (hf t hmem x q ht hlt).trans (hle (.inr ⟨(t, q), hstep, rfl⟩))

/-! ## A running least value -/

section Running

variable {β γ : Type}

/-- Keep a value below the held one, with what comes with it. -/
def lower (value : β → α) (tag : β → γ) (held : α × γ) (b : β) : α × γ :=
  if value b < held.1 then (value b, tag b) else held

/-- A pass from a bound holds the least value and what came with it first, or the bound where nothing is
below it. -/
theorem foldl_lower (value : β → α) (tag : β → γ) (l : List β) (held : α × γ) :
    (∀ b ∈ l, (l.foldl (lower value tag) held).1 ≤ value b) ∧
      ((l.foldl (lower value tag) held = held ∧ ∀ b ∈ l, held.1 ≤ value b) ∨
        (l.foldl (lower value tag) held).1 < held.1 ∧
          ∃ b, l.find? (fun b => value b = (l.foldl (lower value tag) held).1) = some b ∧
            tag b = (l.foldl (lower value tag) held).2) := by
  induction l using List.reverseRecOn with
  | nil => simp
  | append_singleton l b ih =>
      rw [List.foldl_append, List.foldl_cons, List.foldl_nil]
      generalize l.foldl (lower value tag) held = sofar at ih ⊢
      obtain ⟨hle, hreached⟩ := ih
      rw [lower]
      split
      · rename_i hlt
        -- Nothing before it has the new least value.
        have hfirst : l.find? (fun c => value c = value b) = none := by
          rw [List.find?_eq_none]
          intro c hc
          have := hlt.trans_le (hle c hc)
          simpa using this.ne'
        have hbelow : value b < held.1 := by
          rcases hreached with ⟨rfl, -⟩ | ⟨hheld, -⟩
          · exact hlt
          · exact hlt.trans hheld
        refine ⟨?_, .inr ⟨hbelow, b, ?_, rfl⟩⟩
        · simp only [List.forall_mem_append, List.forall_mem_singleton]
          exact ⟨fun c hc => hlt.le.trans (hle c hc), le_refl _⟩
        · rw [List.find?_append, hfirst]
          simp
      · rename_i hnot
        simp only [List.forall_mem_append, List.forall_mem_singleton]
        refine ⟨⟨hle, not_lt.mp hnot⟩, ?_⟩
        rcases hreached with ⟨rfl, hall⟩ | ⟨hheld, c, hc, htag⟩
        · exact .inl ⟨rfl, hall, not_lt.mp hnot⟩
        · refine .inr ⟨hheld, c, ?_, htag⟩
          rw [List.find?_append, hc, Option.some_or]

/-- Keep a value above the held one, with what comes with it. -/
def raise (value : β → α) (tag : β → γ) (held : α × γ) (b : β) : α × γ :=
  if held.1 < value b then (value b, tag b) else held

/-- The greatest value is the least one of the dual order. -/
theorem foldl_raise (value : β → α) (tag : β → γ) (l : List β) (held : α × γ) :
    (∀ b ∈ l, value b ≤ (l.foldl (raise value tag) held).1) ∧
      ((l.foldl (raise value tag) held = held ∧ ∀ b ∈ l, value b ≤ held.1) ∨
        held.1 < (l.foldl (raise value tag) held).1 ∧
          ∃ b, l.find? (fun b => value b = (l.foldl (raise value tag) held).1) = some b ∧
            tag b = (l.foldl (raise value tag) held).2) :=
  @foldl_lower αᵒᵈ _ β γ value tag l held

end Running

/-! ## Ends that may be missing -/

section Optional

variable {β : Type}

/-- What is merged one after the other is what is there, combined in order. -/
theorem foldl_merge (f : β → β → β) (l : List (Option β)) (held : Option β) :
    l.foldl (Option.merge f) held = match (held :: l).filterMap id with
      | [] => none
      | b :: bs => some (bs.foldl f b) := by
  induction l generalizing held with
  | nil => cases held <;> rfl
  | cons o l ih =>
      rw [List.foldl_cons, ih]
      cases held <;> cases o <;> rfl

theorem foldl_merge_min (l : List (Option α)) :
    l.foldl (Option.merge min) none = (l.filterMap id).min? := by
  rw [foldl_merge, List.filterMap_cons_none rfl]
  cases l.filterMap id <;> rfl

theorem foldl_merge_max (l : List (Option α)) :
    l.foldl (Option.merge max) none = (l.filterMap id).max? := by
  rw [foldl_merge, List.filterMap_cons_none rfl]
  cases l.filterMap id <;> rfl

end Optional

end Gavel.Extremes
