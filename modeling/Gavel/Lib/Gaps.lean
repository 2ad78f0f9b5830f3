import Gavel.Lib.Extremes
import Mathlib.Data.List.Infix

/-!
# Gaps along a sorted list

Two entries are adjacent when none lies between them. Along a sorted list the neighbours are the adjacent
entries, so the widest gap between neighbours is the widest between adjacent entries, and from the first
entry to the last it is no further than as many of the widest gaps as there are neighbours.
-/

namespace Gavel.Gaps

section Order

variable {α : Type} [LinearOrder α] {l : List α} {a b : α}

/-- One entry and the next greater one. -/
structure Adjacent (l : List α) (a b : α) : Prop where
  left : a ∈ l
  right : b ∈ l
  lt : a < b
  between : ∀ c ∈ l, c ≤ a ∨ b ≤ c

/-- Adjacent entries of a sorted list are neighbours. -/
theorem Adjacent.mem_zip (hl : l.Pairwise (· ≤ ·)) (h : Adjacent l a b) : (a, b) ∈ l.zip l.tail := by
  induction l with
  | nil => cases h.left
  | cons x l ih =>
      obtain ⟨hx, htail⟩ := List.pairwise_cons.mp hl
      have hb : b ∈ l := by
        rcases List.mem_cons.mp h.right with rfl | hb
        · rcases List.mem_cons.mp h.left with rfl | ha
          · exact absurd h.lt (lt_irrefl a)
          · exact absurd h.lt (hx a ha).not_gt
        · exact hb
      cases l with
      | nil => cases hb
      | cons y l =>
          by_cases ha : a ∈ y :: l
          · have hrest : Adjacent (y :: l) a b :=
              ⟨ha, hb, h.lt, fun c hc => h.between c (List.mem_cons_of_mem x hc)⟩
            exact List.mem_cons_of_mem _ (ih htail hrest)
          · obtain rfl : a = x := by
              rcases List.mem_cons.mp h.left with rfl | hmem
              · rfl
              · exact absurd hmem ha
            have hby : b ≤ y := by
              rcases h.between y (by simp) with hya | hby
              · have heq : y = a := le_antisymm hya (hx y (by simp))
                exact absurd (heq ▸ List.mem_cons_self) ha
              · exact hby
            have hyb : y ≤ b := by
              rcases List.mem_cons.mp hb with rfl | hb
              · exact le_refl b
              · exact (List.pairwise_cons.mp htail).1 b hb
            rw [le_antisymm hby hyb]
            exact List.mem_cons_self

/-- Neighbours in a sorted list are equal or adjacent. -/
theorem adjacent_of_mem_zip (hl : l.Pairwise (· ≤ ·)) (h : (a, b) ∈ l.zip l.tail) :
    a = b ∨ Adjacent l a b := by
  induction l with
  | nil => cases h
  | cons x l ih =>
      cases l with
      | nil => cases h
      | cons y l =>
          obtain ⟨hx, htail⟩ := List.pairwise_cons.mp hl
          have hxy : x ≤ y := hx y (by simp)
          rcases List.mem_cons.mp h with heq | hmem
          · obtain ⟨rfl, rfl⟩ := Prod.mk.inj heq
            rcases hxy.eq_or_lt with heq | hlt
            · exact .inl heq
            · refine .inr ⟨by simp, by simp, hlt, ?_⟩
              intro c hc
              rcases List.mem_cons.mp hc with rfl | hc
              · exact .inl (le_refl c)
              · rcases List.mem_cons.mp hc with rfl | hc
                · exact .inr (le_refl c)
                · exact .inr ((List.pairwise_cons.mp htail).1 c hc)
          · rcases ih htail hmem with heq | hadj
            · exact .inl heq
            · refine .inr ⟨List.mem_cons_of_mem x hadj.left, List.mem_cons_of_mem x hadj.right, hadj.lt, ?_⟩
              intro c hc
              rcases List.mem_cons.mp hc with rfl | hc
              · exact .inl (hx a hadj.left)
              · exact hadj.between c hc

end Order

/-! ## The widest gap -/

section Width

variable {l : List Nat} {first last g : Nat}

/-- The widest gap between neighbours, none where there are no two. -/
def widest (l : List Nat) : Nat := ((l.zip l.tail).map fun pair => pair.2 - pair.1).foldl max 0

theorem isGreatest_widest (hl : l.Pairwise (· ≤ ·)) :
    IsGreatest (insert 0 {d | ∃ a b, Adjacent l a b ∧ d = b - a}) (widest l) := by
  obtain ⟨hmem, hle⟩ := Extremes.isGreatest_foldl_max (fun pair : Nat × Nat => pair.2 - pair.1)
    (l.zip l.tail) 0
  constructor
  · rcases hmem with hzero | ⟨⟨a, b⟩, hpair, hval⟩
    · exact .inl hzero
    · rcases adjacent_of_mem_zip hl hpair with rfl | hadj
      · exact .inl (hval.trans (Nat.sub_self a))
      · exact .inr ⟨a, b, hadj, hval⟩
  · rintro d (rfl | ⟨a, b, hadj, rfl⟩)
    · exact Nat.zero_le _
    · exact hle (.inr ⟨(a, b), hadj.mem_zip hl, rfl⟩)

theorem last_le_of_gaps (hg : ∀ pair ∈ l.zip l.tail, pair.2 - pair.1 ≤ g) (hfirst : l.head? = some first)
    (hlast : l.getLast? = some last) : last ≤ first + g * (l.length - 1) := by
  induction l generalizing first with
  | nil => cases hfirst
  | cons x l ih =>
      obtain rfl : x = first := Option.some.inj hfirst
      cases l with
      | nil =>
          obtain rfl : x = last := Option.some.inj hlast
          simp
      | cons y l =>
          have hxy : y - x ≤ g := hg (x, y) (by simp)
          have hrest := ih (fun pair hpair => hg pair (List.mem_cons_of_mem _ hpair)) rfl
            (by rwa [List.getLast?_cons_cons] at hlast)
          simp only [List.length_cons, Nat.add_sub_cancel] at hrest ⊢
          rw [Nat.mul_succ]
          omega

/-- Entries that are no less than a distance apart, the first and the last of them included. -/
theorem first_add_le_of_gaps (hg : l.IsChain fun a b => a + g ≤ b) (hfirst : l.head? = some first)
    (hlast : l.getLast? = some last) : first + g * (l.length - 1) ≤ last := by
  induction l generalizing first with
  | nil => cases hfirst
  | cons x l ih =>
      obtain rfl : x = first := Option.some.inj hfirst
      cases l with
      | nil =>
          obtain rfl : x = last := Option.some.inj hlast
          simp
      | cons y l =>
          obtain ⟨hxy, hchain⟩ := List.isChain_cons_cons.mp hg
          have hrest := ih hchain rfl (by rwa [List.getLast?_cons_cons] at hlast)
          simp only [List.length_cons, Nat.add_sub_cancel] at hrest ⊢
          rw [Nat.mul_succ]
          omega

/-- As many of the widest gaps as there are neighbours reach the last entry. -/
theorem last_le (hfirst : l.head? = some first) (hlast : l.getLast? = some last) :
    last - first ≤ widest l * (l.length - 1) := by
  have hle := (Extremes.isGreatest_foldl_max (fun pair : Nat × Nat => pair.2 - pair.1) (l.zip l.tail) 0).2
  have hreach := last_le_of_gaps (g := widest l) (fun pair hpair => hle (.inr ⟨pair, hpair, rfl⟩)) hfirst
    hlast
  omega

end Width

end Gavel.Gaps
