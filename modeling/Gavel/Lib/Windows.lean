import Gavel.Lib.Slots

/-!
# Fixed windows

Events that are counted in windows of one width, no two of which overlap. An interval of that width, both
ends included, meets at most two of the windows.
-/

namespace Gavel.Windows

variable {α : Type} {l : List α} {at' started : α → Nat} {width most : Nat}

/-- Every event lies in its window, two windows are the same or apart, and none holds too many. -/
structure Apart (l : List α) (at' started : α → Nat) (width most : Nat) : Prop where
  inside : ∀ a ∈ l, started a ≤ at' a ∧ at' a < started a + width
  apart : ∀ a ∈ l, ∀ b ∈ l,
    started a = started b ∨ started a + width ≤ started b ∨ started b + width ≤ started a
  most : ∀ start, l.countP (fun a => decide (started a = start)) ≤ most

theorem apart_nil (at' started : α → Nat) (width most : Nat) : Apart [] at' started width most where
  inside _ ha := absurd ha List.not_mem_nil
  apart _ ha := absurd ha List.not_mem_nil
  most _ := Nat.zero_le _

/-- One more event, in the last window or in a later one that holds nothing yet. -/
theorem Apart.append {e : α} (h : Apart l at' started width most)
    (hin : started e ≤ at' e ∧ at' e < started e + width)
    (hlast : ∀ a ∈ l, started a = started e ∨ started a + width ≤ started e)
    (hroom : l.countP (fun a => decide (started a = started e)) < most) :
    Apart (l ++ [e]) at' started width most where
  inside := by
    intro a ha
    rcases List.mem_append.mp ha with ha | ha
    · exact h.inside a ha
    · rw [List.mem_singleton.mp ha]
      exact hin
  apart := by
    intro a ha b hb
    rcases List.mem_append.mp ha with ha | ha
    · rcases List.mem_append.mp hb with hb | hb
      · exact h.apart a ha b hb
      · rw [List.mem_singleton.mp hb]
        rcases hlast a ha with heq | hle
        · exact .inl heq
        · exact .inr (.inl hle)
    · rw [List.mem_singleton.mp ha]
      rcases List.mem_append.mp hb with hb | hb
      · rcases hlast b hb with heq | hle
        · exact .inl heq.symm
        · exact .inr (.inr hle)
      · rw [List.mem_singleton.mp hb]
        exact .inl rfl
  most := by
    intro start
    have hbefore := h.most start
    rw [List.countP_append, List.countP_singleton]
    by_cases hstart : started e = start
    · rw [← hstart, decide_eq_true rfl, if_pos rfl]
      exact hroom
    · rw [decide_eq_false hstart, if_neg Bool.false_ne_true]
      exact hbefore

/-- An instant lies in the interval of a width that begins at another, its end included. -/
def spans (width since instant : Nat) : Bool := decide (since ≤ instant) && decide (instant ≤ since + width)

theorem spans_iff {since instant : Nat} :
    spans width since instant = true ↔ since ≤ instant ∧ instant ≤ since + width := by
  rw [spans, Bool.and_eq_true, decide_eq_true_eq, decide_eq_true_eq]

/-- The events of an interval belong to two windows. -/
theorem Apart.two_windows (h : Apart l at' started width most) (since : Nat) :
    ∃ first second, ∀ a ∈ l, spans width since (at' a) = true →
      started a = first ∨ started a = second := by
  by_cases hone : ∃ first, ∀ a ∈ l, spans width since (at' a) = true → started a = first
  · obtain ⟨first, hall⟩ := hone
    exact ⟨first, first, fun a ha hin => .inl (hall a ha hin)⟩
  · have hmore (first : Nat) : ∃ a ∈ l, spans width since (at' a) = true ∧ started a ≠ first := by
      by_contra hno
      refine hone ⟨first, fun a ha hin => ?_⟩
      by_contra hne
      exact hno ⟨a, ha, hin, hne⟩
    obtain ⟨a, ha, hain, -⟩ := hmore 0
    obtain ⟨b, hb, hbin, hne⟩ := hmore (started a)
    refine ⟨started a, started b, fun c hc hcin => ?_⟩
    -- Three windows apart from each other do not reach into one interval.
    have hab := h.apart a ha b hb
    have hac := h.apart a ha c hc
    have hbc := h.apart b hb c hc
    have hina := h.inside a ha
    have hinb := h.inside b hb
    have hinc := h.inside c hc
    rw [spans_iff] at hain hbin hcin
    omega

/-- An interval of one width holds what two windows may hold. -/
theorem Apart.countP_le (h : Apart l at' started width most) (since : Nat) :
    l.countP (fun a => spans width since (at' a)) ≤ 2 * most := by
  obtain ⟨first, second, hall⟩ := h.two_windows since
  have hsplit := Slots.countP_le_add (l := l) (p := fun a => spans width since (at' a))
    (q := fun a => decide (started a = first)) (r := fun a => decide (started a = second))
    (fun a ha hin => by simpa using hall a ha hin)
  have hfirst := h.most first
  have hsecond := h.most second
  omega

end Gavel.Windows
