import Mathlib.Data.List.Induction
import Mathlib.Data.List.Basic

/-!
# Logs

What a log says still holds: an entry began it and no entry since has ended it. What justifies an entry is
said of the entries before it.
-/

namespace Gavel.Log

variable {ε : Type} {begins : List ε → ε → Prop} {ends : ε → Prop} {P Q : List ε → ε → Prop}
variable {log : List ε} {e : ε}

/-- An entry began it, in view of the entries before, and none after ended it. -/
def Stands (begins : List ε → ε → Prop) (ends : ε → Prop) (log : List ε) : Prop :=
  ∃ before e after, log = before ++ e :: after ∧ begins before e ∧ ∀ x ∈ after, ¬ ends x

theorem not_stands_nil : ¬ Stands begins ends [] := by
  rintro ⟨before, e, after, h, -⟩
  exact absurd h.symm (List.append_ne_nil_of_right_ne_nil before (List.cons_ne_nil e after))

/-- A log that ends in an entry, cut at some entry: at the last one, or before it. -/
theorem concat_eq {before after : List ε} {x : ε} (h : log ++ [e] = before ++ x :: after) :
    (log = before ∧ e = x ∧ after = []) ∨ ∃ rest, log = before ++ x :: rest ∧ after = rest ++ [e] := by
  rcases List.eq_nil_or_concat after with rfl | ⟨rest, y, rfl⟩
  · obtain ⟨rfl, hx⟩ := List.append_inj' h rfl
    exact .inl ⟨rfl, (List.cons.inj hx).1, rfl⟩
  · rw [List.concat_eq_append] at h ⊢
    rw [← List.cons_append, ← List.append_assoc] at h
    obtain ⟨rfl, hy⟩ := List.append_inj' h rfl
    exact .inr ⟨rest, rfl, by rw [(List.cons.inj hy).1]⟩

theorem stands_concat :
    Stands begins ends (log ++ [e]) ↔ begins log e ∨ (Stands begins ends log ∧ ¬ ends e) := by
  constructor
  · rintro ⟨before, x, after, h, hb, hends⟩
    rcases concat_eq h with ⟨rfl, rfl, -⟩ | ⟨rest, rfl, rfl⟩
    · exact .inl hb
    · exact .inr ⟨⟨before, x, rest, rfl, hb, fun y hy => hends y (List.mem_append_left _ hy)⟩,
        hends e (List.mem_append_right _ List.mem_cons_self)⟩
  · rintro (hb | ⟨⟨before, x, after, rfl, hb, hends⟩, he⟩)
    · exact ⟨log, e, [], rfl, hb, by simp⟩
    · refine ⟨before, x, after ++ [e], by simp, hb, fun y hy => ?_⟩
      rcases List.mem_append.mp hy with hy | hy
      · exact hends y hy
      · rwa [List.mem_singleton.mp hy]

/-- What stands was begun by an entry of the log. -/
theorem Stands.begun (h : Stands begins ends log) : ∃ before, ∃ e ∈ log, begins before e := by
  obtain ⟨before, e, after, rfl, hb, -⟩ := h
  exact ⟨before, e, by simp, hb⟩

/-- What stands goes on while nothing ends it. -/
theorem Stands.append {later : List ε} (h : Stands begins ends log) (hl : ∀ x ∈ later, ¬ ends x) :
    Stands begins ends (log ++ later) := by
  obtain ⟨before, e, after, rfl, hb, hends⟩ := h
  refine ⟨before, e, after ++ later, by simp, hb, fun x hx => ?_⟩
  exact (List.mem_append.mp hx).elim (hends x) (hl x)

/-- Every entry of the log is right in view of the entries before it. -/
def Each (P : List ε → ε → Prop) (log : List ε) : Prop :=
  ∀ before e after, log = before ++ e :: after → P before e

theorem each_nil : Each P [] := by
  intro before e after h
  exact absurd h.symm (List.append_ne_nil_of_right_ne_nil before (List.cons_ne_nil e after))

theorem each_concat : Each P (log ++ [e]) ↔ Each P log ∧ P log e := by
  constructor
  · intro h
    refine ⟨fun before x after hl => ?_, h log e [] rfl⟩
    exact h before x (after ++ [e]) (by simp [hl])
  · rintro ⟨h, he⟩ before x after hl
    rcases concat_eq hl with ⟨rfl, rfl, -⟩ | ⟨rest, hl, -⟩
    · exact he
    · exact h before x rest hl

end Gavel.Log
