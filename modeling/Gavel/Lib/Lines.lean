import Gavel.Lib.Unicode
import Mathlib.Data.List.DropRight

/-!
# Lines

A text as its lines, each ended by a line feed that may follow a carriage return, and a text split at the
first place where another stands in it.
-/

namespace Gavel.Text

variable {p : Char → Bool} {c : Char} {s t line rest sep : Text}

/-- A line without the carriage return at its end. -/
def chomp (line : Text) : Text := (dropLast? '\r' line).getD line

/-- `str::lines` -/
def lines (s : Text) : List Text :=
  let parts := s.splitOn '\n'
  parts.dropLast.map chomp ++ (parts.getLast?.filter fun line => !line.isEmpty).toList

/-- The text before and after the first place where another stands. -/
def splitAtText (sep : Text) : Text → Option (Text × Text)
  | [] => if sep.isEmpty then some ([], []) else none
  | c :: s =>
      if sep.isPrefixOf (c :: s) then some ([], (c :: s).drop sep.length)
      else (splitAtText sep s).map fun r => (c :: r.1, r.2)

/-! ## Lines -/

@[simp] theorem lines_nil : lines [] = [] := rfl

/-- The first line, and those of the rest. -/
theorem lines_append (h : '\n' ∉ line) : lines (line ++ '\n' :: rest) = chomp line :: lines rest := by
  have hne : rest.splitOn '\n' ≠ [] := List.splitOn_ne_nil _ _
  simp only [lines]
  rw [List.splitOn_append_cons_self_of_not_mem h, List.dropLast_cons_of_ne_nil hne, List.map_cons,
    List.getLast?_cons, List.getLast?_eq_some_getLast hne, Option.getD_some]
  rfl

/-- What is cut off a line is white space. -/
theorem exists_chomp (line : Text) : ∃ tail : Text, line = chomp line ++ tail ∧ ∀ c ∈ tail, c = '\r' := by
  unfold chomp dropLast?
  split
  · rename_i hlast
    obtain ⟨init, rfl⟩ := List.getLast?_eq_some_iff.mp hlast
    exact ⟨['\r'], by simp, by simp⟩
  · exact ⟨[], by simp, by simp⟩

/-! ## Trimming -/

theorem trimMatches_append_left (h : ∀ c ∈ s, p c = true) : trimMatches p (s ++ t) = trimMatches p t := by
  rw [trimMatches, List.dropWhile_append_of_pos h]
  rfl

theorem trimMatches_append_right (h : ∀ c ∈ t, p c = true) : trimMatches p (s ++ t) = trimMatches p s := by
  have hback : ∀ c ∈ t.reverse, p c = true := fun c hc => h c (List.mem_reverse.mp hc)
  rw [trimMatches, List.dropWhile_append]
  split
  · rename_i hempty
    have hnil : t.dropWhile p = [] := List.dropWhile_eq_nil_iff.mpr h
    rw [trimMatches, hnil, List.isEmpty_iff.mp hempty]
  · rw [List.reverse_append, List.dropWhile_append_of_pos hback]
    rfl

/-- A text that does not all match keeps what is before it. -/
theorem rdropWhile_append (h : c ∈ t) (hc : p c = false) : (s ++ t).rdropWhile p = s ++ t.rdropWhile p := by
  have hne : t.reverse.dropWhile p ≠ [] := by
    intro hnil
    have hall := List.dropWhile_eq_nil_iff.mp hnil c (List.mem_reverse.mpr h)
    rw [hc] at hall
    cases hall
  have hfalse : ¬ (t.reverse.dropWhile p).isEmpty = true := by
    rw [List.isEmpty_iff]
    exact hne
  rw [List.rdropWhile, List.reverse_append, List.dropWhile_append, if_neg hfalse, List.reverse_append,
    List.reverse_reverse]
  rfl

theorem rdropWhile_append_right (h : ∀ c ∈ t, p c = true) : (s ++ t).rdropWhile p = s.rdropWhile p := by
  rw [List.rdropWhile, List.reverse_append,
    List.dropWhile_append_of_pos fun c hc => h c (List.mem_reverse.mp hc)]
  rfl

theorem trimMatches_cons (hc : p c = false) : trimMatches p (c :: s) = (c :: s).rdropWhile p := by
  rw [trimMatches, List.dropWhile_cons_of_neg (by simp [hc])]
  rfl

/-- The end of a text that begins with something else is trimmed alone. -/
theorem rdropWhile_cons (hc : p c = false) : (c :: s).rdropWhile p = c :: s.rdropWhile p := by
  by_cases hall : ∀ d ∈ s, p d = true
  · have hnil : s.rdropWhile p = [] := List.rdropWhile_eq_nil_iff.mpr hall
    rw [← List.singleton_append, rdropWhile_append_right hall, hnil, List.rdropWhile_singleton]
    simp [hc]
  · push Not at hall
    obtain ⟨d, hd, hfalse⟩ := hall
    exact rdropWhile_append (s := [c]) hd (by simpa using hfalse)

/-! ## Splitting -/

theorem splitAtText_cons_of_ne (hsep : ∀ d, sep.head? = some d → d ≠ c) (hne : sep ≠ []) :
    splitAtText sep (c :: s) = (splitAtText sep s).map fun r => (c :: r.1, r.2) := by
  rw [splitAtText, if_neg]
  cases sep with
  | nil => exact absurd rfl hne
  | cons d sep =>
      have hd : d ≠ c := hsep d rfl
      simp [hd]

end Gavel.Text
