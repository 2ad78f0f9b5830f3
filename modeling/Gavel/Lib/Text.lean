import Mathlib.Algebra.Order.Ring.Nat
import Mathlib.Data.List.Basic
import Mathlib.Data.List.Induction
import Mathlib.Data.List.TakeWhile

/-!
# Numbers as text

Decimal numerals, how an unsigned number is parsed, and texts joined and split at a separator.
-/

namespace Gavel

/-- A text as the list of its characters. -/
abbrev Text := List Char

namespace Text

variable {s t : Text} {n most : Nat} {c : Char}

/-- The decimal numeral of a number. -/
def decimal (n : Nat) : Text := Nat.toDigits 10 n

/-- The numeral of a number, filled up with zeros to a width. -/
def padded (width n : Nat) : Text := List.replicate (width - (decimal n).length) '0' ++ decimal n

/-- The number a text spells, for a type whose largest value is `most`: an optional plus sign and at
least one digit. -/
def parseNat (most : Nat) (s : Text) : Option Nat :=
  let digits := match s with
    | '+' :: rest => rest
    | _ => s
  if digits.isEmpty || !digits.all Char.isDigit then none
  else
    let n := Nat.ofDigitChars 10 digits 0
    if n ≤ most then some n else none

/-- A number that may be missing: nothing at all where it is. -/
def field (o : Option Nat) : Text := (o.map decimal).getD []

/-- The text before and after the first separator. -/
def splitOnce (c : Char) : Text → Option (Text × Text)
  | [] => none
  | d :: s => if d = c then some ([], s) else (splitOnce c s).map fun r => (d :: r.1, r.2)

/-- What is left of a text that ends in a character. -/
def dropLast? (c : Char) (s : Text) : Option Text :=
  if s.getLast? = some c then some s.dropLast else none

/-- What is left of a text that begins with another. -/
def dropFirst? (lead s : Text) : Option Text :=
  if lead.isPrefixOf s then some (s.drop lead.length) else none

/-- A numeral with no sign and no leading zero. -/
def Plain (s : Text) : Prop := s.head? ≠ some '+' ∧ (s.head? = some '0' → s = ['0'])

instance decidablePlain (s : Text) : Decidable (Plain s) := inferInstanceAs (Decidable (_ ∧ _))

/-- What holds of the characters of a text is checked along the text. -/
theorem forall_mem {P : Char → Prop} [DecidablePred P] (h : (s.all fun c => decide (P c)) = true) :
    ∀ c ∈ s, P c := by
  intro c hc
  exact of_decide_eq_true (List.all_eq_true.mp h c hc)

theorem isDigit_of_mem_decimal (h : c ∈ decimal n) : c.isDigit = true :=
  Nat.isDigit_of_mem_toDigits (by decide) (by decide) h

theorem decimal_ne_nil (n : Nat) : decimal n ≠ [] := Nat.toDigits_ne_nil

theorem not_mem_decimal (hc : c.isDigit = false) (n : Nat) : c ∉ decimal n := by
  intro h
  rw [isDigit_of_mem_decimal h] at hc
  cases hc

theorem signless : ∀ s : Text, (∀ c ∈ s, c.isDigit = true) → (match s with
    | '+' :: rest => rest
    | _ => s) = s := by
  intro s hd
  split
  · exact absurd (hd '+' List.mem_cons_self) (by decide)
  · rfl

/-- Digits without a sign are read as the number they spell. -/
theorem parseNat_digits (hs : s ≠ []) (hd : ∀ c ∈ s, c.isDigit = true)
    (h : Nat.ofDigitChars 10 s 0 ≤ most) : parseNat most s = some (Nat.ofDigitChars 10 s 0) := by
  have hall : s.all Char.isDigit = true := List.all_eq_true.mpr hd
  simp only [parseNat, signless s hd, hall, List.isEmpty_eq_false_iff.mpr hs, h, Bool.not_true,
    Bool.or_false, if_true, Bool.false_eq_true, if_false]

theorem parseNat_decimal (h : n ≤ most) : parseNat most (decimal n) = some n := by
  have hval : Nat.ofDigitChars 10 (decimal n) 0 = n := Nat.ofDigitChars_ten_toDigits
  have hread := @parseNat_digits (decimal n) most (decimal_ne_nil n)
    (fun c hc => isDigit_of_mem_decimal hc) (by rwa [hval])
  rwa [hval] at hread

theorem decimal_inj {m n : Nat} (h : decimal m = decimal n) : m = n := by
  have hval : ∀ k, Nat.ofDigitChars 10 (decimal k) 0 = k := fun _ => Nat.ofDigitChars_ten_toDigits
  rw [← hval m, h, hval]

theorem dropLast?_append (c : Char) (s : Text) : dropLast? c (s ++ [c]) = some s := by
  simp [dropLast?]

theorem dropLast?_eq_none (h : s.getLast? ≠ some c) : dropLast? c s = none := by
  simp [dropLast?, h]

theorem dropFirst?_append (lead s : Text) : dropFirst? lead (lead ++ s) = some s := by
  simp [dropFirst?]

theorem decimal_eq_if (n : Nat) :
    decimal n = if n < 10 then [n.digitChar] else decimal (n / 10) ++ [(n % 10).digitChar] :=
  Nat.toDigits_eq_if (by decide)

/-- Only the numeral of zero begins with a zero. -/
theorem eq_zero_of_head_decimal (h : (decimal n).head? = some '0') : n = 0 := by
  induction n using Nat.strongRecOn with
  | ind n ih =>
      rw [decimal_eq_if] at h
      by_cases hn : n < 10
      · simpa [if_pos hn] using h
      · rw [if_neg hn, List.head?_append_of_ne_nil _ (decimal_ne_nil _)] at h
        have hzero := ih (n / 10) (by omega) h
        omega

theorem plain_decimal (n : Nat) : Plain (decimal n) := by
  constructor
  · intro h
    exact not_mem_decimal (by decide) n (List.mem_of_mem_head? h)
  · intro h
    rw [eq_zero_of_head_decimal h]
    rfl

/-- A digit is the numeral of a number below ten. -/
theorem exists_digit (h : c.isDigit = true) : ∃ d < 10, c = d.digitChar := by
  simp only [Char.isDigit, Bool.and_eq_true, decide_eq_true_eq, ge_iff_le, UInt32.le_iff_toNat_le] at h
  have hlow : 48 ≤ c.toNat := h.1
  have hhigh : c.toNat ≤ 57 := h.2
  refine ⟨c.toNat - 48, by omega, ?_⟩
  apply Char.toNat_inj.mp
  rw [Nat.toNat_digitChar_of_lt_ten (by omega)]
  omega

/-- A plain numeral is the numeral of the number it spells. -/
theorem decimal_ofDigitChars (hs : s ≠ []) (hd : ∀ c ∈ s, c.isDigit = true) (hp : Plain s) :
    decimal (Nat.ofDigitChars 10 s 0) = s := by
  -- Read from the end: the digits before the last one are a plain numeral of a positive number.
  induction s using List.reverseRecOn with
  | nil => exact absurd rfl hs
  | append_singleton t c ih =>
      obtain ⟨d, hlt, rfl⟩ := exists_digit (hd c (by simp))
      have hlast : decimal d = [d.digitChar] := Nat.toDigits_of_lt_base hlt
      rw [Nat.ofDigitChars_append, Nat.ofDigitChars_cons_digitChar_of_lt_ten hlt, Nat.ofDigitChars_nil]
      by_cases ht : t = []
      · simpa [ht] using hlast
      · have hhead : t.head? ≠ some '0' := by
          intro h
          have hone := hp.2 (by rw [List.head?_append_of_ne_nil _ ht, h])
          simp [List.append_eq_singleton_iff, ht] at hone
        have hplain : Plain t := by
          refine ⟨?_, fun h => absurd h hhead⟩
          rw [← List.head?_append_of_ne_nil _ ht]
          exact hp.1
        have hread := ih ht (fun c hc => hd c (List.mem_append_left _ hc)) hplain
        have hpos : 0 < Nat.ofDigitChars 10 t 0 := by
          apply Nat.pos_of_ne_zero
          intro hzero
          rw [hzero] at hread
          exact hhead (by rw [← hread]; rfl)
        rw [decimal, ← Nat.toDigits_append_toDigits (by decide) hpos hlt]
        exact congrArg₂ _ hread hlast

/-- A text that spells a number is digits, perhaps after a plus sign. -/
theorem parseNat_some (h : parseNat most s = some n) :
    ∃ digits, (s = '+' :: digits ∨ s = digits) ∧ digits ≠ [] ∧ (∀ c ∈ digits, c.isDigit = true) ∧
      n = Nat.ofDigitChars 10 digits 0 ∧ n ≤ most := by
  simp only [parseNat] at h
  generalize hsign : (match s with
    | '+' :: rest => rest
    | _ => s) = digits at h
  have hs : s = '+' :: digits ∨ s = digits := by
    split at hsign
    · exact .inl (by rw [hsign])
    · exact .inr hsign
  by_cases hd : (digits.isEmpty || !digits.all Char.isDigit) = true
  · simp [hd] at h
  · simp only [hd, Bool.false_eq_true, if_false, Option.ite_none_right_eq_some, Option.some.injEq] at h
    simp only [Bool.or_eq_true, List.isEmpty_iff, Bool.not_eq_true', not_or, Bool.not_eq_false,
      List.all_eq_true] at hd
    exact ⟨digits, hs, hd.1, hd.2, h.2.symm, h.2 ▸ h.1⟩

/-- A text that spells a number is its numeral exactly when it is plain. -/
theorem eq_decimal_iff (h : parseNat most s = some n) : s = decimal n ↔ Plain s := by
  obtain ⟨digits, hs, hne, hd, rfl, -⟩ := parseNat_some h
  constructor
  · intro heq
    rw [heq]
    exact plain_decimal _
  · intro hp
    rcases hs with rfl | rfl
    · exact absurd rfl hp.1
    · exact (decimal_ofDigitChars hne hd hp).symm

/-! ## Numerals of a width -/

theorem isDigit_of_mem_padded {width : Nat} (h : c ∈ padded width n) : c.isDigit = true := by
  rcases List.mem_append.mp h with h | h
  · rw [List.eq_of_mem_replicate h]
    rfl
  · exact isDigit_of_mem_decimal h

theorem not_mem_padded (hc : c.isDigit = false) (width n : Nat) : c ∉ padded width n := by
  intro h
  rw [isDigit_of_mem_padded h] at hc
  cases hc

theorem ofDigitChars_padded (width n : Nat) : Nat.ofDigitChars 10 (padded width n) 0 = n := by
  have hval : Nat.ofDigitChars 10 (decimal n) 0 = n := Nat.ofDigitChars_ten_toDigits
  rw [padded, Nat.ofDigitChars_append, Nat.ofDigitChars_replicate_zero, Nat.mul_zero, hval]

theorem parseNat_padded (width : Nat) (h : n ≤ most) : parseNat most (padded width n) = some n := by
  have hne : padded width n ≠ [] := List.append_ne_nil_of_right_ne_nil _ (decimal_ne_nil n)
  have hread := @parseNat_digits (padded width n) most hne (fun c hc => isDigit_of_mem_padded hc)
    (by rwa [ofDigitChars_padded])
  rwa [ofDigitChars_padded] at hread

theorem length_padded {width : Nat} (hpos : 0 < width) (h : n < 10 ^ width) :
    (padded width n).length = width := by
  have hle : (decimal n).length ≤ width := (Nat.length_toDigits_le_iff (by decide) hpos).mpr h
  rw [padded, List.length_append, List.length_replicate, Nat.sub_add_cancel hle]

theorem ofDigitChars_lt (hd : ∀ c ∈ s, c.isDigit = true) : Nat.ofDigitChars 10 s 0 < 10 ^ s.length := by
  induction s using List.reverseRecOn with
  | nil => decide
  | append_singleton t c ih =>
      obtain ⟨d, hlt, rfl⟩ := exists_digit (hd c (by simp))
      have hread := ih fun c hc => hd c (List.mem_append_left _ hc)
      rw [Nat.ofDigitChars_append, Nat.ofDigitChars_cons_digitChar_of_lt_ten hlt, Nat.ofDigitChars_nil,
        List.length_append, List.length_singleton, Nat.pow_succ]
      omega

/-- Digits are the numeral of what they spell, filled up to their number. -/
theorem padded_ofDigitChars (hs : s ≠ []) (hd : ∀ c ∈ s, c.isDigit = true) :
    padded s.length (Nat.ofDigitChars 10 s 0) = s := by
  -- Read from the end: before the last digit stand zeros only, or the numeral of a tenth.
  induction s using List.reverseRecOn with
  | nil => exact absurd rfl hs
  | append_singleton t c ih =>
      obtain ⟨d, hlt, rfl⟩ := exists_digit (hd c (by simp))
      have hlast : decimal d = [d.digitChar] := Nat.toDigits_of_lt_base hlt
      rw [Nat.ofDigitChars_append, Nat.ofDigitChars_cons_digitChar_of_lt_ten hlt, Nat.ofDigitChars_nil,
        List.length_append, List.length_singleton]
      by_cases ht : t = []
      · simp [ht, padded, hlast]
      · have hread := ih ht fun c hc => hd c (List.mem_append_left _ hc)
        have hlen := List.length_pos_iff.mpr ht
        generalize Nat.ofDigitChars 10 t 0 = n at hread ⊢
        rcases Nat.eq_zero_or_pos n with rfl | hpos
        · have hzero : decimal 0 = ['0'] := rfl
          have hzeros : List.replicate t.length '0' = t := by
            rw [padded, hzero, List.length_singleton, ← List.replicate_succ',
              Nat.sub_add_cancel hlen] at hread
            exact hread
          rw [padded, Nat.mul_zero, Nat.zero_add, hlast, List.length_singleton, Nat.add_sub_cancel, hzeros]
        · have hdecimal : decimal (10 * n + d) = decimal n ++ [d.digitChar] := by
            rw [decimal, ← Nat.toDigits_append_toDigits (by decide) hpos hlt]
            exact congrArg (decimal n ++ ·) hlast
          rw [padded, hdecimal, List.length_append, List.length_singleton, Nat.add_sub_add_right,
            ← List.append_assoc]
          exact congrArg (· ++ [d.digitChar]) hread

/-! ## Fields -/

/-- What is in no part is not in the parts joined by something else. -/
theorem not_mem_intercalate {d : Char} {parts : List Text} (hcd : c ≠ d) (h : ∀ part ∈ parts, c ∉ part) :
    c ∉ [d].intercalate parts := by
  induction parts with
  | nil => simp
  | cons part parts ih =>
      obtain ⟨hpart, hparts⟩ := List.forall_mem_cons.mp h
      cases parts with
      | nil => simpa [List.intercalate] using hpart
      | cons next parts =>
          have hrest := ih hparts
          rw [List.intercalate_cons_cons]
          simp [hpart, hcd, hrest]

@[simp] theorem field_some (n : Nat) : field (some n) = decimal n := rfl

@[simp] theorem field_none : field none = [] := rfl

theorem not_mem_field (hc : c.isDigit = false) (o : Option Nat) : c ∉ field o := by
  cases o with
  | none => simp
  | some n => exact not_mem_decimal hc n

/-- A field that may be missing is read back. -/
theorem parseNat_field {o : Option Nat} (h : ∀ n ∈ o, n ≤ most) : parseNat most (field o) = o := by
  cases o with
  | none => rfl
  | some n => exact parseNat_decimal (h n rfl)

/-- Fields joined by something that is no digit are told apart. -/
theorem splitOn_fields (hc : c.isDigit = false) {os : List (Option Nat)} (h : os ≠ []) :
    ([c].intercalate (os.map field)).splitOn c = os.map field := by
  apply List.splitOn_intercalate
  · intro part hpart
    obtain ⟨o, -, rfl⟩ := List.mem_map.mp hpart
    exact not_mem_field hc o
  · simpa using h

/-- Fields joined by something that is no digit are read back. -/
theorem parse_fields (hc : c.isDigit = false) {os : List (Option Nat)} (h : os ≠ [])
    (hmost : ∀ o ∈ os, ∀ n ∈ o, n ≤ most) :
    (([c].intercalate (os.map field)).splitOn c).map (parseNat most) = os := by
  rw [splitOn_fields hc h, List.map_map]
  have hread : os.map (parseNat most ∘ field) = os.map id :=
    List.map_congr_left fun o ho => parseNat_field (hmost o ho)
  rw [hread, List.map_id]

/-- Numbers joined by something that is no digit are read back. -/
theorem parse_numbers (hc : c.isDigit = false) {ns : List Nat} (h : ns ≠ []) (hmost : ∀ n ∈ ns, n ≤ most) :
    (([c].intercalate (ns.map decimal)).splitOn c).map (parseNat most) = ns.map some := by
  have hfields : ns.map decimal = (ns.map some).map field := by simp
  rw [hfields]
  apply parse_fields hc
  · simpa using h
  · simpa using hmost

/-- Numbers joined by something that is no digit are told apart. -/
theorem splitOn_numbers (hc : c.isDigit = false) {ns : List Nat} (h : ns ≠ []) :
    ([c].intercalate (ns.map decimal)).splitOn c = ns.map decimal := by
  apply List.splitOn_intercalate
  · intro part hpart
    obtain ⟨n, -, rfl⟩ := List.mem_map.mp hpart
    exact not_mem_decimal hc n
  · simpa using h

/-- The text of the empty list is no number's, so lists of numbers are told apart by their texts. -/
theorem numbers_inj (hc : c.isDigit = false) {ns ms : List Nat}
    (h : [c].intercalate (ns.map decimal) = [c].intercalate (ms.map decimal)) : ns = ms := by
  have hempty : ∀ ks : List Nat, ks ≠ [] → [c].intercalate (ks.map decimal) ≠ [] := by
    intro ks hks hnil
    have hsplit := splitOn_numbers hc hks
    rw [hnil, List.splitOn_nil] at hsplit
    have hmem : [] ∈ ks.map decimal := by simp [← hsplit]
    obtain ⟨k, -, hk⟩ := List.mem_map.mp hmem
    exact decimal_ne_nil k hk
  by_cases hns : ns = []
  · subst hns
    by_contra hne
    exact hempty ms (Ne.symm hne) h.symm
  · have hms : ms ≠ [] := by
      rintro rfl
      exact hempty ns hns h
    have hmap : ns.map decimal = ms.map decimal := by
      rw [← splitOn_numbers hc hns, h, splitOn_numbers hc hms]
    exact List.map_injective_iff.mpr (fun _ _ => decimal_inj) hmap

theorem splitOnce_append (h : c ∉ s) : splitOnce c (s ++ c :: t) = some (s, t) := by
  induction s with
  | nil => simp [splitOnce]
  | cons d s ih =>
      simp only [List.mem_cons, not_or] at h
      simp [splitOnce, Ne.symm h.1, ih h.2]

theorem splitOnce_eq_none (h : c ∉ s) : splitOnce c s = none := by
  induction s with
  | nil => rfl
  | cons d s ih =>
      simp only [List.mem_cons, not_or] at h
      simp [splitOnce, Ne.symm h.1, ih h.2]

/-- What is in a part is in the parts joined. -/
theorem mem_intercalate {d : Char} {parts : List Text} (hs : s ∈ parts) (hc : c ∈ s) :
    c ∈ [d].intercalate parts := by
  induction parts with
  | nil => cases hs
  | cons part parts ih =>
      cases parts with
      | nil =>
          obtain rfl := List.mem_singleton.mp hs
          simpa [List.intercalate] using hc
      | cons next parts =>
          rw [List.intercalate_cons_cons]
          rcases List.mem_cons.mp hs with rfl | hs
          · simp [hc]
          · simp [ih hs]

/-- Splitting makes nothing up. -/
theorem mem_of_mem_splitOn {d : Char} (hs : s ∈ t.splitOn d) (hc : c ∈ s) : c ∈ t := by
  have hjoin : [d].intercalate (t.splitOn d) = t := List.intercalate_splitOn d
  rw [← hjoin]
  exact mem_intercalate hs hc

theorem eq_append_of_splitOnce {a b : Text} (h : splitOnce c s = some (a, b)) : s = a ++ c :: b := by
  induction s generalizing a with
  | nil => cases h
  | cons d s ih =>
      simp only [splitOnce] at h
      split at h
      · rename_i hd
        cases h
        rw [hd]
        rfl
      · obtain ⟨⟨a', b'⟩, hr, heq⟩ := Option.map_eq_some_iff.mp h
        cases heq
        rw [ih hr]
        rfl

end Text

end Gavel
