import Gavel.Lib.Text
import Mathlib.Algebra.Order.Floor.Ring
import Mathlib.Data.Rat.Floor
import Mathlib.Tactic.FieldSimp
import Mathlib.Tactic.Linarith
import Mathlib.Tactic.Positivity
import Mathlib.Tactic.Ring

/-!
# Decimal fractions

The digits after a decimal point as a number below one. Cut after some places, it is rounded half up by
the next digit alone.
-/

namespace Gavel.Text

variable {s t : Text} {c : Char} {k : Nat}

/-- What digits after the point are worth. -/
def fraction (s : Text) : ℚ := (Nat.ofDigitChars 10 s 0 : ℚ) / 10 ^ s.length

/-- The first digits, filled up with zeros to a number of places. -/
def places (k : Nat) (s : Text) : Text := s.take k ++ List.replicate (k - (s.take k).length) '0'

@[simp] theorem fraction_nil : fraction [] = 0 := by simp [fraction]

theorem fraction_nonneg (s : Text) : 0 ≤ fraction s := by
  unfold fraction
  positivity

theorem fraction_lt_one (hd : ∀ c ∈ s, c.isDigit = true) : fraction s < 1 := by
  have hlt : (Nat.ofDigitChars 10 s 0 : ℚ) < 10 ^ s.length := by exact_mod_cast ofDigitChars_lt hd
  rw [fraction, div_lt_one (by positivity)]
  exact hlt

theorem fraction_append (s t : Text) : fraction (s ++ t) = fraction s + fraction t / 10 ^ s.length := by
  have hvalue : (Nat.ofDigitChars 10 (s ++ t) 0 : ℚ) =
      10 ^ t.length * Nat.ofDigitChars 10 s 0 + Nat.ofDigitChars 10 t 0 := by
    rw [Nat.ofDigitChars_append, Nat.ofDigitChars_eq_ofDigitChars_zero]
    push_cast
    rfl
  rw [fraction, fraction, fraction, hvalue, List.length_append, pow_add]
  field_simp

theorem length_places (k : Nat) (s : Text) : (places k s).length = k := by
  have hle : (s.take k).length ≤ k := List.length_take_le k s
  rw [places, List.length_append, List.length_replicate, Nat.add_sub_cancel' hle]

theorem isDigit_of_mem_places (hd : ∀ c ∈ s, c.isDigit = true) (h : c ∈ places k s) : c.isDigit = true := by
  rcases List.mem_append.mp h with h | h
  · exact hd c (List.mem_of_mem_take h)
  · rw [List.eq_of_mem_replicate h]
    rfl

/-- The places are read as a number. -/
theorem parseNat_places {most : Nat} (hd : ∀ c ∈ s, c.isDigit = true) (hk : 0 < k)
    (hmost : 10 ^ k ≤ most + 1) :
    parseNat most (places k s) = some (Nat.ofDigitChars 10 (places k s) 0) := by
  have hdigits : ∀ c ∈ places k s, c.isDigit = true := fun c hc => isDigit_of_mem_places hd hc
  have hlt := ofDigitChars_lt hdigits
  rw [length_places] at hlt
  refine parseNat_digits (List.ne_nil_of_length_pos ?_) hdigits (by omega)
  rw [length_places]
  exact hk

theorem ofDigitChars_places (k : Nat) (s : Text) :
    (Nat.ofDigitChars 10 (places k s) 0 : ℚ) = 10 ^ k * fraction (s.take k) := by
  have hle : (s.take k).length ≤ k := List.length_take_le k s
  have hpow : (10 : ℚ) ^ k = 10 ^ (k - (s.take k).length) * 10 ^ (s.take k).length := by
    rw [← pow_add, Nat.sub_add_cancel hle]
  rw [places, Nat.ofDigitChars_append, Nat.ofDigitChars_replicate_zero, fraction, hpow]
  push_cast
  field_simp

/-- The places that are kept, and what the others are worth of the last. -/
theorem pow_mul_fraction (k : Nat) (s : Text) :
    10 ^ k * fraction s = Nat.ofDigitChars 10 (places k s) 0 + fraction (s.drop k) := by
  rw [ofDigitChars_places]
  rcases Nat.le_total k s.length with h | h
  · have hlength : (s.take k).length = k := List.length_take_of_le h
    conv_lhs => rw [← List.take_append_drop k s, fraction_append, hlength]
    field_simp
  · rw [List.take_of_length_le h, List.drop_of_length_le h, fraction_nil, add_zero]

/-- Half of the place before them is reached by the first digit. -/
theorem half_le_fraction_iff (hd : ∀ c ∈ s, c.isDigit = true) :
    1 / 2 ≤ fraction s ↔ s.head?.any ('5' ≤ ·) = true := by
  cases s with
  | nil => simp
  | cons c s =>
      obtain ⟨d, hlt, rfl⟩ := exists_digit (hd c List.mem_cons_self)
      have hrest := ofDigitChars_lt fun c hc => hd c (List.mem_cons_of_mem _ hc)
      have hdigit : ∀ d < 10, ('5' ≤ d.digitChar) ↔ 5 ≤ d := by decide
      have hvalue : Nat.ofDigitChars 10 (d.digitChar :: s) 0 =
          10 ^ s.length * d + Nat.ofDigitChars 10 s 0 := by
        rw [Nat.ofDigitChars_cons_digitChar_of_lt_ten hlt, Nat.ofDigitChars_eq_ofDigitChars_zero]
        simp
      have hcross : 1 / 2 ≤ fraction (d.digitChar :: s) ↔
          10 ^ (s.length + 1) ≤ 2 * Nat.ofDigitChars 10 (d.digitChar :: s) 0 := by
        rw [fraction, List.length_cons, div_le_div_iff₀ (by positivity) (by positivity), one_mul]
        norm_cast
        rw [mul_comm]
      rw [hcross, hvalue, pow_succ, List.head?_cons, Option.any_some, decide_eq_true_eq, hdigit d hlt]
      generalize 10 ^ s.length = unit at hrest ⊢
      constructor
      · intro h
        by_contra hlt5
        have : unit * d ≤ unit * 4 := Nat.mul_le_mul_left _ (by omega)
        omega
      · intro h
        have : unit * 5 ≤ unit * d := Nat.mul_le_mul_left _ h
        omega

/-- Rounded half up to some places, a fraction is its first digits, one more if the next is at least five. -/
theorem floor_fraction (hd : ∀ c ∈ s, c.isDigit = true) (k : Nat) :
    ⌊(10 : ℚ) ^ k * fraction s + 1 / 2⌋ =
      (Nat.ofDigitChars 10 (places k s) 0 : ℤ) + if s[k]?.any ('5' ≤ ·) = true then 1 else 0 := by
  have hdrop : ∀ c ∈ s.drop k, c.isDigit = true := fun c hc => hd c (List.mem_of_mem_drop hc)
  have hnext : (s.drop k).head? = s[k]? := List.head?_drop
  have hhalf := half_le_fraction_iff hdrop
  have hlow := fraction_nonneg (s.drop k)
  have hhigh := fraction_lt_one hdrop
  rw [pow_mul_fraction, add_assoc, Int.floor_natCast_add, add_right_inj, ← hnext]
  by_cases hup : (s.drop k).head?.any ('5' ≤ ·) = true
  · rw [if_pos hup, Int.floor_eq_iff]
    have := hhalf.mpr hup
    norm_num
    constructor <;> linarith
  · rw [if_neg hup, Int.floor_eq_iff]
    have := mt hhalf.mp hup
    norm_num
    constructor <;> linarith

end Gavel.Text
