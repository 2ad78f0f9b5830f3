import Mathlib.Data.Nat.Prime.Basic
import Mathlib.Data.Nat.Sqrt

/-!
# Machine arithmetic

Operations on unsigned words that fail on overflow, and the trial division by the numbers next to the
multiples of six, which needs no other operation.
-/

namespace Gavel

/-! ## Checked operations -/

/-- Operations none of which fails give all of their results. -/
theorem mapM_eq_map {α β : Type} {f : α → Option β} {g : α → β} {l : List α}
    (h : ∀ a ∈ l, f a = some (g a)) : l.mapM f = some (l.map g) := by
  induction l with
  | nil => rfl
  | cons a l ih =>
      rw [List.mapM_cons, h a (by simp), ih fun b hb => h b (by simp [hb])]
      rfl

/-- The sum, if it fits a word of this width. -/
def checkedAdd (width a b : Nat) : Option Nat := if a + b < 2 ^ width then some (a + b) else none

/-- The product, if it fits a word of this width. -/
def checkedMul (width a b : Nat) : Option Nat := if a * b < 2 ^ width then some (a * b) else none

section Checked

variable {width a b c : Nat}

theorem checkedAdd_eq (h : a + b < 2 ^ width) : checkedAdd width a b = some (a + b) := if_pos h

theorem checkedMul_eq (h : a * b < 2 ^ width) : checkedMul width a b = some (a * b) := if_pos h

/-- A sum that does not fail is the wrapped one. -/
theorem wrap_of_checkedAdd (h : checkedAdd width a b = some c) : (a + b) % 2 ^ width = c := by
  unfold checkedAdd at h
  split at h
  · cases h
    exact Nat.mod_eq_of_lt ‹_›
  · cases h

theorem wrap_of_checkedMul (h : checkedMul width a b = some c) : a * b % 2 ^ width = c := by
  unfold checkedMul at h
  split at h
  · cases h
    exact Nat.mod_eq_of_lt ‹_›
  · cases h

end Checked

/-! ## Trial division -/

/-- No prime below the bound divides the number. -/
def Rough (n d : Nat) : Prop := ∀ p, p.Prime → p ∣ n → d ≤ p

section TrialDivision

variable {n d : Nat}

/-- A number no prime divides up to its square root is prime. -/
theorem Rough.prime (h : Rough n d) (hn : 2 ≤ n) (hsquare : n < d * d) : n.Prime := by
  by_contra hcomposite
  have hfac : n.minFac.Prime := Nat.minFac_prime (by omega)
  have hle : d ≤ n.minFac := h _ hfac (Nat.minFac_dvd n)
  have hsq : n.minFac * n.minFac ≤ n := by
    have := Nat.minFac_sq_le_self (by omega) hcomposite
    rwa [pow_two] at this
  have := Nat.mul_le_mul hle hle
  omega

/-- A divisor up to the square root, other than one, shows that a number is not prime. -/
theorem not_prime_of_divisor {e : Nat} (he : 2 ≤ e) (hdvd : e ∣ n) (hlt : e < n) : ¬ n.Prime := by
  intro hp
  rcases hp.eq_one_or_self_of_dvd e hdvd with h | h <;> omega

/-- A number odd and no multiple of three has no prime factor below five. -/
theorem rough_five (h2 : n % 2 ≠ 0) (h3 : n % 3 ≠ 0) : Rough n 5 := by
  intro p hp hdvd
  have hpos := hp.two_le
  by_contra hlt
  have hcases : p = 2 ∨ p = 3 ∨ p = 4 := by omega
  rcases hcases with rfl | rfl | rfl
  · exact h2 (Nat.mod_eq_zero_of_dvd hdvd)
  · exact h3 (Nat.mod_eq_zero_of_dvd hdvd)
  · exact absurd hp (by decide)

/-- Of six numbers in a row from one below a multiple of six only two are no multiples of two or
three. -/
theorem Rough.step (h : Rough n d) (h2 : n % 2 ≠ 0) (h3 : n % 3 ≠ 0) (hd : d % 6 = 5)
    (hfirst : n % d ≠ 0) (hsecond : n % (d + 2) ≠ 0) : Rough n (d + 6) := by
  intro p hp hdvd
  have hle := h p hp hdvd
  by_contra hlt
  have hodd : p % 2 ≠ 0 := fun hp2 =>
    h2 (Nat.mod_eq_zero_of_dvd ((Nat.dvd_of_mod_eq_zero hp2).trans hdvd))
  have hthree : p % 3 ≠ 0 := fun hp3 =>
    h3 (Nat.mod_eq_zero_of_dvd ((Nat.dvd_of_mod_eq_zero hp3).trans hdvd))
  have hcases : p = d ∨ p = d + 2 := by omega
  rcases hcases with rfl | rfl
  · exact hfirst (Nat.mod_eq_zero_of_dvd hdvd)
  · exact hsecond (Nat.mod_eq_zero_of_dvd hdvd)

end TrialDivision

end Gavel
