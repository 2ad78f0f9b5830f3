import Mathlib.Data.Nat.ModEq
import Mathlib.Data.Nat.Prime.Basic
import Mathlib.Logic.Function.Basic

/-!
# Digests by absorption

A fold over a list whose steps are one-to-one in what was absorbed so far keeps different beginnings
apart, and one whose steps are also one-to-one in the element shows the change of any one element.
-/

namespace Gavel.Digests

variable {σ α : Type} {step : σ → α → σ} {l : List α} {i : Nat} {a : α}

/-- Whatever is absorbed next, different states stay different. -/
theorem foldl_injective (hstate : ∀ a, Function.Injective fun s => step s a) (l : List α) :
    Function.Injective fun s => l.foldl step s := by
  induction l with
  | nil => exact Function.injective_id
  | cons a l ih => exact ih.comp (hstate a)

/-- One changed element leads to another digest. -/
theorem foldl_set_ne (hstate : ∀ a, Function.Injective fun s => step s a)
    (helement : ∀ s, Function.Injective (step s)) (hi : i < l.length) (hne : a ≠ l[i]) (s : σ) :
    (l.set i a).foldl step s ≠ l.foldl step s := by
  induction l generalizing i s with
  | nil => exact absurd hi (Nat.not_lt_zero i)
  | cons b l ih =>
      cases i with
      | zero =>
          -- From the changed element on, the two digests absorb the same.
          intro heq
          exact hne (helement s (foldl_injective hstate l heq))
      | succ i => exact ih (Nat.lt_of_succ_lt_succ hi) hne (step s b)

/-! ## Words -/

theorem xor_right_injective (w : UInt64) : Function.Injective fun v => w ^^^ v := by
  intro v v' heq
  have := congrArg (w ^^^ ·) heq
  simpa only [← UInt64.xor_assoc, UInt64.xor_self, UInt64.zero_xor] using this

theorem xor_left_injective (w : UInt64) : Function.Injective fun v => v ^^^ w := by
  intro v v' heq
  refine xor_right_injective w ?_
  simpa only [UInt64.xor_comm w] using heq

/-- An odd number has an inverse modulo a power of two. -/
theorem mul_odd_injective {k : UInt64} (h : k.toNat % 2 = 1) : Function.Injective fun v => v * k := by
  intro v v' heq
  have hcoprime : Nat.gcd (2 ^ 64) k.toNat = 1 :=
    Nat.Coprime.pow_left 64 ((Nat.Prime.coprime_iff_not_dvd Nat.prime_two).mpr (by omega))
  have hmod : v.toNat * k.toNat ≡ v'.toNat * k.toNat [MOD 2 ^ 64] := by
    have := congrArg UInt64.toNat heq
    simpa only [UInt64.toNat_mul, Nat.ModEq] using this
  have := Nat.ModEq.cancel_right_of_coprime hcoprime hmod
  refine UInt64.toNat_inj.mp ?_
  rwa [Nat.ModEq, Nat.mod_eq_of_lt v.toNat_lt, Nat.mod_eq_of_lt v'.toNat_lt] at this

end Gavel.Digests
