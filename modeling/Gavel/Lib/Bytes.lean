import Mathlib.Algebra.Order.Ring.Nat
import Mathlib.Tactic.NormNum

/-!
# Numbers as bytes

The four big-endian bytes of a 32-bit number, and variable-length numbers: seven bits to a byte, the
lowest first, every byte but the last with its high bit set.
-/

namespace Gavel.Bytes

/-- `u32::to_be_bytes` -/
def toBeBytes (n : Nat) : List UInt8 :=
  [(n / 2 ^ 24).toUInt8, (n / 2 ^ 16).toUInt8, (n / 2 ^ 8).toUInt8, n.toUInt8]

/-- `u32::from_be_bytes` -/
def fromBeBytes (bytes : List UInt8) : Nat := bytes.foldl (fun n byte => n * 2 ^ 8 + byte.toNat) 0

@[simp] theorem toBeBytes_length (n : Nat) : (toBeBytes n).length = 4 := rfl

theorem fromBeBytes_toBeBytes {n : Nat} (h : n < 2 ^ 32) : fromBeBytes (toBeBytes n) = n := by
  simp only [fromBeBytes, toBeBytes, List.foldl_cons, List.foldl_nil, Nat.toUInt8_eq,
    UInt8.toNat_ofNat', Nat.reducePow] at h ⊢
  omega

/-- A variable-length number. -/
def varint (n : Nat) : List UInt8 :=
  if n < 128 then [n.toUInt8] else (n % 128 + 128).toUInt8 :: varint (n / 128)
termination_by n
decreasing_by omega

theorem varint_of_lt {n : Nat} (h : n < 128) : varint n = [n.toUInt8] := by rw [varint, if_pos h]

/-- Seven bits to a byte. -/
theorem varint_length_le {k n : Nat} (h : n < 128 ^ (k + 1)) : (varint n).length ≤ k + 1 := by
  induction k generalizing n with
  | zero =>
      rw [varint_of_lt (by simpa using h)]
      simp
  | succ k ih =>
      rw [varint]
      split
      · simp
      · have hdiv : n / 128 < 128 ^ (k + 1) := by
          apply Nat.div_lt_of_lt_mul
          rwa [← Nat.pow_succ']
        simpa using ih hdiv

theorem varint_length_le_ten {n : Nat} (h : n < 2 ^ 64) : (varint n).length ≤ 10 := by
  apply varint_length_le
  exact h.trans (by norm_num)

end Gavel.Bytes
