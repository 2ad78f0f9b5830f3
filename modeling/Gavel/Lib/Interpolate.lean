import Mathlib.Algebra.Order.Ring.Nat

/-!
# Straight lines between whole numbers

The line through two points, read upwards with the result rounded down and read backwards with the
result rounded up. Neither leaves the segment, and both are monotone.
-/

namespace Gavel.Interpolate

variable {lo hi a b p q v w : Nat}

/-- The height of the line from `(lo, a)` to `(hi, b)` over `p`, rounded down. -/
def floorAt (lo hi a b p : Nat) : Nat := a + (b - a) * (p - lo) / (hi - lo)

/-- Where the line from `(lo, a)` to `(hi, b)` has the height `v`, rounded up; a level line has it at its
beginning. -/
def ceilAt (lo hi a b v : Nat) : Nat :=
  if b - a = 0 then lo else lo + ((hi - lo) * (v - a) + (b - a) - 1) / (b - a)

theorem le_floorAt : a ≤ floorAt lo hi a b p := Nat.le_add_right _ _

theorem floorAt_lo : floorAt lo hi a b lo = a := by
  simp [floorAt]

theorem floorAt_le (hab : a ≤ b) (hp : p ≤ hi) : floorAt lo hi a b p ≤ b := by
  have hpart : (b - a) * (p - lo) / (hi - lo) ≤ b - a := by
    apply Nat.div_le_of_le_mul
    rw [Nat.mul_comm (hi - lo)]
    exact Nat.mul_le_mul_left _ (Nat.sub_le_sub_right hp lo)
  rw [floorAt]
  omega

theorem floorAt_hi (hlo : lo < hi) (hab : a ≤ b) : floorAt lo hi a b hi = b := by
  rw [floorAt, Nat.mul_div_cancel _ (by omega)]
  omega

theorem floorAt_mono (h : p ≤ q) : floorAt lo hi a b p ≤ floorAt lo hi a b q := by
  apply Nat.add_le_add_left
  exact Nat.div_le_div_right (Nat.mul_le_mul_left _ (Nat.sub_le_sub_right h lo))

theorem le_ceilAt : lo ≤ ceilAt lo hi a b v := by
  rw [ceilAt]
  split
  · exact Nat.le_refl _
  · exact Nat.le_add_right _ _

theorem ceilAt_le (hlo : lo ≤ hi) (hv : v ≤ b) : ceilAt lo hi a b v ≤ hi := by
  rw [ceilAt]
  split
  · exact hlo
  · rename_i hspan
    have hmul : (hi - lo) * (v - a) ≤ (hi - lo) * (b - a) :=
      Nat.mul_le_mul_left _ (Nat.sub_le_sub_right hv a)
    have hpart : ((hi - lo) * (v - a) + (b - a) - 1) / (b - a) < hi - lo + 1 := by
      apply Nat.div_lt_of_lt_mul
      rw [Nat.mul_add, Nat.mul_one, Nat.mul_comm (b - a)]
      omega
    omega

/-- Above the beginning of the line its place is to the right of it. -/
theorem lt_ceilAt (hlo : lo < hi) (hv : a < v) (hvb : v ≤ b) : lo < ceilAt lo hi a b v := by
  rw [ceilAt, if_neg (by omega)]
  have hone : 1 ≤ (hi - lo) * (v - a) := Nat.mul_pos (by omega) (by omega)
  have hpart : 1 ≤ ((hi - lo) * (v - a) + (b - a) - 1) / (b - a) := by
    rw [Nat.le_div_iff_mul_le (by omega)]
    omega
  omega

theorem ceilAt_mono (h : v ≤ w) : ceilAt lo hi a b v ≤ ceilAt lo hi a b w := by
  rw [ceilAt, ceilAt]
  split
  · exact Nat.le_refl _
  · have hmul : (hi - lo) * (v - a) ≤ (hi - lo) * (w - a) :=
      Nat.mul_le_mul_left _ (Nat.sub_le_sub_right h a)
    have hpart : ((hi - lo) * (v - a) + (b - a) - 1) / (b - a) ≤
        ((hi - lo) * (w - a) + (b - a) - 1) / (b - a) := Nat.div_le_div_right (by omega)
    omega

end Gavel.Interpolate
