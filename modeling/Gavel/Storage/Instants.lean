import Gavel.Market.Catalog

/-!
# Stored instants

An instant is stored as a signed number and compared as such; one below 2^63 is stored as it is.
-/

namespace Gavel.Storage

open Gavel.Cluster (Millis)
open Gavel.Market

/-- An instant as it is stored. -/
def stored (at' : Millis) : Int := asI64 (at' : Nat)

/-- The greatest of stored instants. -/
def greatestStored (instants : List Millis) : Option Millis :=
  ((instants.map stored).max?).map fun n => (n % 2 ^ 64).toNat

variable {a b : Millis}

theorem stored_eq (ha : a < 2 ^ 63) : stored a = (a : Nat) :=
  asI64_eq (Int.le_trans (by decide) (Int.natCast_nonneg a)) (Int.ofNat_lt.mpr ha)

theorem stored_le (ha : a < 2 ^ 63) (hb : b < 2 ^ 63) : stored a ≤ stored b ↔ a ≤ b := by
  rw [stored_eq ha, stored_eq hb]
  exact Int.ofNat_le

theorem stored_lt (ha : a < 2 ^ 63) (hb : b < 2 ^ 63) : stored a < stored b ↔ a < b := by
  rw [stored_eq ha, stored_eq hb]
  exact Int.ofNat_lt

end Gavel.Storage
