import Gavel.Cluster.Agent
import Gavel.Lib.Digests

/-!
# The integrity check of artifacts

Each round of the digest is one-to-one in the hash so far and in the byte it takes up, so a byte that
is not the one that was sent shows in the digest whatever follows it.
-/

namespace Gavel.Cluster

open Gavel.Digests

/-- One round of the digest. -/
def absorb (hash : UInt64) (byte : UInt8) : UInt64 := (hash ^^^ byte.toUInt64) * 0x1000000001b3

theorem digest_eq (bytes : Bytes) : digest bytes = bytes.foldl absorb 0xcbf29ce484222325 := rfl

theorem toUInt64_injective : Function.Injective UInt8.toUInt64 := by
  intro b b' heq
  have := congrArg UInt64.toNat heq
  exact UInt8.toNat_inj.mp (by simpa only [UInt8.toNat_toUInt64] using this)

theorem multiply_injective : Function.Injective fun v : UInt64 => v * 0x1000000001b3 :=
  mul_odd_injective (by decide)

theorem absorb_hash_injective (byte : UInt8) : Function.Injective fun hash => absorb hash byte :=
  multiply_injective.comp (xor_left_injective byte.toUInt64)

theorem absorb_byte_injective (hash : UInt64) : Function.Injective (absorb hash) :=
  multiply_injective.comp ((xor_right_injective hash).comp toUInt64_injective)

theorem digest_set_ne {bytes : Bytes} {i : Nat} {byte : UInt8} (hi : i < bytes.length)
    (hne : byte ≠ bytes[i]) : digest (bytes.set i byte) ≠ digest bytes :=
  foldl_set_ne absorb_hash_injective absorb_byte_injective hi hne _

/-- A common end hides no difference of the beginnings. -/
theorem digest_append_inj {a b c : Bytes} : digest (a ++ c) = digest (b ++ c) ↔ digest a = digest b := by
  simp only [digest_eq, List.foldl_append]
  exact (foldl_injective absorb_hash_injective c).eq_iff

namespace Artifact

theorem verify_eq_none {a : Artifact} : a.verify = none ↔ Gavel.Cluster.digest a.bytes ≠ a.digest := by
  unfold verify
  split <;> simp_all

theorem verify_new (bytes : Bytes) : (new bytes).verify = some bytes := if_pos rfl

end Artifact

/-- A byte replaced by another one changes the digest, so that an artifact altered there after it was
built does not verify; and what is appended to two byte strings lets no difference of digests go. -/
theorem one_byte_detected :
    (∀ (bytes : Bytes) (i : Nat) (hi : i < bytes.length) (byte : UInt8), byte ≠ bytes[i] →
      digest (bytes.set i byte) ≠ digest bytes ∧
      { Artifact.new bytes with bytes := bytes.set i byte }.verify = none) ∧
    ∀ a b c : Bytes, digest (a ++ c) = digest (b ++ c) → digest a = digest b := by
  refine ⟨fun bytes i hi byte hne => ?_, fun a b c => digest_append_inj.mp⟩
  have hdigest := digest_set_ne hi hne
  exact ⟨hdigest, Artifact.verify_eq_none.mpr hdigest⟩

/-- The middle byte of three, and two beginnings with the same end. -/
theorem one_byte_detected_example :
    (digest ([1, 2, 3].set 1 4) ≠ digest [1, 2, 3] ∧
      { Artifact.new [1, 2, 3] with bytes := [1, 2, 3].set 1 4 }.verify = none) ∧
    digest [1, 2] = digest [1, 2] :=
  ⟨one_byte_detected.1 [1, 2, 3] 1 (by decide) 4 (by decide),
    one_byte_detected.2 [1, 2] [1, 2] [3] rfl⟩

end Gavel.Cluster
