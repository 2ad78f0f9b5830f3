import Gavel.Lib.Slices
import Gavel.Market.Analysis
import Gavel.Market.Lemmas.Selections

/-!
# Thinning keeps the dips

A chart of fewer points than its series shows the cheapest point of each of as many consecutive pieces of
the series, and the pieces make up the whole of it.
-/

namespace Gavel.Market

open Gavel.Slices

variable {points out : List Point} {target i : Nat}

/-- One point of each piece, no dearer than any of it, the pieces making up the series. -/
structure Thins (points : List Point) (target : Nat) (out : List Point) : Prop where
  length : out.length = target
  pieces : ∃ pieces : List (List Point), pieces.flatten = points ∧ pieces.length = target ∧
    Picks (fun p q => p.price ≤ q.price) out pieces

/-- Where the series is cut. -/
def bucketStart (points : List Point) (target i : Nat) : Nat := i * points.length / target

theorem bucketStart_le (hi : i ≤ target) : bucketStart points target i ≤ points.length :=
  Nat.div_le_of_le_mul (Nat.mul_le_mul_right _ hi)

section Cuts

variable (htarget : 0 < target) (hlong : target < points.length)
include htarget hlong

/-- No piece is empty, so the end of one is the start of the next. -/
theorem bucketStart_lt (i : Nat) : bucketStart points target i < bucketStart points target (i + 1) := by
  have hstep : (i * points.length + target) / target ≤ (i + 1) * points.length / target := by
    refine Nat.div_le_div_right ?_
    rw [Nat.succ_mul]
    exact Nat.add_le_add_left hlong.le _
  rw [Nat.add_div_right _ htarget] at hstep
  exact hstep

theorem downsample_eq : downsample points target =
    (cuts points (bucketStart points target) target).filterMap (minBy Point.price) := by
  have hshort : ¬ (points.length ≤ target ∨ target = 0) := by omega
  rw [downsample, if_neg hshort, cuts, List.filterMap_map]
  refine List.filterMap_congr fun i _ => ?_
  have hend : max ((i + 1) * points.length / target) (i * points.length / target + 1) =
      (i + 1) * points.length / target := Nat.max_eq_left (bucketStart_lt htarget hlong i)
  dsimp only
  rw [hend]
  rfl

theorem thins : Thins points target (downsample points target) := by
  have hstart : bucketStart points target 0 = 0 := by simp [bucketStart]
  have hend : bucketStart points target target = points.length := Nat.mul_div_cancel_left _ htarget
  have hflatten := flatten_cuts (l := points) hstart
    (fun i => (bucketStart_lt htarget hlong i).le) target
  rw [hend, List.take_length] at hflatten
  have hne : ∀ piece ∈ cuts points (bucketStart points target) target, piece ≠ [] := by
    intro piece hpiece
    obtain ⟨i, hi, rfl⟩ := List.mem_map.mp hpiece
    exact slice_ne_nil (bucketStart_lt htarget hlong i)
      (bucketStart_le (List.mem_range.mp hi))
  have hlength : (cuts points (bucketStart points target) target).length = target := by simp [cuts]
  have hpicks : Picks (fun p q : Point => p.price ≤ q.price) (downsample points target)
      (cuts points (bucketStart points target) target) := by
    rw [downsample_eq htarget hlong]
    refine picks_filterMap ?_ ?_ hne
    · intro piece hpiece
      obtain ⟨p, rest, rfl⟩ := List.exists_cons_of_ne_nil hpiece
      rfl
    · intro piece p hp
      refine ⟨minBy_mem hp, fun q hq => ?_⟩
      have hmin := @map_minBy _ Point.price piece
      rw [hp, Option.map_some, eq_comm, List.min?_eq_some_iff] at hmin
      exact hmin.2 _ (List.mem_map_of_mem hq)
  exact ⟨hpicks.length_eq.trans hlength, _, hflatten, hlength, hpicks⟩

end Cuts

/-- The points kept are points of the series, in its order. -/
theorem Thins.sublist (h : Thins points target out) : out.Sublist points := by
  obtain ⟨pieces, rfl, -, hpicks⟩ := h.pieces
  exact hpicks.sublist

theorem Thins.min_price (h : Thins points target out) :
    (out.map Point.price).min? = (points.map Point.price).min? := by
  have hsub := h.sublist
  obtain ⟨pieces, rfl, -, hpicks⟩ := h.pieces
  ext price
  simp only [List.min?_eq_some_iff, List.forall_mem_map]
  constructor
  · rintro ⟨hmem, hle⟩
    refine ⟨(hsub.map Point.price).subset hmem, fun q hq => ?_⟩
    obtain ⟨p, hp, hpq⟩ := hpicks.exists_of_mem hq
    exact (hle p hp).trans hpq
  · rintro ⟨hmem, hle⟩
    obtain ⟨q, hq, rfl⟩ := List.mem_map.mp hmem
    obtain ⟨p, hp, hpq⟩ := hpicks.exists_of_mem hq
    have heq : p.price = q.price := Nat.le_antisymm hpq (hle p (hsub.subset hp))
    refine ⟨heq ▸ List.mem_map_of_mem hp, fun p hp => hle p (hsub.subset hp)⟩

theorem downsample_short (h : points.length ≤ target) : downsample points target = points :=
  if_pos (.inl h)

/-- Thinning keeps a short series, thins a long one to the cheapest of each of its pieces, and leaves what
it made of either. -/
theorem downsample_keeps_dips (points : List Point) (target : Nat) (htarget : 0 < target) :
    (points.length ≤ target → downsample points target = points) ∧
      (target < points.length → Thins points target (downsample points target)) ∧
      (downsample points target).Sublist points ∧
      ((downsample points target).map Point.price).min? = (points.map Point.price).min? ∧
      downsample (downsample points target) target = downsample points target := by
  refine ⟨downsample_short, thins htarget, ?_⟩
  rcases Nat.lt_or_ge target points.length with hlong | hshort
  · have hthins := thins htarget hlong
    exact ⟨hthins.sublist, hthins.min_price, downsample_short hthins.length.le⟩
  · rw [downsample_short hshort, downsample_short hshort]
    exact ⟨List.Sublist.refl _, rfl, rfl⟩

/-- Five points thinned to two. -/
theorem downsample_keeps_dips_five :
    let points : List Point := [⟨1, 9, 1⟩, ⟨2, 4, 1⟩, ⟨3, 7, 1⟩, ⟨4, 3, 1⟩, ⟨5, 8, 1⟩]
    downsample points 2 = [⟨2, 4, 1⟩, ⟨4, 3, 1⟩] ∧ Thins points 2 (downsample points 2) :=
  ⟨by decide, (downsample_keeps_dips _ 2 (by decide)).2.1 (by decide)⟩

end Gavel.Market
