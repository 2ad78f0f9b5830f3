import Gavel.Lib.Ranks
import Gavel.Market.Correlate
import Mathlib.Data.List.OfFn
import Mathlib.Logic.Equiv.Basic

/-!
# Ranks with ties

The two loops walk the runs of equal values in sorted order. A run starts at the place with as many
smaller values before it and ends where the values that are no greater do, so that the rank it is given is
the average of its places.
-/

namespace Gavel.Market

open Gavel.Ranks Gavel.OrderStatistics

variable {values order : List Nat} {i j k v w : Nat}

/-! ## The order -/

/-- The values as an order puts them. -/
def inOrder (values order : List Nat) : List Nat := order.map (values.getD · 0)

/-- Every position once, by ascending value. -/
structure Orders (values order : List Nat) : Prop where
  perm : order.Perm (List.range values.length)
  sorted : (inOrder values order).Pairwise (· ≤ ·)

theorem orders_sortWith (values : List Nat) :
    Orders values (Sorting.sortWith (fun a b => compare (values.getD a 0) (values.getD b 0))
      (List.range values.length)) := by
  have : Std.TransCmp fun a b => compare (values.getD a 0) (values.getD b 0) :=
    inferInstanceAs (Std.TransCmp (compareOn (values.getD · 0)))
  constructor
  · exact Sorting.perm_sortWith _ _
  · refine List.pairwise_map.mpr ((Sorting.pairwise_sortWith (List.range values.length)).imp ?_)
    intro a b hle
    exact Nat.isLE_compare.mp hle

namespace Orders

theorem mem_iff (h : Orders values order) : i ∈ order ↔ i < values.length := by
  rw [h.perm.mem_iff, List.mem_range]

theorem length_eq (h : Orders values order) : order.length = values.length := by
  rw [h.perm.length_eq, List.length_range]

theorem inOrder_perm (h : Orders values order) : (inOrder values order).Perm values := by
  refine (h.perm.map _).trans (List.Perm.of_eq ?_)
  refine List.ext_getElem (by simp) fun i hi hi' => ?_
  simp [hi']

theorem placed_eq (h : Orders values order) (k : Nat) :
    placed values order k = (inOrder values order)[k]? := by
  rw [placed, inOrder, List.getElem?_map]
  cases hk : order[k]? with
  | none => rfl
  | some slot =>
      have hslot := h.mem_iff.mp (List.mem_of_getElem? hk)
      simp [hslot]

/-- A value stands from the smaller ones on up to the last that is no greater. -/
theorem placed_iff (h : Orders values order) :
    placed values order k = some v ↔ below values v ≤ k ∧ k < upto values v := by
  have hbelow : (inOrder values order).countP (· < v) = below values v := h.inOrder_perm.countP_eq _
  have hupto : (inOrder values order).countP (· ≤ v) = upto values v := h.inOrder_perm.countP_eq _
  rw [h.placed_eq]
  by_cases hk : k < (inOrder values order).length
  · rw [List.getElem?_eq_getElem hk, Option.some.injEq, getElem_eq_iff h.sorted hk, hbelow, hupto]
  · rw [List.getElem?_eq_none (Nat.le_of_not_lt hk)]
    have := List.countP_le_length (p := (· ≤ v)) (l := inOrder values order)
    exact iff_of_false nofun (by omega)

/-! ## The runs -/

/-- The inner loop stops at the last of the values that are no greater. -/
theorem tiedEnd_eq (h : Orders values order) (hi : placed values order i = some v) (hij : i ≤ j)
    (hj : j < upto values v) : tiedEnd values order i j + 1 = upto values v := by
  have hlow := (h.placed_iff.mp hi).1
  fun_induction tiedEnd values order i j with
  | case1 j hnext ih => exact ih (by omega) (h.placed_iff.mp (hnext.2.trans hi)).2
  | case2 j hstop =>
      by_contra hne
      have hlength : upto values v ≤ order.length := h.length_eq ▸ upto_le_length values v
      have hplaced : placed values order (j + 1) = some v := h.placed_iff.mpr (by omega)
      exact hstop ⟨by omega, hplaced.trans hi.symm⟩

/-- After a run the next one starts with as many smaller values before it. -/
theorem start_of_end (h : Orders values order) (hi : below values v ≤ i) (hw : placed values order i = some w)
    (hend : upto values v = i) : below values w = i := by
  obtain ⟨hlow, hhigh⟩ := h.placed_iff.mp hw
  rcases Nat.lt_trichotomy w v with hlt | rfl | hlt
  · have : upto values w ≤ below values v := upto_le_below hlt
    omega
  · omega
  · have : upto values v ≤ below values w := upto_le_below hlt
    omega

end Orders

theorem length_foldl_set (slots : List Nat) (rank : ℚ) (out : List ℚ) :
    (slots.foldl (fun out slot => out.set slot rank) out).length = out.length := by
  induction slots generalizing out with
  | nil => rfl
  | cons slot slots ih => rw [List.foldl_cons, ih, List.length_set]

theorem getElem?_foldl_set {slots : List Nat} {rank : ℚ} {out : List ℚ} (hslots : ∀ s ∈ slots, s < out.length)
    (s : Nat) : (slots.foldl (fun out slot => out.set slot rank) out)[s]? =
      if s ∈ slots then some rank else out[s]? := by
  induction slots generalizing out with
  | nil => simp
  | cons slot slots ih =>
      have hrest : ∀ s ∈ slots, s < (out.set slot rank).length := by
        intro s hs
        rw [List.length_set]
        exact hslots s (List.mem_cons_of_mem _ hs)
      rw [List.foldl_cons, ih hrest, List.getElem?_set]
      have hslot := hslots slot List.mem_cons_self
      by_cases hs : s ∈ slots
      · simp [hs]
      · by_cases heq : slot = s
        · subst heq
          simp [hs, hslot]
        · simp [hs, heq, Ne.symm heq]

theorem mem_drop_iff (hij : i ≤ j) (s : Nat) :
    s ∈ order.drop i ↔ s ∈ (order.drop i).take (j - i) ∨ s ∈ order.drop j := by
  conv_lhs => rw [← List.take_append_drop (j - i) (order.drop i)]
  rw [List.mem_append, List.drop_drop, Nat.add_sub_cancel' hij]

theorem Orders.value_of_mem_run (h : Orders values order)
    (hrun : ∀ k, i ≤ k → k < j → placed values order k = some v)
    {s : Nat} (hs : s ∈ (order.drop i).take (j - i)) : values.getD s 0 = v := by
  obtain ⟨k, hk, rfl⟩ := List.mem_iff_getElem.mp hs
  have hlt : i + k < order.length ∧ k < j - i := by
    rw [List.length_take, List.length_drop] at hk
    omega
  have hplaced := hrun (i + k) (Nat.le_add_right i k) (by omega)
  rw [h.placed_eq, inOrder, List.getElem?_map, List.getElem?_eq_getElem hlt.1, Option.map_some,
    Option.some.injEq] at hplaced
  rw [List.getElem_take, List.getElem_drop]
  exact hplaced

/-- The outer loop, from the start of a run, gives every position that is left the rank of its value. -/
theorem rankRuns_eq {out : List ℚ} (h : Orders values order)
    (hstart : ∀ v, placed values order i = some v → below values v = i) (hout : out.length = values.length)
    (s : Nat) : (rankRuns values order i out)[s]? =
      if s ∈ order.drop i then some (midRank values (values.getD s 0)) else out[s]? := by
  fun_induction rankRuns values order i out with
  | case1 i out hi last rank ih =>
      obtain ⟨v, hv⟩ : ∃ v, placed values order i = some v := by
        have : i < (inOrder values order).length := by
          rw [inOrder, List.length_map]
          exact hi
        exact ⟨_, (h.placed_eq i).trans (List.getElem?_eq_getElem this)⟩
      have hbelow := hstart v hv
      have hlast : last + 1 = upto values v := h.tiedEnd_eq hv (Nat.le_refl i) (h.placed_iff.mp hv).2
      have hle : i ≤ last := le_tiedEnd values order i i
      have hrank : rank = midRank values v := by
        rw [midRank, hbelow, ← hlast]
        simp only [rank]
        push_cast
        ring
      have hslots : ∀ s ∈ (order.drop i).take (last + 1 - i), s < out.length := by
        intro s hs
        rw [hout]
        exact h.mem_iff.mp (List.mem_of_mem_drop (List.mem_of_mem_take hs))
      have hlength : (((order.drop i).take (last + 1 - i)).foldl (fun out slot => out.set slot rank) out).length =
          values.length := by
        rw [length_foldl_set, hout]
      have hnext : ∀ w, placed values order (last + 1) = some w → below values w = last + 1 := by
        intro w hw
        exact h.start_of_end (by omega) hw hlast.symm
      have hrun : ∀ k, i ≤ k → k < last + 1 → placed values order k = some v := by
        intro k hik hk
        exact h.placed_iff.mpr (by omega)
      rw [ih hnext hlength, getElem?_foldl_set hslots]
      by_cases hs : s ∈ (order.drop i).take (last + 1 - i)
      · have hmem : s ∈ order.drop i := (mem_drop_iff (by omega) s).mpr (.inl hs)
        rw [if_pos hmem, if_pos hs, h.value_of_mem_run hrun hs, hrank, ite_self]
      · have hmem : s ∈ order.drop i ↔ s ∈ order.drop (last + 1) := by
          rw [mem_drop_iff (j := last + 1) (by omega) s]
          exact or_iff_right hs
        simp only [hs, hmem, if_false]
  | case2 i out hi => simp [List.drop_eq_nil_of_le (Nat.le_of_not_lt hi)]

theorem ranks_eq_map (values : List Nat) : ranks values = values.map (midRank values) := by
  have h := orders_sortWith values
  refine List.ext_getElem? fun s => ?_
  have hstart : ∀ v, placed values _ 0 = some v → below values v = 0 :=
    fun v hv => Nat.le_zero.mp (h.placed_iff.mp hv).1
  rw [ranks, rankRuns_eq h hstart List.length_replicate, List.drop_zero, List.getElem?_map]
  simp only [h.mem_iff]
  by_cases hs : s < values.length
  · simp [hs]
  · simp [hs]

@[simp] theorem length_ranks (values : List Nat) : (ranks values).length = values.length := by
  rw [ranks_eq_map, List.length_map]

/-- The rank of a position. -/
def rankAt (values : List Nat) (i : Fin values.length) : ℚ :=
  (ranks values).get (i.cast (length_ranks values).symm)

theorem rankAt_eq (values : List Nat) (i : Fin values.length) :
    rankAt values i = midRank values (values.get i) := by
  simp [rankAt, ranks_eq_map]

/-- Values in another order are a permutation of the list. -/
theorem ofFn_get_perm (values : List Nat) (σ : Equiv.Perm (Fin values.length)) :
    (List.ofFn (values.get ∘ σ)).Perm values := by
  have := Equiv.Perm.ofFn_comp_perm σ values.get
  rwa [List.ofFn_get] at this

theorem ranks_ofFn (values : List Nat) (σ : Equiv.Perm (Fin values.length)) :
    ranks (List.ofFn (values.get ∘ σ)) = List.ofFn (rankAt values ∘ σ) := by
  rw [ranks_eq_map, List.map_ofFn]
  congr 1
  funext k
  exact (midRank_perm (ofFn_get_perm values σ) _).trans (rankAt_eq values (σ k)).symm

/-- Every position is given the average of the places its value takes in sorted order, from one: the
same for the same value and more for a greater one. The ranks are halves, sum to what the places do, and
go with their values where these are put in another order. -/
theorem ranks_average (values : List Nat) :
    (ranks values).length = values.length ∧
    (∀ i, rankAt values i = averagePosition values (values.get i)) ∧
    (∀ i j, values.get i = values.get j → rankAt values i = rankAt values j) ∧
    (∀ i j, values.get i < values.get j → rankAt values i < rankAt values j) ∧
    (∀ i, ∃ halves : Nat, rankAt values i = halves / 2) ∧
    (ranks values).sum = (values.length * (values.length + 1) : ℚ) / 2 ∧
    ∀ σ : Equiv.Perm (Fin values.length),
      ranks (List.ofFn (values.get ∘ σ)) = List.ofFn (rankAt values ∘ σ) := by
  refine ⟨length_ranks values, fun i => ?_, fun i j heq => ?_, fun i j hlt => ?_, fun i => ?_, ?_,
    ranks_ofFn values⟩
  · rw [rankAt_eq, averagePosition_eq (List.get_mem values i)]
  · rw [rankAt_eq, rankAt_eq, heq]
  · rw [rankAt_eq, rankAt_eq]
    exact midRank_lt (List.get_mem values i) hlt
  · exact ⟨_, rankAt_eq values i⟩
  · rw [ranks_eq_map, sum_midRank]

/-- A run of two at the end of the order. -/
theorem ranks_average_example :
    rankAt [5, 3, 5] 0 = rankAt [5, 3, 5] 2 ∧ rankAt [5, 3, 5] 1 < rankAt [5, 3, 5] 0 :=
  ⟨(ranks_average [5, 3, 5]).2.2.1 0 2 rfl, (ranks_average [5, 3, 5]).2.2.2.1 1 0 (by decide)⟩

end Gavel.Market
