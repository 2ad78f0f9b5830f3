import Gavel.Lib.Collect
import Gavel.Market.Lemmas.Summaries
import Gavel.Market.Series
import Mathlib.Data.Finset.Card

/-!
# A price for every hour

The last observation of each hour, the prices of the hours in ascending order, and how many of them every
bin of a histogram counts.
-/

namespace Gavel.Market

open Gavel.Cluster (Millis)

variable {i p q : Nat}

/-! ## The last of each hour -/

namespace Buckets

theorem keep_mem {o : Millis × Copper} {held : Option (Millis × Copper)} :
    keep o held = o ∨ some (keep o held) = held := by
  cases held with
  | none => exact .inl rfl
  | some h =>
      rw [keep]
      split
      · exact .inl rfl
      · exact .inr rfl

/-- The last observation of each hour, by hour. -/
def latest (observations : List (Millis × Copper)) : List (Nat × Millis × Copper) :=
  observations.foldl (fun m o => Assoc.alter (o.1 / hourMs) (keep o) m) []

theorem latest_eq (observations : List (Millis × Copper)) :
    latest observations = Assoc.collect (fun o => o.1 / hourMs) keep observations := rfl

theorem mem_latest {observations : List (Millis × Copper)} :
    ∀ e ∈ latest observations, e.2 ∈ observations := by
  rw [latest_eq]
  apply Assoc.forall_collect
  intro o ho held hheld
  rcases @keep_mem o held with heq | heq
  · rwa [heq]
  · exact hheld _ heq.symm

theorem mem_fromObservations {observations : List (Millis × Copper)} {price : Nat}
    (h : price ∈ (fromObservations observations).prices) : ∃ o ∈ observations, o.2 = price := by
  obtain ⟨e, he, rfl⟩ := List.mem_map.mp ((List.mem_insertionSort _).mp h)
  exact ⟨e.2, mem_latest e he, rfl⟩

theorem quantile_le {F : Floating} (hF : ∀ prices percent, F.interpolate prices percent ≤ maxU64)
    {b : Buckets} (hb : ∀ price ∈ b.prices, price ≤ maxU64) {percent price : Nat}
    (h : b.quantile F percent = some price) : price ≤ maxU64 := by
  rw [quantile] at h
  split at h
  · cases h
  · rename_i alone halone
    rw [← Option.some.inj h]
    exact hb alone (by rw [halone]; exact List.mem_singleton_self alone)
  · rw [← Option.some.inj h]
    exact hF _ _

/-- There is a price for some hour when anything was observed. -/
theorem prices_ne_nil {observations : List (Millis × Copper)} (h : observations ≠ []) :
    (fromObservations observations).prices ≠ [] := by
  obtain ⟨e, he⟩ := List.exists_mem_of_ne_nil _ (Assoc.collect_ne_nil h)
  exact List.ne_nil_of_mem ((List.mem_insertionSort _).mpr (List.mem_map_of_mem he))

theorem quantile_of_ne_nil (F : Floating) (percent : Nat) {b : Buckets} (h : b.prices ≠ []) :
    ∃ m, b.quantile F percent = some m := by
  rw [quantile]
  split
  · rename_i hnil
    exact absurd hnil h
  · exact ⟨_, rfl⟩
  · exact ⟨_, rfl⟩

theorem quantile_isSome (F : Floating) (percent : Nat) {observations : List (Millis × Copper)}
    (h : observations ≠ []) : ∃ m, (fromObservations observations).quantile F percent = some m :=
  quantile_of_ne_nil F percent (prices_ne_nil h)

theorem pairwise_prices (observations : List (Millis × Copper)) :
    (fromObservations observations).prices.Pairwise (· ≤ ·) := pairwise_sortBy _

/-- There are as many prices as hours that hold an observation. -/
theorem len_fromObservations (observations : List (Millis × Copper)) :
    (fromObservations observations).len = (observations.map fun o => o.1 / hourMs).toFinset.card := by
  have hlen : (fromObservations observations).len = (latest observations).length := by
    rw [len, ← List.length_map (f := fun e : Nat × Millis × Copper => e.2.2)]
    exact List.length_insertionSort _ _
  rw [hlen, latest_eq, Assoc.length_collect]

end Buckets

theorem Distribution.of_some {F : Floating} {b : Buckets} {d : Distribution}
    (h : Distribution.of F b = some d) : b.quantile F 50 = some d.median ∧ d.buckets = b.len % 2 ^ 32 := by
  simp only [Distribution.of, Option.bind_eq_bind, Option.bind_eq_some_iff, Option.pure_def,
    Option.some.injEq] at h
  obtain ⟨median, hmedian, _, -, _, -, _, -, _, -, _, -, rfl⟩ := h
  exact ⟨hmedian, rfl⟩

theorem Distribution.isSome_of (F : Floating) {observations : List (Millis × Copper)}
    (h : observations ≠ []) : ∃ d, Distribution.of F (Buckets.fromObservations observations) = some d := by
  have hquantile := fun percent => Buckets.quantile_isSome F percent h
  obtain ⟨median, hmedian⟩ := hquantile 50
  obtain ⟨p25, hp25⟩ := hquantile 25
  obtain ⟨p75, hp75⟩ := hquantile 75
  obtain ⟨p05, hp05⟩ := hquantile 5
  obtain ⟨p95, hp95⟩ := hquantile 95
  obtain ⟨mad, hmad⟩ : ∃ mad, Buckets.quantile F
      ⟨sortBy id ((Buckets.fromObservations observations).prices.map (absDiff · median))⟩ 50 = some mad := by
    apply Buckets.quantile_of_ne_nil
    obtain ⟨price, hprice⟩ := List.exists_mem_of_ne_nil _ (Buckets.prices_ne_nil h)
    exact List.ne_nil_of_mem (mem_sortBy.mpr (List.mem_map_of_mem hprice))
  rw [Distribution.of, hmedian, hp25, hp75, hp05, hp95]
  simp only [Option.bind_eq_bind, Option.bind_some]
  rw [hmad]
  exact ⟨_, rfl⟩

/-! ## Counting by bin -/

namespace Histogram

theorem sum_modify_succ {l : List Nat} (h : i < l.length) : (l.modify i (· + 1)).sum = l.sum + 1 := by
  induction l generalizing i with
  | nil => exact absurd h (Nat.not_lt_zero i)
  | cons n l ih =>
      cases i with
      | zero =>
          simp only [List.modify_zero_cons, List.sum_cons]
          omega
      | succ i =>
          simp only [List.modify_succ_cons, List.sum_cons, ih (Nat.lt_of_succ_lt_succ h)]
          omega

theorem binAt_lt (lo hi price : Nat) : binAt lo hi price < Market.bins :=
  Nat.lt_of_le_of_lt (Nat.min_le_right _ _) (by decide)

theorem bins_count (lo hi : Nat) (prices : List Nat) :
    let counted := prices.foldl (fun held price => held.modify (binAt lo hi price) (· + 1))
      (List.replicate Market.bins 0)
    counted.length = Market.bins ∧ counted.sum = prices.length := by
  induction prices using List.reverseRecOn with
  | nil => simp
  | append_singleton prices price ih =>
      obtain ⟨hlen, hsum⟩ := ih
      simp only [List.foldl_append, List.foldl_cons, List.foldl_nil, List.length_modify,
        List.length_append, List.length_singleton]
      refine ⟨hlen, ?_⟩
      rw [sum_modify_succ ((binAt_lt lo hi price).trans_eq hlen.symm), hsum]

theorem counted_eq (lo hi : Nat) (prices : List Nat) :
    prices.foldl (fun held price => held.modify (binAt lo hi price) (· + 1)) (List.replicate Market.bins 0) =
      (List.range Market.bins).map fun i => prices.countP fun price => binAt lo hi price = i := by
  induction prices using List.reverseRecOn with
  | nil => simp
  | append_singleton prices price ih =>
      rw [List.foldl_append, ih, List.foldl_cons, List.foldl_nil]
      apply List.ext_getElem
      · simp
      · intro i hi hi'
        simp only [List.getElem_modify, List.getElem_map, List.getElem_range, List.countP_append,
          List.countP_singleton, decide_eq_true_eq]
        split <;> rfl

theorem binAt_mono (lo hi : Nat) (h : p ≤ q) : binAt lo hi p ≤ binAt lo hi q := by
  apply min_le_min_right
  split
  · exact Nat.le_refl _
  · exact Nat.div_le_div_right (Nat.mul_le_mul_right _ (Nat.sub_le_sub_right h lo))

/-- Inside the range a price has the bin that counts it. -/
theorem binOf_eq {h : Histogram} (hlo : h.lo ≤ p) (hhi : p ≤ h.hi) : h.binOf p = some (binAt h.lo h.hi p) := by
  rw [binOf, if_neg (not_or.mpr ⟨Nat.not_lt.mpr hlo, Nat.not_lt.mpr hhi⟩), binAt]
  split
  · rfl
  · rfl

end Histogram

end Gavel.Market
