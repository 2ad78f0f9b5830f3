import Gavel.Market.Correlate
import Gavel.Market.Lemmas.Hours
import Gavel.Market.Lemmas.Ladders

/-!
# Stored columns

What a window or a market keeps of a chart, a sparkline, a histogram, a heatmap and a depth summary is a
text. Each of them is read back as it was computed: gaps come back as gaps, and what is not stored
follows from the rest.
-/

namespace Gavel.Market

open Gavel.Cluster (Millis)
open Text (decimal parseNat field)

variable {α : Type} {instant : α → Millis} {slots since until' i n : Nat} {observations : List α} {o : α}

/-! ## Slots -/

@[simp] theorem length_place (held : List (Option α)) (o : α) :
    (place instant slots since until' held o).length = held.length := by
  rw [place]
  split
  · rfl
  · exact List.length_modify ..

@[simp] theorem length_slotted (instant : α → Millis) (slots since until' : Nat) (observations : List α) :
    (slotted instant slots since until' observations).length = slots := by
  induction observations using List.reverseRecOn with
  | nil => simp [slotted]
  | append_singleton observations o ih =>
      rw [slotted, List.foldl_append]
      simpa [slotted] using ih

/-- What a slot holds after one more observation was there before or is the observation. -/
theorem mem_place {held : List (Option α)} {a : α}
    (h : some a ∈ place instant slots since until' held o) : some a ∈ held ∨ a = o := by
  rw [place] at h
  split at h
  · exact .inl h
  · obtain ⟨k, hk, hget⟩ := List.mem_iff_getElem.mp h
    rw [List.getElem_modify] at hget
    rw [List.length_modify] at hk
    have hmem : held[k] ∈ held := List.getElem_mem hk
    split at hget
    · revert hget hmem
      cases held[k] with
      | none =>
          intro _ hget
          exact .inr (Option.some.inj hget).symm
      | some b =>
          intro hmem hget
          change (if instant o < instant b then some b else some o) = some a at hget
          split at hget
          · exact .inl (hget ▸ hmem)
          · exact .inr (Option.some.inj hget).symm
    · exact .inl (hget ▸ hmem)

theorem mem_slotted {a : α} (h : some a ∈ slotted instant slots since until' observations) :
    a ∈ observations := by
  induction observations using List.reverseRecOn with
  | nil => simp [slotted] at h
  | append_singleton observations o ih =>
      rw [slotted, List.foldl_append] at h
      rcases mem_place h with h | rfl
      · exact List.mem_append_left _ (ih h)
      · simp

/-! ## Sparklines -/

namespace Spark

/-- A sparkline of as many slots as there are, or of none, is read back. -/
theorem decode_encode {spark : Spark} (hlen : spark.slots = [] ∨ spark.slots.length = sparkSlots)
    (hprice : ∀ slot ∈ spark.slots, ∀ price ∈ slot, price ≤ maxU64) : decode spark.encode = spark := by
  obtain ⟨slots⟩ := spark
  rcases hlen with rfl | hlen
  · rfl
  · have hne : slots ≠ [] := List.ne_nil_of_length_pos (by rw [hlen]; decide)
    have hsplit := Text.splitOn_fields (c := ',') (by decide) hne
    have hread := Text.parse_fields (c := ',') (by decide) hne hprice
    have htext : [','].intercalate (slots.map field) ≠ [] := by
      intro hnil
      rw [hnil] at hsplit
      have hone := congrArg List.length hsplit
      rw [List.splitOn_nil, List.length_map, hlen] at hone
      exact absurd hone (by decide)
    rw [decode, encode, if_neg (by simpa using htext), List.take_of_length_le, hread]
    rw [hsplit, List.length_map, hlen]

theorem decode_over {observations : List (Millis × Copper)} (hprice : ∀ o ∈ observations, o.2 ≤ maxU64)
    (since until' : Millis) :
    decode (Spark.over observations since until').encode = Spark.over observations since until' := by
  apply decode_encode
  · rw [Spark.over]
    split
    · exact .inl rfl
    · exact .inr (by simp)
  · intro slot hslot price hp
    rw [Spark.over] at hslot
    split at hslot
    · cases hslot
    · obtain ⟨held, hheld, rfl⟩ := List.mem_map.mp hslot
      obtain ⟨o, rfl, rfl⟩ := Option.map_eq_some_iff.mp hp
      exact hprice o (mem_slotted hheld)

end Spark

/-! ## Charts -/

namespace ChartSeries

/-- A point as its slot makes it. -/
structure Stored (since span total index : Nat) (p : ChartPoint) : Prop where
  placed : p.at' = since + span * index % 2 ^ 64 / total
  gap : p.observed = false → p = ⟨p.at', 0, 0, 0, 0, 0, 0, false⟩
  fits : p.price ≤ maxU64 ∧ p.median ≤ maxU64 ∧ p.p25 ≤ maxU64 ∧ p.p75 ≤ maxU64 ∧ p.quantity ≤ maxU64 ∧
    p.listings ≤ maxU32

theorem decodePoint_encodePoint {since span total index : Nat} {p : ChartPoint}
    (h : Stored since span total index p) : decodePoint since span total index (encodePoint p) = p := by
  obtain ⟨hprice, hmedian, hp25, hp75, hquantity, hlistings⟩ := h.fits
  have hlistings' : p.listings ≤ maxU64 := hlistings.trans (by decide)
  have hmod : p.listings % 2 ^ 32 = p.listings := Nat.mod_eq_of_lt (Nat.lt_of_le_of_lt hlistings (by decide))
  cases hobs : p.observed with
  | false =>
      rw [h.gap hobs, h.placed]
      rfl
  | true =>
      have hread := @Text.parse_numbers maxU64 ',' (by decide)
        [p.price, p.median, p.p25, p.p75, p.quantity, p.listings] (by simp)
        (by simp [hprice, hmedian, hp25, hp75, hquantity, hlistings'])
      rw [decodePoint, encodePoint, if_pos hobs, hread]
      simp only [List.map_cons, List.map_nil, hmod, ← h.placed, ← hobs]

theorem not_mem_encodePoint (p : ChartPoint) : ';' ∉ encodePoint p := by
  have hnum : ∀ n, ';' ∉ decimal n := Text.not_mem_decimal (by decide)
  rw [encodePoint]
  split
  · simp [List.intercalate, hnum]
  · simp

/-- A chart whose points are where its span puts them is read back. -/
theorem decode_encode {c : ChartSeries} (hne : c.points ≠ []) (hsince : c.since ≤ maxU64)
    (huntil : c.until' ≤ maxU64)
    (hpoints : ∀ (i : Nat) (hi : i < c.points.length),
      Stored c.since (c.until' - c.since) c.points.length i c.points[i]) :
    decode c.encode = c := by
  have hnum : ∀ n, ';' ∉ decimal n := Text.not_mem_decimal (by decide)
  have hsplit : c.encode.splitOn ';' =
      (decimal c.since ++ ',' :: decimal c.until') :: c.points.map encodePoint := by
    rw [encode, if_neg (by simpa using hne)]
    apply List.splitOn_intercalate _ _ (List.cons_ne_nil _ _)
    intro part hpart
    rcases List.mem_cons.mp hpart with rfl | hpart
    · simp [hnum]
    · obtain ⟨p, -, rfl⟩ := List.mem_map.mp hpart
      exact not_mem_encodePoint p
  have hheader : ((decimal c.since ++ ',' :: decimal c.until').splitOn ',').map (parseNat maxU64) =
      [some c.since, some c.until'] := by
    have hread := @Text.parse_numbers maxU64 ',' (by decide) [c.since, c.until'] (by simp)
      (by simp [hsince, huntil])
    simpa [List.intercalate] using hread
  have hslots : (c.points.map encodePoint).mapIdx
      (decodePoint c.since (c.until' - c.since) (c.points.map encodePoint).length) = c.points := by
    apply List.ext_getElem
    · simp
    · intro i hi hi'
      simpa using decodePoint_encodePoint (hpoints i hi')
  rw [decode, hsplit]
  simp only [hheader, hslots]
  rw [if_neg (by simpa using hne)]

/-- The point of a slot is where the span puts it, and its figures fit their types. -/
theorem stored_point {F : Floating} (hF : ∀ prices percent, F.interpolate prices percent ≤ maxU64)
    {since span i : Nat} {slots : List (Option Observation)} {slot : Option Observation}
    (hslots : ∀ o, some o ∈ slots → o.price ≤ maxU64)
    (hslot : ∀ o ∈ slot, o.price ≤ maxU64 ∧ o.quantity ≤ maxU64 ∧ o.listings ≤ maxU32) :
    Stored since span resolution i (point F since span slots i slot) := by
  cases slot with
  | none => exact ⟨rfl, fun _ => rfl, by simp [point]⟩
  | some o =>
      obtain ⟨hprice, hquantity, hlistings⟩ := hslot o rfl
      refine ⟨rfl, fun h => absurd h (by simp [point]), hprice, ?_, ?_, ?_, hquantity, hlistings⟩ <;>
      · simp only [point]
        generalize hb : Buckets.fromObservations _ = b
        cases hq : b.quantile F _ with
        | none => exact hprice
        | some q =>
            refine Buckets.quantile_le hF ?_ hq
            intro price hp
            rw [← hb] at hp
            obtain ⟨_, ho, rfl⟩ := Buckets.mem_fromObservations hp
            obtain ⟨o', ho', rfl⟩ := List.mem_map.mp ho
            obtain ⟨slot, hslot, rfl⟩ := List.mem_filterMap.mp ho'
            exact hslots o' (List.mem_of_mem_take (List.mem_of_mem_drop hslot))

theorem decode_over {F : Floating} (hF : ∀ prices percent, F.interpolate prices percent ≤ maxU64)
    {observations : List Observation}
    (hfits : ∀ o ∈ observations, o.price ≤ maxU64 ∧ o.quantity ≤ maxU64 ∧ o.listings ≤ maxU32)
    {since until' : Millis} (hsince : since ≤ maxU64) (huntil : until' ≤ maxU64) :
    decode (ChartSeries.over F observations since until').encode =
      ChartSeries.over F observations since until' := by
  rw [ChartSeries.over]
  by_cases hspan : until' - since = 0
  · simp only [hspan, if_true]
    rfl
  · simp only [hspan, if_false]
    have hlen := length_slotted Observation.at' resolution since until' observations
    generalize hslots : slotted Observation.at' resolution since until' observations = slots at hlen
    have hheld : ∀ o, some o ∈ slots → o ∈ observations := by
      intro o ho
      rw [← hslots] at ho
      exact mem_slotted ho
    apply decode_encode
    · intro hnil
      have hzero := congrArg List.length hnil
      rw [List.length_mapIdx, hlen] at hzero
      exact absurd hzero (by decide)
    · exact hsince
    · exact huntil
    · intro i hi
      simp only [List.length_mapIdx, hlen, List.getElem_mapIdx]
      apply stored_point hF
      · intro o ho
        exact (hfits o (hheld o ho)).1
      · intro o ho
        exact hfits o (hheld o (ho ▸ List.getElem_mem _))

end ChartSeries

/-! ## Histograms -/

namespace Histogram

/-- A histogram of as many bins as there are, not all empty, is read back. -/
theorem decode_encode {h : Histogram} (hlen : h.bins.length = Market.bins) (hfull : h.isEmpty = false)
    (hlo : h.lo ≤ maxU64) (hhi : h.hi ≤ maxU64) (hbins : ∀ count ∈ h.bins, count ≤ maxU32) :
    decode h.encode = some h := by
  have hsplit : h.encode.splitOn ',' = (h.lo :: h.hi :: h.bins).map decimal := by
    rw [encode, hfull]
    apply List.splitOn_intercalate
    · intro part hpart
      obtain ⟨n, -, rfl⟩ := List.mem_map.mp hpart
      exact Text.not_mem_decimal (by decide) n
    · simp
  have hcounts : (h.bins.map decimal).map (fun count => (parseNat maxU32 count).getD 0) = h.bins := by
    rw [List.map_map]
    calc h.bins.map ((fun count => (parseNat maxU32 count).getD 0) ∘ decimal) = h.bins.map id := by
          apply List.map_congr_left
          intro count hcount
          simp [Text.parseNat_decimal (hbins count hcount)]
      _ = h.bins := List.map_id _
  rw [decode, hsplit]
  simp [Text.parseNat_decimal hlo, Text.parseNat_decimal hhi, hcounts, hlen, -List.map_map]

/-- The histogram of fewer hours than 32 bits count is read back. -/
theorem decode_of {b : Buckets} {h : Histogram} (hof : Histogram.of b = some h)
    (hprice : ∀ price ∈ b.prices, price ≤ maxU64) (hfew : b.len ≤ maxU32) :
    decode h.encode = some h := by
  simp only [Histogram.of, Option.bind_eq_bind, Option.bind_eq_some_iff, Option.pure_def,
    Option.some.injEq] at hof
  obtain ⟨lo, hlo, hi, hhi, rfl⟩ := hof
  obtain ⟨hlen, hsum⟩ := bins_count lo hi b.prices
  have hpos : 0 < b.prices.length := List.length_pos_of_mem (List.mem_of_mem_head? hlo)
  apply decode_encode hlen
  · by_contra hempty
    rw [Bool.not_eq_false, isEmpty, List.all_eq_true] at hempty
    have hzero := List.sum_eq_zero fun count hcount => of_decide_eq_true (hempty count hcount)
    exact Nat.ne_of_gt hpos (hsum.symm.trans hzero)
  · exact hprice lo (List.mem_of_mem_head? hlo)
  · exact hprice hi (List.mem_of_mem_getLast? hhi)
  · intro count hcount
    exact (List.le_sum_of_mem hcount).trans (hsum.trans_le hfew)

end Histogram

/-! ## Heatmaps -/

namespace Heatmap

/-- The observations of each hour of the week. -/
def grouped (observations : List (Millis × Copper)) : List (Nat × List (Millis × Copper)) :=
  observations.foldl (fun m o => Assoc.alter (cell o.1) (fun held => held.getD [] ++ [o]) m) []

theorem grouped_eq (observations : List (Millis × Copper)) :
    grouped observations =
      Assoc.collect (fun o => cell o.1) (fun o held => held.getD [] ++ [o]) observations := rfl

theorem cell_lt (t : Millis) : cell t < 7 * 24 := by
  rw [cell]
  omega

theorem grouped_sorted (observations : List (Millis × Copper)) : Assoc.Sorted (grouped observations) :=
  Assoc.sorted_collect observations

theorem grouped_cell {observations : List (Millis × Copper)} :
    ∀ k ∈ (grouped observations).map Prod.fst, k < 7 * 24 := by
  intro k hk
  rw [grouped_eq, Assoc.mem_keys_collect] at hk
  obtain ⟨o, -, rfl⟩ := hk
  exact cell_lt o.1

theorem grouped_mem {observations : List (Millis × Copper)} :
    ∀ e ∈ grouped observations, e.2 ≠ [] ∧ ∀ o ∈ e.2, o ∈ observations := by
  intro e he
  rw [grouped_eq, Assoc.collect_append] at he
  obtain ⟨hkey, hgroup⟩ := Groups.mem_grouped.mp he
  obtain ⟨o, ho, hcell⟩ := Groups.mem_keys.mp hkey
  rw [hgroup]
  exact ⟨List.ne_nil_of_mem (Groups.mem_group.mpr ⟨ho, hcell⟩), fun p hp => (Groups.mem_group.mp hp).1⟩

theorem grouped_ne_nil {observations : List (Millis × Copper)} (h : observations ≠ []) :
    grouped observations ≠ [] := Assoc.collect_ne_nil h

/-- How many cells hold anything. -/
def held (cells : List (Option Copper)) : Nat := (cells.filterMap id).length

theorem held_set {cells : List (Option Copper)} (h : cells[i]? = some none) (price : Copper) :
    held (cells.set i (some price)) = held cells + 1 := by
  induction cells generalizing i with
  | nil => cases h
  | cons c cells ih =>
      cases i with
      | zero =>
          simp only [List.getElem?_cons_zero, Option.some.injEq] at h
          simp [held, h]
      | succ i =>
          have hrest := ih (by simpa using h)
          cases c with
          | none => simpa [held] using hrest
          | some p => simpa [held] using hrest

/-- Put the median of a group into its cell. -/
def fillCell (F : Floating) (acc : List (Option Copper) × Nat) (group : Nat × List (Millis × Copper)) :
    List (Option Copper) × Nat :=
  match (Buckets.fromObservations group.2).quantile F 50 with
  | some median => (acc.1.set group.1 (some median), acc.2 + 1)
  | none => acc

theorem of_eq (F : Floating) (observations : List (Millis × Copper)) :
    Heatmap.of F observations =
      let filled := (grouped observations).foldl (fillCell F) (List.replicate (7 * 24) none, 0)
      ⟨filled.1, observations.length % 2 ^ 32, filled.2⟩ := rfl

/-- Cells with the count of those that hold anything, all prices of 64 bits. -/
structure Counted (acc : List (Option Copper) × Nat) : Prop where
  length : acc.1.length = 7 * 24
  count : held acc.1 = acc.2
  fits : ∀ c ∈ acc.1, ∀ price ∈ c, price ≤ maxU64

/-- Filling cells that are empty counts every one of them. -/
theorem counted_foldl {F : Floating} {groups : List (Nat × List (Millis × Copper))}
    {acc : List (Option Copper) × Nat} (hacc : Counted acc) (hsorted : Assoc.Sorted groups)
    (hfree : ∀ e ∈ groups, acc.1[e.1]? = some none)
    (hsome : ∀ e ∈ groups, ∃ m, (Buckets.fromObservations e.2).quantile F 50 = some m ∧ m ≤ maxU64) :
    Counted (groups.foldl (fillCell F) acc) ∧
      (groups.foldl (fillCell F) acc).2 = acc.2 + groups.length := by
  induction groups generalizing acc with
  | nil => exact ⟨hacc, rfl⟩
  | cons e groups ih =>
      obtain ⟨hlt, hsorted⟩ := List.pairwise_cons.mp hsorted
      obtain ⟨m, hm, hmax⟩ := hsome e List.mem_cons_self
      have hstep : fillCell F acc e = (acc.1.set e.1 (some m), acc.2 + 1) := by rw [fillCell, hm]
      have hnext : Counted (acc.1.set e.1 (some m), acc.2 + 1) := by
        refine ⟨by simpa using hacc.length, ?_, ?_⟩
        · rw [held_set (hfree e List.mem_cons_self), hacc.count]
        · intro c hc price hprice
          rcases List.mem_or_eq_of_mem_set hc with hc | rfl
          · exact hacc.fits c hc price hprice
          · exact (Option.some.inj hprice) ▸ hmax
      obtain ⟨hcounted, hcount⟩ := ih hnext hsorted
        (fun a ha => by
          rw [List.getElem?_set_ne (Nat.ne_of_lt (hlt a ha))]
          exact hfree a (List.mem_cons_of_mem _ ha))
        (fun a ha => hsome a (List.mem_cons_of_mem _ ha))
      rw [List.foldl_cons, hstep]
      refine ⟨hcounted, ?_⟩
      rw [hcount, List.length_cons]
      omega

/-- A grid of the whole week that holds something is read back. -/
theorem decode_encode {h : Heatmap} (hcounted : Counted (h.cells, h.filled)) (hfilled : h.filled ≠ 0)
    (hsamples : h.samples ≤ maxU32) : decode h.encode = h := by
  have hlen : h.cells.length = 7 * 24 := hcounted.length
  have hne : h.cells ≠ [] := List.ne_nil_of_length_pos (by rw [hlen]; decide)
  have hsplit := @Text.splitOn_fields ',' (by decide) h.cells hne
  have hread := @Text.parse_fields maxU64 ',' (by decide) h.cells hne hcounted.fits
  have hgrid : [','].intercalate (h.cells.map field) ≠ [] := by
    intro hnil
    rw [hnil] at hsplit
    have hone := congrArg List.length hsplit
    rw [List.splitOn_nil, List.length_map, hlen] at hone
    exact absurd hone (by decide)
  have hsemi : ';' ∉ [','].intercalate (h.cells.map field) := by
    apply Text.not_mem_intercalate (by decide)
    intro part hpart
    obtain ⟨c, -, rfl⟩ := List.mem_map.mp hpart
    exact Text.not_mem_field (by decide) c
  have htake : (([','].intercalate (h.cells.map field)).splitOn ',').take (7 * 24) =
      ([','].intercalate (h.cells.map field)).splitOn ',' := by
    apply List.take_of_length_le
    rw [hsplit, List.length_map, hlen]
  have hmod : (h.cells.filterMap id).length % 2 ^ 32 = h.filled := by
    have hle : (h.cells.filterMap id).length ≤ 7 * 24 := hlen ▸ List.length_filterMap_le _ _
    rw [Nat.mod_eq_of_lt (by omega)]
    exact hcounted.count
  rw [encode, if_neg hfilled, decode, Text.splitOnce_append hsemi]
  simp only [Option.getD_some, List.isEmpty_eq_false_iff.mpr hgrid, Bool.false_eq_true, if_false, htake,
    hread, hmod, Text.parseNat_decimal hsamples]

theorem decode_of {F : Floating} (hF : ∀ prices percent, F.interpolate prices percent ≤ maxU64)
    {observations : List (Millis × Copper)} (hne : observations ≠ [])
    (hprice : ∀ o ∈ observations, o.2 ≤ maxU64) :
    decode (Heatmap.of F observations).encode = Heatmap.of F observations := by
  have hstart : Counted (List.replicate (7 * 24) none, 0) := by
    refine ⟨List.length_replicate, by decide, ?_⟩
    intro c hc price hp
    rw [List.eq_of_mem_replicate hc] at hp
    cases hp
  have hfree : ∀ e ∈ grouped observations,
      (List.replicate (7 * 24) (none : Option Copper))[e.1]? = some none := by
    intro e he
    rw [List.getElem?_replicate, if_pos (grouped_cell e.1 (List.mem_map_of_mem he))]
  have hsome : ∀ e ∈ grouped observations,
      ∃ m, (Buckets.fromObservations e.2).quantile F 50 = some m ∧ m ≤ maxU64 := by
    intro e he
    obtain ⟨hgroup, hmem⟩ := grouped_mem e he
    obtain ⟨m, hm⟩ := Buckets.quantile_isSome F 50 hgroup
    refine ⟨m, hm, Buckets.quantile_le hF ?_ hm⟩
    intro price hp
    obtain ⟨o, ho, rfl⟩ := Buckets.mem_fromObservations hp
    exact hprice o (hmem o ho)
  obtain ⟨hcounted, hcount⟩ := counted_foldl hstart (grouped_sorted observations) hfree hsome
  have hlen : 0 < (grouped observations).length := List.length_pos_of_ne_nil (grouped_ne_nil hne)
  rw [of_eq]
  apply decode_encode hcounted
  · exact hcount.trans_ne (by omega)
  · exact Nat.le_of_lt_succ (Nat.mod_lt _ (by decide))

end Heatmap

/-! ## Depth summaries -/

namespace Depth

/-- A wall whose figures fit their types. -/
def wallFits (w : Wall) : Prop := w.price ≤ maxU64 ∧ w.quantity ≤ maxU64 ∧ w.sharePercent ≤ maxU32

/-- A summary whose figures fit their types, and of which what is not stored follows from the rest. -/
structure Stored (d : Depth) : Prop where
  levels : d.levels ≤ maxU32
  total : d.total ≤ maxU64
  cheapest : d.cheapest ≤ maxU64
  p25 : ∀ n ∈ d.p25, n ≤ maxU64
  p50 : ∀ n ∈ d.p50, n ≤ maxU64
  within5 : ∀ n ∈ d.within5, n ≤ maxU64
  within20 : ∀ n ∈ d.within20, n ≤ maxU64
  target : d.target ≤ maxU64
  filled : d.fill.filled ≤ maxU64
  totalCost : d.fill.totalCost ≤ maxU64
  averageUnit : d.fill.averageUnit ≤ maxU64
  clearingPrice : d.fill.clearingPrice ≤ maxU64
  impactPercent : d.fill.impactPercent ≤ maxU32
  walls : ∀ w ∈ d.walls, wallFits w
  wanted : d.fill.wanted = d.target
  complete : d.fill.complete = decide (d.fill.filled = d.target)
  sparse : d.sparse = decide (d.levels < sparseSteps)

theorem decodeOpt_field {o : Option Nat} (h : ∀ n ∈ o, n ≤ maxU64) : decodeOpt (field o) = some o := by
  cases o with
  | none => rfl
  | some n => simp [decodeOpt, Text.decimal_ne_nil, Text.parseNat_decimal (h n rfl)]

theorem decodeWall_encodeWall {w : Wall} (h : wallFits w) : decodeWall (encodeWall w) = some w := by
  obtain ⟨hprice, hquantity, hshare⟩ := h
  have hsplit : (encodeWall w).splitOn ':' = [decimal w.price, decimal w.quantity, decimal w.sharePercent] := by
    apply List.splitOn_intercalate
    · intro part hpart
      obtain ⟨n, -, rfl⟩ := List.mem_map.mp hpart
      exact Text.not_mem_decimal (by decide) n
    · simp
  rw [decodeWall, hsplit]
  simp [Text.parseNat_decimal hprice, Text.parseNat_decimal hquantity, Text.parseNat_decimal hshare]

theorem splitOn_encode (d : Depth) : d.encode.splitOn '|' = d.encodeFields ++ d.walls.map encodeWall := by
  apply List.splitOn_intercalate
  · intro part hpart
    rcases List.mem_append.mp hpart with hpart | hpart
    · obtain ⟨o, -, rfl⟩ := List.mem_map.mp hpart
      exact Text.not_mem_field (by decide) o
    · obtain ⟨w, -, rfl⟩ := List.mem_map.mp hpart
      apply Text.not_mem_intercalate (by decide)
      intro part hpart
      obtain ⟨n, -, rfl⟩ := List.mem_map.mp hpart
      exact Text.not_mem_decimal (by decide) n
  · simp [encodeFields]

theorem decode_encode {d : Depth} (h : Stored d) : decode d.encode = some d := by
  have hwalls : (d.walls.map encodeWall).filterMap decodeWall = d.walls := by
    rw [List.filterMap_map]
    calc d.walls.filterMap (decodeWall ∘ encodeWall) = d.walls.filterMap some := by
          apply List.filterMap_congr
          intro w hw
          exact decodeWall_encodeWall (h.walls w hw)
      _ = d.walls := List.filterMap_some
  have hmax : maxU32 ≤ maxU64 := by decide
  have hlt : maxU32 < 2 ^ 32 := by decide
  have hfill : (⟨d.target, d.fill.filled, d.fill.complete, d.fill.totalCost, d.fill.averageUnit,
      d.fill.clearingPrice, d.fill.impactPercent⟩ : Fill) = d.fill := by
    rw [← h.wanted]
  have hlevels := Nat.mod_eq_of_lt (h.levels.trans_lt hlt)
  have himpact := Nat.mod_eq_of_lt (h.impactPercent.trans_lt hlt)
  rw [decode, splitOn_encode]
  simp only [encodeFields, List.map_cons, List.map_nil, List.cons_append, List.nil_append,
    Text.field_some, Text.parseNat_decimal (h.levels.trans hmax), Text.parseNat_decimal h.total,
    Text.parseNat_decimal h.cheapest, decodeOpt_field h.p25, decodeOpt_field h.p50,
    decodeOpt_field h.within5, decodeOpt_field h.within20, Text.parseNat_decimal h.target,
    Text.parseNat_decimal h.filled, Text.parseNat_decimal h.totalCost,
    Text.parseNat_decimal h.averageUnit, Text.parseNat_decimal h.clearingPrice,
    Text.parseNat_decimal (h.impactPercent.trans hmax), hwalls, hlevels, himpact, Option.bind_eq_bind,
    Option.bind_some, Option.pure_def, ← h.sparse, ← h.complete, hfill]

/-! ### The summary of a ladder -/

/-- Steps whose figures fit their types. -/
def stepsFit (l : Ladder) : Prop :=
  ∀ s ∈ l.steps, s.price ≤ maxU64 ∧ s.quantity ≤ maxU64 ∧ s.cumulative ≤ maxU64

variable {l : Ladder} {percent wanted : Nat}

theorem cumulative_le {steps : List Step} (h : ∀ s ∈ steps, s.cumulative ≤ maxU64) :
    (steps.getLast?.map Step.cumulative).getD 0 ≤ maxU64 := by
  cases hlast : steps.getLast? with
  | none => exact Nat.zero_le _
  | some s => exact h s (List.mem_of_mem_getLast? hlast)

theorem quantityWithin_le (h : stepsFit l) : ∀ n ∈ l.quantityWithin percent, n ≤ maxU64 := by
  intro n hn
  obtain ⟨cheapest, -, rfl⟩ := Option.map_eq_some_iff.mp hn
  apply cumulative_le
  intro s hs
  exact (h s (List.takeWhile_subset _ hs)).2.2

theorem supplyPercentile_le (h : stepsFit l) : ∀ n ∈ l.supplyPercentile percent, n ≤ maxU64 := by
  intro n hn
  simp only [Option.mem_def, Ladder.supplyPercentile] at hn
  split at hn
  · cases hn
  · split at hn
    · rename_i s hs
      cases hn
      exact (h s (List.mem_of_find?_eq_some hs)).1
    · obtain ⟨s, hs, rfl⟩ := Option.map_eq_some_iff.mp hn
      exact (h s (List.mem_of_mem_getLast? hs)).1

/-- A sweep takes no more than is wanted, and none of it costs more than a price can be. -/
theorem take_foldl {steps : List Step} (h : ∀ s ∈ steps, s.price ≤ maxU64) {acc : Nat × Nat × Copper}
    (hacc : acc.1 ≤ wanted ∧ acc.2.1 ≤ acc.1 * maxU64 ∧ acc.2.2 ≤ maxU64) :
    let swept := steps.foldl (Ladder.take wanted) acc
    swept.1 ≤ wanted ∧ swept.2.1 ≤ swept.1 * maxU64 ∧ swept.2.2 ≤ maxU64 := by
  induction steps generalizing acc with
  | nil => exact hacc
  | cons s steps ih =>
      obtain ⟨hprice, hsteps⟩ := List.forall_mem_cons.mp h
      obtain ⟨hfilled, hcost, hclearing⟩ := hacc
      apply ih hsteps
      rw [Ladder.take]
      split
      · exact ⟨hfilled, hcost, hclearing⟩
      · refine ⟨by simp only; omega, ?_, hprice⟩
        have hunits : min s.quantity (wanted - acc.1) * s.price ≤
            min s.quantity (wanted - acc.1) * maxU64 := Nat.mul_le_mul_left _ hprice
        rw [Nat.add_mul]
        exact Nat.add_le_add hcost hunits

theorem toNat_emod_le (n : Int) : (n % 2 ^ 32).toNat ≤ maxU32 := by
  simp only [maxU32]
  omega

theorem fill_fits (h : stepsFit l) (hwanted : wanted ≤ maxU64) :
    (l.fill wanted).filled ≤ maxU64 ∧ (l.fill wanted).totalCost ≤ maxU64 ∧
      (l.fill wanted).averageUnit ≤ maxU64 ∧ (l.fill wanted).clearingPrice ≤ maxU64 ∧
      (l.fill wanted).impactPercent ≤ maxU32 := by
  have hcheapest : l.cheapest.getD 0 ≤ maxU64 := by
    cases hc : l.cheapest with
    | none => exact Nat.zero_le _
    | some price =>
        obtain ⟨s, hs, rfl⟩ := Option.map_eq_some_iff.mp hc
        exact (h s (List.mem_of_mem_head? hs)).1
  obtain ⟨hfilled, hcost, hclearing⟩ := @take_foldl wanted l.steps (fun s hs => (h s hs).1)
    (0, 0, l.cheapest.getD 0) ⟨Nat.zero_le _, Nat.zero_le _, hcheapest⟩
  refine ⟨hfilled.trans hwanted, Nat.min_le_right _ _, ?_, hclearing, ?_⟩
  · simp only [Ladder.fill]
    split
    · exact Nat.zero_le _
    · exact Nat.div_le_of_le_mul hcost
  · simp only [Ladder.fill]
    split
    · exact Nat.zero_le _
    · exact toNat_emod_le _

theorem walls_fit (h : stepsFit l) : ∀ w ∈ l.walls, wallFits w := by
  intro w hw
  rw [Ladder.walls] at hw
  split at hw
  · cases hw
  · obtain ⟨s, hs, hsome⟩ := List.mem_filterMap.mp hw
    simp only [Option.ite_none_right_eq_some, Option.some.injEq] at hsome
    obtain ⟨-, rfl⟩ := hsome
    obtain ⟨hprice, hquantity, -⟩ := h s hs
    exact ⟨hprice, hquantity, Nat.le_of_lt_succ (Nat.mod_lt _ (by decide))⟩

/-- The summary of a ladder of fewer rungs than 32 bits count is read back. -/
theorem decode_of {target : Target} {d : Depth} (hof : Depth.of l target = some d) (h : stepsFit l)
    (hfew : l.levels < 2 ^ 32) (htarget : target.units ≤ maxU64) : decode d.encode = some d := by
  obtain ⟨cheapest, hcheapest, rfl⟩ := Option.map_eq_some_iff.mp hof
  obtain ⟨s, hs, rfl⟩ := Option.map_eq_some_iff.mp hcheapest
  obtain ⟨hfilled, hcost, haverage, hclearing, himpact⟩ := fill_fits h htarget
  have hwithin : ∀ percent, ∀ n ∈ (if l.isSparse then none else l.quantityWithin percent), n ≤ maxU64 := by
    intro percent n hn
    split at hn
    · cases hn
    · exact quantityWithin_le h n hn
  apply decode_encode
  exact {
    levels := Nat.le_of_lt_succ (Nat.mod_lt _ (by decide))
    total := cumulative_le fun s hs => (h s hs).2.2
    cheapest := (h s (List.mem_of_mem_head? hs)).1
    p25 := supplyPercentile_le h
    p50 := supplyPercentile_le h
    within5 := hwithin 5
    within20 := hwithin 20
    target := htarget
    filled := hfilled
    totalCost := hcost
    averageUnit := haverage
    clearingPrice := hclearing
    impactPercent := himpact
    walls := walls_fit h
    wanted := rfl
    complete := rfl
    sparse := by rw [Nat.mod_eq_of_lt hfew]; rfl }

end Depth

/-! ## Every column -/

/-- Every stored column is read back as it was computed, for quantiles that are 64-bit prices. Snapshots
are dated by the header of an answer, before the year 10000, so there are fewer hours than 32 bits count,
and an answer with more auctions than the client takes is refused, so there are fewer rungs. -/
theorem columns_read_back {F : Floating} (hF : ∀ prices percent, F.interpolate prices percent ≤ maxU64) :
    (∀ (observations : List (Millis × Copper)) (since until' : Millis),
      (∀ o ∈ observations, o.2 ≤ maxU64) →
      Spark.decode (Spark.over observations since until').encode =
        Spark.over observations since until') ∧
    (∀ (observations : List Observation) (since until' : Millis),
      (∀ o ∈ observations, o.price ≤ maxU64 ∧ o.quantity ≤ maxU64 ∧ o.listings ≤ maxU32) →
      since ≤ maxU64 → until' ≤ maxU64 →
      ChartSeries.decode (ChartSeries.over F observations since until').encode =
        ChartSeries.over F observations since until') ∧
    (∀ (b : Buckets) (h : Histogram), Histogram.of b = some h → (∀ price ∈ b.prices, price ≤ maxU64) →
      b.len ≤ maxU32 → Histogram.decode h.encode = some h) ∧
    (∀ observations : List (Millis × Copper), observations ≠ [] → (∀ o ∈ observations, o.2 ≤ maxU64) →
      Heatmap.decode (Heatmap.of F observations).encode = Heatmap.of F observations) ∧
    ∀ (l : Ladder) (target : Target) (d : Depth), Depth.of l target = some d → Depth.stepsFit l →
      l.levels < 2 ^ 32 → target.units ≤ maxU64 → Depth.decode d.encode = some d := by
  refine ⟨?_, ?_, ?_, ?_, ?_⟩
  · intro observations since until' hprice
    exact Spark.decode_over hprice since until'
  · intro observations since until' hfits hsince huntil
    exact ChartSeries.decode_over hF hfits hsince huntil
  · intro b h hof hprice hfew
    exact Histogram.decode_of hof hprice hfew
  · intro observations hne hprice
    exact Heatmap.decode_of hF hne hprice
  · intro l target d hof hfit hfew htarget
    exact Depth.decode_of hof hfit hfew htarget

/-- Two observations with hours between them, and a ladder of two rungs with a wall. -/
theorem columns_read_back_gaps :
    let F : Floating := ⟨fun prices _ => min (prices.headD 0) maxU64, fun _ _ => none⟩
    let observations : List (Millis × Copper) := [(7200000, 400), (21600000, 300)]
    let sampled : List Observation := [⟨7200000, 400, 20, 2⟩, ⟨21600000, 300, 5, 1⟩]
    let ladder : Ladder := ⟨[⟨300, 5, 5⟩, ⟨900, 95, 100⟩]⟩
    Spark.decode (Spark.over observations 0 86400000).encode = Spark.over observations 0 86400000 ∧
      ChartSeries.decode (ChartSeries.over F sampled 0 86400000).encode =
        ChartSeries.over F sampled 0 86400000 ∧
      (∃ h, Histogram.of (.fromObservations observations) = some h ∧ Histogram.decode h.encode = some h) ∧
      Heatmap.decode (Heatmap.of F observations).encode = Heatmap.of F observations ∧
      ∃ d, Depth.of ladder (.of .reagent) = some d ∧ Depth.decode d.encode = some d := by
  intro F observations sampled ladder
  have hF : ∀ prices percent, F.interpolate prices percent ≤ maxU64 := fun _ _ => Nat.min_le_right _ _
  obtain ⟨hspark, hseries, hhistogram, hheatmap, hdepth⟩ := columns_read_back hF
  exact ⟨hspark observations _ _ (by decide), hseries sampled _ _ (by decide) (by decide) (by decide),
    ⟨_, rfl, hhistogram (.fromObservations observations) _ rfl (by decide) (by decide)⟩,
    hheatmap observations (by decide) (by decide),
    ⟨_, rfl, hdepth ladder (.of .reagent) _ rfl (by simp [Depth.stepsFit, ladder, maxU64]) (by decide) (by decide)⟩⟩

end Gavel.Market
