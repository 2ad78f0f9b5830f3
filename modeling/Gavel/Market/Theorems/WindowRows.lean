import Gavel.Lib.Choices
import Gavel.Lib.Gaps
import Gavel.Market.Lemmas.Hours
import Gavel.Market.Lemmas.Selections
import Gavel.Market.Materialise

/-!
# The row of a window

Five reductions of the observations inside a window stand side by side in its row: the extremes and when
they occurred, the mean, the hours, the histogram of the hourly prices and the widest gap. All of them are
about the same observations.
-/

namespace Gavel.Market

open Gavel.Cluster (Millis)

variable {F : Floating} {key : MarketKey} {window : Window} {history l : List PriceSample}
  {current : Option Copper} {since : Millis} {until' : Option Millis} {expected : Option Nat} {now : Millis}
  {row : MarketWindow} {s : PriceSample}

/-- An instant from the start of an interval on and before its end, or before the last instant there is. -/
def Within (since : Millis) (until' : Option Millis) (at' : Millis) : Prop :=
  since ≤ at' ∧ at' < until'.getD maxU64

instance Within.decidable (since : Millis) (until' : Option Millis) (at' : Millis) :
    Decidable (Within since until' at') := inferInstanceAs (Decidable (_ ∧ _))

/-- The prices of the hours that a window takes. -/
def hourly (l : List PriceSample) : List Copper :=
  (Buckets.fromObservations (l.map fun s => (s.observedAt, s.p05UnitPrice))).prices

/-- How many prices are said to be in each bin. -/
def Histogram.counted (h : Histogram) (prices : List Copper) : List Nat :=
  (List.range Market.bins).map fun i => prices.countP fun p => h.binOf p = some i

/-- Every price has a bin, a dearer one none before it. -/
structure Histogram.Places (h : Histogram) (prices : List Copper) : Prop where
  placed : ∀ p ∈ prices, ∃ i < Market.bins, h.binOf p = some i
  mono : ∀ p q i j, p ≤ q → h.binOf p = some i → h.binOf q = some j → i ≤ j

/-- A row and the observations it is about, in time order. -/
structure MarketWindow.Describes (row : MarketWindow) (l : List PriceSample) : Prop where
  distribution : row.distribution.buckets = row.observedBuckets
  low : IsLeast {p | ∃ s ∈ l, s.p05UnitPrice = p} row.low
  high : IsGreatest {p | ∃ s ∈ l, s.p05UnitPrice = p} row.high
  lowAt : IsLeast {t | ∃ s ∈ l, s.p05UnitPrice = row.low ∧ s.observedAt = t} row.lowAt
  highAt : IsLeast {t | ∃ s ∈ l, s.p05UnitPrice = row.high ∧ s.observedAt = t} row.highAt
  mean : row.low ≤ row.mean ∧ row.mean ≤ row.high
  first : row.firstAt ≤ row.lowAt ∧ row.firstAt ≤ row.highAt
  last : row.lowAt ≤ row.lastAt ∧ row.highAt ≤ row.lastAt
  histogram : ∃ h, row.histogram = some h ∧ row.low ≤ h.lo ∧ h.hi ≤ row.high ∧ h.Places (hourly l)
  gap : IsGreatest (insert 0 {d | ∃ a b, Gaps.Adjacent (l.map PriceSample.observedAt) a b ∧ d = b - a})
    row.largestGapMs

/-- A row whose counts are those of the observations. -/
structure MarketWindow.Counts (row : MarketWindow) (l : List PriceSample) : Prop where
  observed : row.observedBuckets = (l.map fun s => s.observedAt / hourMs).toFinset.card
  samples : row.samples = l.length
  few : row.observedBuckets ≤ row.samples
  bins : ∀ h, row.histogram = some h → h.bins = h.counted (hourly l) ∧ h.bins.sum = row.observedBuckets
  span : row.lastAt - row.firstAt ≤ row.largestGapMs * (row.samples - 1)

/-! ## The observations inside -/

theorem perm_inside (history : List PriceSample) (since : Millis) (until' : Option Millis) :
    (inside history since until').Perm (history.filter fun s => Within since until' s.observedAt) :=
  List.perm_insertionSort _ _

theorem mem_inside : s ∈ inside history since until' ↔ s ∈ history ∧ Within since until' s.observedAt := by
  rw [(perm_inside history since until').mem_iff, List.mem_filter, decide_eq_true_eq]

theorem sorted_inside (history : List PriceSample) (since : Millis) (until' : Option Millis) :
    (inside history since until').Pairwise fun a b => a.observedAt ≤ b.observedAt :=
  pairwise_sortBy_key _ _

/-- The first element with a property has the least key of those with it, when the keys ascend. -/
theorem isLeast_find {α : Type} {key : α → Nat} {l : List α} {p : α → Bool} {a : α}
    (hl : l.Pairwise fun a b => key a ≤ key b) (h : l.find? p = some a) :
    IsLeast {k | ∃ b ∈ l, p b ∧ key b = k} (key a) := by
  obtain ⟨hp, before, after, rfl, hbefore⟩ := List.find?_eq_some_iff_append.mp h
  refine ⟨⟨a, by simp, hp, rfl⟩, ?_⟩
  rintro k ⟨b, hb, hpb, rfl⟩
  rcases List.mem_append.mp hb with hb | hb
  · exact absurd hpb (by simpa using hbefore b hb)
  · rcases List.mem_cons.mp hb with rfl | hb
    · exact Nat.le_refl _
    · exact (List.pairwise_cons.mp (List.pairwise_append.mp hl).2.1).1 b hb

theorem isLeast_head (hl : l.Pairwise fun a b => a.observedAt ≤ b.observedAt) (h : l.head? = some s) :
    IsLeast {t | ∃ s ∈ l, s.observedAt = t} s.observedAt := by
  have htimes : (l.map PriceSample.observedAt).Pairwise (· ≤ ·) := List.pairwise_map.mpr hl
  have hfirst : (l.map PriceSample.observedAt).head? = some s.observedAt := by
    rw [List.head?_map, h, Option.map_some]
  simpa only [List.mem_map] using OrderStatistics.isLeast_head htimes hfirst

theorem isGreatest_last (hl : l.Pairwise fun a b => a.observedAt ≤ b.observedAt)
    (h : l.getLast? = some s) : IsGreatest {t | ∃ s ∈ l, s.observedAt = t} s.observedAt := by
  have htimes : (l.map PriceSample.observedAt).Pairwise (· ≤ ·) := List.pairwise_map.mpr hl
  have hlast : (l.map PriceSample.observedAt).getLast? = some s.observedAt := by
    rw [List.getLast?_map, h, Option.map_some]
  simpa only [List.mem_map] using OrderStatistics.isGreatest_getLast htimes hlast

theorem isLeast_min? {p : Nat} (h : (l.map PriceSample.p05UnitPrice).min? = some p) :
    IsLeast {p | ∃ s ∈ l, s.p05UnitPrice = p} p := by
  obtain ⟨hmem, hle⟩ := List.min?_eq_some_iff.mp h
  exact ⟨List.mem_map.mp hmem, fun q hq => hle q (List.mem_map.mpr hq)⟩

theorem isGreatest_max? {p : Nat} (h : (l.map PriceSample.p05UnitPrice).max? = some p) :
    IsGreatest {p | ∃ s ∈ l, s.p05UnitPrice = p} p := by
  obtain ⟨hmem, hle⟩ := List.max?_eq_some_iff.mp h
  exact ⟨List.mem_map.mp hmem, fun q hq => hle q (List.mem_map.mpr hq)⟩

theorem largestGap_eq (l : List PriceSample) : largestGap l = Gaps.widest (l.map PriceSample.observedAt) := by
  rw [largestGap, Gaps.widest, ← List.map_tail, List.zip_map, List.map_map]
  rfl

theorem hoursOf_eq (l : List PriceSample) :
    hoursOf l = (l.map fun s => s.observedAt / hourMs).toFinset.card := (List.card_toFinset _).symm

theorem len_hourly (l : List PriceSample) : (hourly l).length = hoursOf l := by
  rw [hoursOf_eq]
  have hlen := Buckets.len_fromObservations (l.map fun s => (s.observedAt, s.p05UnitPrice))
  rw [List.map_map] at hlen
  exact hlen

theorem mem_hourly {p : Copper} (hp : p ∈ hourly l) : ∃ s ∈ l, s.p05UnitPrice = p := by
  obtain ⟨o, ho, rfl⟩ := Buckets.mem_fromObservations hp
  obtain ⟨s, hs, rfl⟩ := List.mem_map.mp ho
  exact ⟨s, hs, rfl⟩

theorem hoursOf_le (l : List PriceSample) : hoursOf l ≤ l.length := by
  rw [hoursOf]
  exact (List.dedup_sublist _).length_le.trans (List.length_map _).le

/-! ## The histogram of the hours -/

theorem Histogram.binOf_some {h : Histogram} {p i : Nat} (hi : h.binOf p = some i) :
    i = binAt h.lo h.hi p := by
  by_cases hout : p < h.lo ∨ h.hi < p
  · rw [binOf, if_pos hout] at hi
    cases hi
  · obtain ⟨hlo, hhi⟩ := not_or.mp hout
    rw [binOf_eq (Nat.not_lt.mp hlo) (Nat.not_lt.mp hhi)] at hi
    exact (Option.some.inj hi).symm

theorem Histogram.counts_of {b : Buckets} (hb : b.prices.Pairwise (· ≤ ·)) {h : Histogram}
    (hof : Histogram.of b = some h) : h.Places b.prices ∧ h.bins = h.counted b.prices ∧
      h.bins.sum = b.prices.length ∧ h.lo ∈ b.prices ∧ h.hi ∈ b.prices := by
  simp only [Histogram.of, Option.bind_eq_bind, Option.bind_eq_some_iff, Option.pure_def,
    Option.some.injEq] at hof
  obtain ⟨lo, hlo, hi, hhi, rfl⟩ := hof
  obtain ⟨hlomem, hle⟩ := OrderStatistics.isLeast_head hb hlo
  obtain ⟨himem, hge⟩ := OrderStatistics.isGreatest_getLast hb hhi
  refine ⟨⟨?_, ?_⟩, ?_, (bins_count lo hi b.prices).2, hlomem, himem⟩
  · intro p hp
    exact ⟨_, binAt_lt lo hi p, binOf_eq (hle hp) (hge hp)⟩
  · intro p q i j hpq hi hj
    rw [binOf_some hi, binOf_some hj]
    exact binAt_mono _ _ hpq
  · rw [counted_eq]
    refine List.map_congr_left fun i _ => List.countP_congr fun p hp => ?_
    rw [binOf_eq (hle hp) (hge hp)]
    simp

theorem Histogram.isSome_of {b : Buckets} (h : b.prices ≠ []) : ∃ hist, Histogram.of b = some hist := by
  rw [Histogram.of, List.head?_eq_some_head h, List.getLast?_eq_some_getLast h]
  exact ⟨_, rfl⟩

/-! ## The row -/

theorem summariseOver_isSome (h : inside history since until' ≠ []) :
    ∃ row, summariseOver F key window history current since until' expected now = some row := by
  rw [summariseOver]
  simp only
  generalize inside history since until' = l at h
  obtain ⟨s, hs⟩ := List.exists_mem_of_ne_nil l h
  have hprices : l.map PriceSample.p05UnitPrice ≠ [] := by simpa using h
  obtain ⟨cheapest, hcheapest⟩ := Option.ne_none_iff_exists'.mp fun hnone =>
    hprices (List.min?_eq_none_iff.mp hnone)
  obtain ⟨dearest, hdearest⟩ := Option.ne_none_iff_exists'.mp fun hnone =>
    hprices (List.max?_eq_none_iff.mp hnone)
  have hfind : ∀ p ∈ l.map PriceSample.p05UnitPrice, ∃ s, l.find? (·.p05UnitPrice = p) = some s := by
    intro p hp
    obtain ⟨s, hs, rfl⟩ := List.mem_map.mp hp
    apply Option.isSome_iff_exists.mp
    exact List.find?_isSome.mpr ⟨s, hs, by simp⟩
  obtain ⟨low, hlow⟩ := hfind cheapest (List.min?_eq_some_iff.mp hcheapest).1
  obtain ⟨high, hhigh⟩ := hfind dearest (List.max?_eq_some_iff.mp hdearest).1
  obtain ⟨d, hd⟩ : ∃ d, Distribution.of F
      (Buckets.fromObservations (l.map fun s => (s.observedAt, s.p05UnitPrice))) = some d :=
    Distribution.isSome_of F (by simpa using h)
  rw [List.head?_eq_some_head h, List.getLast?_eq_some_getLast h, hcheapest, hdearest]
  simp only [Option.bind_eq_bind, Option.bind_some, hlow, hhigh, hd]
  exact ⟨_, rfl⟩

theorem describes_of_summariseOver
    (h : summariseOver F key window history current since until' expected now = some row) :
    row.Describes (inside history since until') := by
  have hsorted := sorted_inside history since until'
  simp only [summariseOver, Option.bind_eq_bind, Option.bind_eq_some_iff, Option.pure_def,
    Option.some.injEq] at h
  generalize inside history since until' = l at h hsorted
  obtain ⟨first, hfirst, last, hlast, cheapest, hcheapest, dearest, hdearest, low, hlow, high, hhigh,
    d, hd, rfl⟩ := h
  have hpos : 0 < l.length := List.length_pos_of_mem (List.mem_of_mem_head? hfirst)
  have hmin := isLeast_min? hcheapest
  have hmax := isGreatest_max? hdearest
  have hlowAt := isLeast_find hsorted hlow
  have hhighAt := isLeast_find hsorted hhigh
  obtain rfl : low.p05UnitPrice = cheapest := by simpa using List.find?_some hlow
  obtain rfl : high.p05UnitPrice = dearest := by simpa using List.find?_some hhigh
  have hfirstAt := isLeast_head hsorted hfirst
  have hlastAt := isGreatest_last hsorted hlast
  have hmem {s : PriceSample} {p : PriceSample → Bool} (hs : l.find? p = some s) : s ∈ l :=
    List.mem_of_find?_eq_some hs
  have hhourly : hourly l ≠ [] := Buckets.prices_ne_nil (by simpa using List.ne_nil_of_length_pos hpos)
  obtain ⟨hist, hhist⟩ := Histogram.isSome_of hhourly
  obtain ⟨hplaces, -, -, hlo, hhi⟩ := Histogram.counts_of (Buckets.pairwise_prices _) hhist
  exact {
    distribution := by
      rw [(Distribution.of_some hd).2]
      exact congrArg (· % 2 ^ 32) (len_hourly l)
    low := hmin
    high := hmax
    lowAt := by simpa using hlowAt
    highAt := by simpa using hhighAt
    mean := by
      constructor
      · exact Choices.le_mean (fun p hp => hmin.2 (List.mem_map.mp hp)) (by rwa [List.length_map])
      · exact Choices.mean_le fun p hp => hmax.2 (List.mem_map.mp hp)
    first := ⟨hfirstAt.2 ⟨low, hmem hlow, rfl⟩, hfirstAt.2 ⟨high, hmem hhigh, rfl⟩⟩
    last := ⟨hlastAt.2 ⟨low, hmem hlow, rfl⟩, hlastAt.2 ⟨high, hmem hhigh, rfl⟩⟩
    histogram := ⟨hist, hhist, hmin.2 (mem_hourly hlo), hmax.2 (mem_hourly hhi), hplaces⟩
    gap := by
      rw [largestGap_eq]
      exact Gaps.isGreatest_widest (List.pairwise_map.mpr hsorted) }

theorem counts_of_summariseOver (hfew : (inside history since until').length < 2 ^ 32)
    (h : summariseOver F key window history current since until' expected now = some row) :
    row.Counts (inside history since until') := by
  have hsorted := sorted_inside history since until'
  simp only [summariseOver, Option.bind_eq_bind, Option.bind_eq_some_iff, Option.pure_def,
    Option.some.injEq] at h
  generalize inside history since until' = l at h hfew hsorted
  obtain ⟨first, hfirst, last, hlast, cheapest, hcheapest, dearest, hdearest, low, hlow, high, hhigh,
    d, hd, rfl⟩ := h
  have hsmall : hoursOf l < 2 ^ 32 := Nat.lt_of_le_of_lt (hoursOf_le l) hfew
  exact {
    observed := by rw [Nat.mod_eq_of_lt hsmall, hoursOf_eq]
    samples := Nat.mod_eq_of_lt hfew
    few := by
      rw [Nat.mod_eq_of_lt hsmall, Nat.mod_eq_of_lt hfew]
      exact hoursOf_le l
    bins := by
      intro hist hhist
      obtain ⟨-, hcounts, hsum, -, -⟩ := Histogram.counts_of (Buckets.pairwise_prices _) hhist
      refine ⟨hcounts, ?_⟩
      rw [Nat.mod_eq_of_lt hsmall]
      exact hsum.trans (len_hourly l)
    span := by
      rw [Nat.mod_eq_of_lt hfew, largestGap_eq, ← List.length_map (f := PriceSample.observedAt)]
      apply Gaps.last_le
      · rw [List.head?_map, hfirst, Option.map_some]
      · rw [List.getLast?_map, hlast, Option.map_some] }

/-- A window has a row when an observation lies in its bounds, and its row describes those that do. An open
window ends before the last instant there is, and of fewer than 2 ^ 32 observations every count fits. -/
theorem window_rows (F : Floating) (key : MarketKey) (window : Window) (history : List PriceSample)
    (current : Option Copper) (catalog : Catalog) (now : Millis) :
    ((∃ row, summarise F key window history current catalog now = some row) ↔
      ∃ since until', window.bounds catalog now = some (since, until') ∧
        ∃ s ∈ history, Within since until' s.observedAt) ∧
      ∀ since until' row, window.bounds catalog now = some (since, until') →
        summarise F key window history current catalog now = some row →
        (inside history since until').Perm (history.filter fun s => Within since until' s.observedAt) ∧
          row.Describes (inside history since until') ∧
          ((inside history since until').length < 2 ^ 32 → row.Counts (inside history since until')) := by
  constructor
  · constructor
    · rintro ⟨row, h⟩
      obtain ⟨⟨since, until'⟩, hbounds, h⟩ := Option.bind_eq_some_iff.mp h
      refine ⟨since, until', hbounds, ?_⟩
      obtain ⟨first, hfirst, -⟩ := Option.bind_eq_some_iff.mp h
      exact ⟨first, mem_inside.mp (List.mem_of_mem_head? hfirst)⟩
    · rintro ⟨since, until', hbounds, s, hs⟩
      rw [summarise, hbounds]
      exact summariseOver_isSome (List.ne_nil_of_mem (mem_inside.mpr hs))
  · intro since until' row hbounds h
    rw [summarise, hbounds] at h
    exact ⟨perm_inside history since until', describes_of_summariseOver h,
      fun hfew => counts_of_summariseOver hfew h⟩

section Witness

/-- An observation of one item at a price. -/
def flask (at' : Millis) (price : Copper) : PriceSample := ⟨1, .eu, at', price, price, price, 1, 1⟩

/-- A catalogue of nothing. -/
def bareCatalog : Catalog := ⟨[], [], .active, 1, [], [], [], [], [], [], []⟩

/-- Two hours of one item, over all time. -/
theorem window_rows_flask :
    ∃ row, summarise ⟨fun prices _ => prices.headD 0, fun _ _ => none⟩ (.commodity .eu 1 0) .all
        [flask 10 5, flask hourMs 7] none bareCatalog 0 = some row ∧
      row.Describes (inside [flask 10 5, flask hourMs 7] 0 none) ∧
      row.Counts (inside [flask 10 5, flask hourMs 7] 0 none) := by
  obtain ⟨hrow, hdescribes⟩ := window_rows ⟨fun prices _ => prices.headD 0, fun _ _ => none⟩
    (.commodity .eu 1 0) .all [flask 10 5, flask hourMs 7] none bareCatalog 0
  obtain ⟨row, h⟩ := hrow.mpr ⟨0, none, rfl, flask 10 5, by simp, by decide⟩
  obtain ⟨-, hrow, hcounts⟩ := hdescribes 0 none row rfl h
  exact ⟨row, h, hrow, hcounts (by decide)⟩

/-- What is observed at the last instant there is lies in no window that is open. -/
theorem last_instant_in_no_window :
    Window.all.bounds bareCatalog 0 = some (0, none) ∧
      summarise ⟨fun prices _ => prices.headD 0, fun _ _ => none⟩ (.commodity .eu 1 0) .all
        [flask maxU64 5] none bareCatalog 0 = none := by
  decide

end Witness

end Gavel.Market
