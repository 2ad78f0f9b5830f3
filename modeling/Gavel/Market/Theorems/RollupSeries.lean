import Gavel.Lib.OrderStatistics
import Gavel.Market.Theorems.Reordering

/-!
# The series of a roll-up

The series of a row has a point for every instant of its samples. The price of a point is the upper median
of the samples, of which a realm gives one for each variant it lists; the upper median of the realms it is
only where that splits the samples in half too.
-/

namespace Gavel.Market

open Gavel.Cluster (Millis)

variable {F : Floating} {history samples : List RealmSample} {ladders : RealmLadders} {c : Catalog}
  {window : Window} {g : RollupGroup} {realm : RealmId} {row : MarketRollup} {t : Millis} {p : Point}
  {price : Copper} {l : List Nat}

/-- The upper one of the middle two, or the middle one. -/
def upperMedian (l : List Nat) : Option Nat := (sortBy id l)[l.length / 2]?

/-- The samples of one instant. -/
def snapshotAt (samples : List RealmSample) (t : Millis) : List RealmSample :=
  Groups.group RealmSample.observedAt samples t

/-- The cheapest copy of each realm at one instant. -/
def cheapestCopies (samples : List RealmSample) (t : Millis) : List Copper :=
  (perRealm (snapshotAt samples t)).map Prod.snd

/-- The samples a row is rolled up from. -/
def scopedTo (history : List RealmSample) (c : Catalog) (row : MarketRollup) : List RealmSample :=
  match row.scope with
  | .region => Groups.group c.groupOf history row.group
  | .realm realm => samplesOn history c row.group realm

/-- One point for each instant, in time order, with what was listed and what the realms charged at it. -/
structure Charts (samples : List RealmSample) (points : List Point) : Prop where
  increasing : points.Pairwise fun p q => p.at' < q.at'
  instants : ∀ t, t ∈ points.map Point.at' ↔ t ∈ samples.map RealmSample.observedAt
  quantity : ∀ p ∈ points, p.quantity = ((snapshotAt samples p.at').map RealmSample.listings).sum
  price : ∀ p ∈ points, upperMedian (cheapestCopies samples p.at') = some p.price

/-- The series of a row before it is thinned says what it is meant to: on a realm's row the price is that of
the cheapest copy, and at the newest instant of the realm it is the cheapest now. -/
structure MarketRollup.SeriesSays (row : MarketRollup) (history : List RealmSample) (c : Catalog) : Prop where
  charts : Charts (scopedTo history c row) (seriesOf (scopedTo history c row))
  cheapest : ∀ realm, row.scope = .realm realm → ∀ p ∈ seriesOf (scopedTo history c row),
    ((snapshotAt (scopedTo history c row) p.at').map RealmSample.minPrice).min? = some p.price
  newest : ∀ realm, row.scope = .realm realm → ∀ price ∈ row.cheapestNow,
    ∃ p ∈ seriesOf (scopedTo history c row),
      newestOf history row.region row.item realm = some p.at' ∧ p.price = price

/-- At every instant the upper median of the realms' cheapest copies splits the samples in half: no more than
half of them are cheaper, and more than half are no dearer. -/
def Halved (samples : List RealmSample) : Prop :=
  ∀ t ∈ samples.map RealmSample.observedAt, ∀ price ∈ upperMedian (cheapestCopies samples t),
    2 * (snapshotAt samples t).countP (·.minPrice < price) ≤ (snapshotAt samples t).length ∧
      (snapshotAt samples t).length < 2 * (snapshotAt samples t).countP (·.minPrice ≤ price)

/-! ## Medians -/

theorem length_sortBy (l : List Nat) : (sortBy id l).length = l.length := List.length_insertionSort _ l

theorem upperMedian_isSome (h : l ≠ []) : ∃ price, upperMedian l = some price := by
  have hi : l.length / 2 < (sortBy id l).length := by
    rw [length_sortBy]
    exact Nat.div_lt_self (List.length_pos_of_ne_nil h) (by decide)
  exact ⟨_, List.getElem?_eq_getElem hi⟩

theorem upperMedian_eq_some_iff :
    upperMedian l = some price ↔
      2 * l.countP (· < price) ≤ l.length ∧ l.length < 2 * l.countP (· ≤ price) := by
  by_cases h : l = []
  · simp [h, upperMedian, sortBy]
  · have hi : l.length / 2 < (sortBy id l).length := by
      rw [length_sortBy]
      exact Nat.div_lt_self (List.length_pos_of_ne_nil h) (by decide)
    have hplace : (sortBy id l)[l.length / 2] = price ↔
        (sortBy id l).countP (· < price) ≤ l.length / 2 ∧
          l.length / 2 < (sortBy id l).countP (· ≤ price) :=
      OrderStatistics.getElem_eq_iff (pairwise_sortBy l) hi
    rw [upperMedian, List.getElem?_eq_getElem hi, Option.some.injEq, hplace, (perm_sortBy l).countP_eq,
      (perm_sortBy l).countP_eq]
    omega

/-! ## The points of a series -/

theorem mem_seriesOf : p ∈ seriesOf samples ↔
    ∃ t ∈ samples.map RealmSample.observedAt, pointAt (t, snapshotAt samples t) = p := by
  simp only [seriesOf_eq, List.mem_map, Prod.exists, Groups.mem_grouped, Groups.mem_keys]
  constructor
  · rintro ⟨t, _, ⟨hs, rfl⟩, rfl⟩
    exact ⟨t, hs, rfl⟩
  · rintro ⟨t, hs, rfl⟩
    exact ⟨t, _, ⟨hs, rfl⟩, rfl⟩

theorem seriesOf_increasing (samples : List RealmSample) :
    (seriesOf samples).Pairwise fun p q => p.at' < q.at' := by
  rw [seriesOf_eq, ← Assoc.collect_append]
  exact List.pairwise_map.mpr (Assoc.sorted_collect samples)

theorem snapshotAt_ne_nil (ht : t ∈ samples.map RealmSample.observedAt) : snapshotAt samples t ≠ [] := by
  obtain ⟨s, hs, rfl⟩ := List.mem_map.mp ht
  exact List.ne_nil_of_mem (Groups.mem_group.mpr ⟨hs, rfl⟩)

theorem cheapestCopies_ne_nil (ht : t ∈ samples.map RealmSample.observedAt) :
    cheapestCopies samples t ≠ [] := by
  have hne : perRealm (snapshotAt samples t) ≠ [] := Assoc.collect_ne_nil (snapshotAt_ne_nil ht)
  simpa [cheapestCopies] using hne

/-- The price of a point is the upper median of the samples. -/
theorem price_pointAt (ht : t ∈ samples.map RealmSample.observedAt) :
    upperMedian ((snapshotAt samples t).map RealmSample.minPrice) =
      some (pointAt (t, snapshotAt samples t)).price := by
  obtain ⟨price, hprice⟩ := upperMedian_isSome (l := (snapshotAt samples t).map RealmSample.minPrice)
    (by simpa using snapshotAt_ne_nil ht)
  have hpoint : (pointAt (t, snapshotAt samples t)).price =
      (upperMedian ((snapshotAt samples t).map RealmSample.minPrice)).getD 0 := by
    rw [upperMedian, ← length_sortBy, ← List.getD_eq_getElem?_getD]
    rfl
  rw [hpoint, hprice]
  rfl

/-- The series charts what the realms charged exactly when their medians split the samples in half. -/
theorem charts_iff (samples : List RealmSample) : Charts samples (seriesOf samples) ↔ Halved samples := by
  have hinstants : ∀ t, t ∈ (seriesOf samples).map Point.at' ↔ t ∈ samples.map RealmSample.observedAt := by
    intro t
    constructor
    · intro ht
      obtain ⟨p, hp, rfl⟩ := List.mem_map.mp ht
      obtain ⟨t', ht', rfl⟩ := mem_seriesOf.mp hp
      exact ht'
    · intro ht
      exact List.mem_map.mpr ⟨_, mem_seriesOf.mpr ⟨t, ht, rfl⟩, rfl⟩
  have hhalf : ∀ t price, upperMedian ((snapshotAt samples t).map RealmSample.minPrice) = some price ↔
      2 * (snapshotAt samples t).countP (·.minPrice < price) ≤ (snapshotAt samples t).length ∧
        (snapshotAt samples t).length < 2 * (snapshotAt samples t).countP (·.minPrice ≤ price) := by
    intro t price
    rw [upperMedian_eq_some_iff, List.countP_map, List.countP_map, List.length_map]
    rfl
  constructor
  · intro h t ht price hprice
    have hpoint := h.price _ (mem_seriesOf.mpr ⟨t, ht, rfl⟩)
    rw [← hhalf, price_pointAt ht, ← hpoint]
    exact hprice
  · intro h
    refine ⟨seriesOf_increasing samples, hinstants, ?_, ?_⟩
    · intro p hp
      obtain ⟨t, -, rfl⟩ := mem_seriesOf.mp hp
      rfl
    · intro p hp
      obtain ⟨t, ht, rfl⟩ := mem_seriesOf.mp hp
      obtain ⟨price, hprice⟩ := upperMedian_isSome (cheapestCopies_ne_nil ht)
      rw [← price_pointAt ht, (hhalf t price).mpr (h t ht price hprice)]
      exact hprice

/-! ## The rows of realms -/

theorem row_eq (h : row ∈ rollups F history ladders c window) :
    row = roll F history row.group row.scope (scopedTo history c row) ladders c window := by
  cases hscope : row.scope with
  | realm realm =>
      rw [scopedTo, hscope]
      exact (realm_row h hscope).1
  | region =>
      simp only [rollups, List.mem_flatMap, List.mem_cons, List.mem_map] at h
      obtain ⟨⟨g, samples⟩, hg, rfl | ⟨r, -, rfl⟩⟩ := h
      · obtain ⟨-, rfl⟩ := Groups.mem_grouped.mp hg
        rfl
      · cases hscope

theorem mem_scopedTo {s : RealmSample} (hscope : row.scope = .realm realm) (hs : s ∈ scopedTo history c row) :
    s.region = row.region ∧ s.item = row.item ∧ s.realm = realm := by
  rw [scopedTo, hscope] at hs
  obtain ⟨hgroup, hrealm⟩ := List.mem_filter.mp hs
  have hrow : c.groupOf s = row.group := (Groups.mem_group.mp hgroup).2
  exact ⟨congrArg RollupGroup.region hrow, congrArg RollupGroup.item hrow, by simpa using hrealm⟩

/-- On one realm the median of the realms is the cheapest copy. -/
theorem median_of_realm (h : ∀ s ∈ samples, s.realm = realm) (t : Millis) :
    upperMedian (cheapestCopies samples t) = ((snapshotAt samples t).map RealmSample.minPrice).min? := by
  have hrealm : ∀ s ∈ snapshotAt samples t, s.realm = realm := fun s hs => h s (Groups.mem_group.mp hs).1
  rw [cheapestCopies, perRealm_eq hrealm]
  cases ((snapshotAt samples t).map RealmSample.minPrice).min? <;> simp [upperMedian, sortBy]

theorem currentOf_scopedTo (hscope : row.scope = .realm realm)
    (hnewest : newestOf history row.region row.item realm = some t) :
    currentOf history (scopedTo history c row) = snapshotAt (scopedTo history c row) t := by
  refine List.filter_congr fun s hs => ?_
  obtain ⟨hregion, hitem, hrealm⟩ := mem_scopedTo hscope hs
  rw [hregion, hitem, hrealm, hnewest]
  simp [eq_comm]

/-- A realm's samples are split in half when more than half of them cost what the cheapest does. -/
theorem halved_realm_iff (h : ∀ s ∈ samples, s.realm = realm) :
    Halved samples ↔ ∀ t ∈ samples.map RealmSample.observedAt,
      ∀ price ∈ ((snapshotAt samples t).map RealmSample.minPrice).min?,
        (snapshotAt samples t).length < 2 * (snapshotAt samples t).countP (·.minPrice = price) := by
  unfold Halved
  simp only [median_of_realm h]
  refine forall₂_congr fun t _ => forall₂_congr fun price hprice => ?_
  have hmin := (List.min?_eq_some_iff.mp hprice).2
  have hleast : ∀ s ∈ snapshotAt samples t, price ≤ s.minPrice := fun s hs =>
    hmin _ (List.mem_map_of_mem hs)
  have hbelow : (snapshotAt samples t).countP (·.minPrice < price) = 0 :=
    List.countP_eq_zero.mpr fun s hs => by simpa using hleast s hs
  have hat : (snapshotAt samples t).countP (·.minPrice ≤ price) =
      (snapshotAt samples t).countP (·.minPrice = price) := by
    refine List.countP_congr fun s hs => ?_
    have hle := hleast s hs
    simp only [decide_eq_true_eq]
    omega
  rw [hbelow, hat]
  simp

/-- With one variant on each realm the samples are always split in half. -/
theorem halved_of_nodup (h : ∀ t, ((snapshotAt samples t).map RealmSample.realm).Nodup) :
    Halved samples := by
  intro t _ price hprice
  have hperm : (cheapestCopies samples t).Perm ((snapshotAt samples t).map RealmSample.minPrice) := by
    have hpairs := (perRealm_perm_of_nodup (h t)).map Prod.snd
    rwa [List.map_map] at hpairs
  have hmedian := upperMedian_eq_some_iff.mp hprice
  rw [hperm.countP_eq, hperm.countP_eq, hperm.length_eq, List.countP_map, List.countP_map,
    List.length_map] at hmedian
  exact hmedian

/-- What is cheapest on a realm now is charted at the realm's newest instant. -/
theorem newest_of_charts (h : row ∈ rollups F history ladders c window) (hscope : row.scope = .realm realm)
    (hcharts : Charts (scopedTo history c row) (seriesOf (scopedTo history c row)))
    (hnow : row.cheapestNow = some price) :
    ∃ p ∈ seriesOf (scopedTo history c row),
      newestOf history row.region row.item realm = some p.at' ∧ p.price = price := by
  have hrealm : ∀ s ∈ scopedTo history c row, s.realm = realm := fun s hs => (mem_scopedTo hscope hs).2.2
  have hcheapest : ((currentOf history (scopedTo history c row)).map RealmSample.minPrice).min? =
      some price := by
    have hrow := congrArg MarketRollup.cheapestNow (row_eq h)
    rw [roll_cheapestNow fun s hs => hrealm s (currentOf_subset hs), hnow] at hrow
    exact hrow.symm
  obtain ⟨s, hs, -⟩ := List.mem_map.mp (List.min?_eq_some_iff.mp hcheapest).1
  obtain ⟨hscoped, hnewest⟩ := List.mem_filter.mp hs
  obtain ⟨hregion, hitem, hon⟩ := mem_scopedTo hscope hscoped
  rw [decide_eq_true_eq, hregion, hitem, hon] at hnewest
  have ht : s.observedAt ∈ (scopedTo history c row).map RealmSample.observedAt := List.mem_map_of_mem hscoped
  have hpoint := mem_seriesOf.mpr ⟨s.observedAt, ht, rfl⟩
  refine ⟨_, hpoint, hnewest, ?_⟩
  have hprice := hcharts.price _ hpoint
  have hcurrent := currentOf_scopedTo (c := c) hscope hnewest
  rw [median_of_realm hrealm] at hprice
  rw [hcurrent] at hcheapest
  exact Option.some.inj (hprice.symm.trans hcheapest)

/-- Of every row, the series that is stored is the thinned one, and before it is thinned it says what it is
meant to exactly when at every instant the median of the realms splits the samples in half. -/
theorem series_says_iff (F : Floating) (history : List RealmSample) (ladders : RealmLadders) (c : Catalog)
    (window : Window) : ∀ row ∈ rollups F history ladders c window,
      row.series = downsample (seriesOf (scopedTo history c row)) chartPoints ∧
        (row.SeriesSays history c ↔ Halved (scopedTo history c row)) := by
  intro row h
  refine ⟨congrArg MarketRollup.series (row_eq h), fun hsays => (charts_iff _).mp hsays.charts, ?_⟩
  intro hhalved
  have hcharts := (charts_iff _).mpr hhalved
  refine ⟨hcharts, ?_, ?_⟩
  · intro realm hscope p hp
    rw [← median_of_realm fun s hs => (mem_scopedTo hscope hs).2.2]
    exact hcharts.price p hp
  · intro realm hscope price hprice
    exact newest_of_charts h hscope hcharts hprice

section Variants

instance Halved.decidable (samples : List RealmSample) : Decidable (Halved samples) :=
  inferInstanceAs (Decidable (∀ t ∈ samples.map RealmSample.observedAt,
    ∀ price ∈ upperMedian (cheapestCopies samples t),
      2 * (snapshotAt samples t).countP (·.minPrice < price) ≤ (snapshotAt samples t).length ∧
        (snapshotAt samples t).length < 2 * (snapshotAt samples t).countP (·.minPrice ≤ price)))

/-- A catalogue that tells no variants apart. -/
def plainCatalog : Catalog := ⟨[], [], .active, 1, [], [], [], [], [], [], []⟩

/-- One variant on each of two realms. -/
def oneEach : List RealmSample :=
  [⟨7, .eu, 1403, "1".toList, 10, 100, 100, 100, 2⟩, ⟨7, .eu, 1404, "1".toList, 10, 300, 300, 300, 1⟩]

/-- Two variants on one realm. -/
def bothOnOne : List RealmSample :=
  [⟨7, .eu, 1403, "1".toList, 10, 100, 100, 100, 2⟩, ⟨7, .eu, 1403, "2".toList, 10, 300, 300, 300, 1⟩]

theorem series_says_iff_oneEach :
    ∃ row ∈ rollups ⟨fun _ _ => 0, fun _ _ => none⟩ oneEach [] plainCatalog .all,
      row.scope = .region ∧ row.SeriesSays oneEach plainCatalog := by
  have hrow : roll ⟨fun _ _ => 0, fun _ _ => none⟩ oneEach ⟨.eu, 7, .boe, none⟩ .region oneEach []
      plainCatalog .all ∈ rollups ⟨fun _ _ => 0, fun _ _ => none⟩ oneEach [] plainCatalog .all := by
    decide
  refine ⟨_, hrow, rfl, ?_⟩
  exact (series_says_iff _ _ _ _ _ _ hrow).2.mpr (by decide)

/-- A realm that lists a cheap variant and a dear one is charted at the dear one. -/
theorem variants_charted_dear :
    ∃ row ∈ rollups ⟨fun _ _ => 0, fun _ _ => none⟩ bothOnOne [] plainCatalog .all,
      row.scope = .realm 1403 ∧ row.cheapestNow = some 100 ∧ row.series = [⟨10, 300, 3⟩] ∧
        ¬ row.SeriesSays bothOnOne plainCatalog := by
  have hrow : roll ⟨fun _ _ => 0, fun _ _ => none⟩ bothOnOne ⟨.eu, 7, .boe, none⟩ (.realm 1403) bothOnOne []
      plainCatalog .all ∈ rollups ⟨fun _ _ => 0, fun _ _ => none⟩ bothOnOne [] plainCatalog .all := by
    decide
  refine ⟨_, hrow, rfl, by decide, by decide, ?_⟩
  intro hsays
  exact absurd ((charts_iff _).mp hsays.charts) (by decide)

end Variants

end Gavel.Market
