import Gavel.Market.Theorems.Codecs
import Gavel.Market.Theorems.Scopes

/-!
# Histories in another order

The store hands over its rows in whatever order it keeps them. No figure depends on it: a commodity's
observations are of different instants, and every reduction of them sorts, groups or picks by the
instant; a roll-up adds, counts and picks extremes. Only the label of an item level is the one of the
first sample at it.
-/

namespace Gavel.Market

open Gavel.Cluster (Millis)

variable {F : Floating}

/-! ## Statistics -/

theorem Buckets.combine_keep (observations : List (Millis × Copper)) :
    Assoc.combine keep observations = maxBy Prod.fst observations := by
  induction observations using List.reverseRecOn with
  | nil => rfl
  | append_singleton observations o ih =>
      rw [Assoc.combine_concat, maxBy_concat, ih]
      cases maxBy Prod.fst observations <;> rfl

/-- Prices by the hour, of observations of different instants. -/
theorem Buckets.fromObservations_perm {o o' : List (Millis × Copper)} (hd : Distinct Prod.fst o)
    (hp : o.Perm o') : fromObservations o = fromObservations o' := by
  have hlatest : Assoc.collect (fun o => o.1 / hourMs) keep o =
      Assoc.collect (fun o => o.1 / hourMs) keep o' := by
    apply Assoc.collect_congr
    intro k
    rw [combine_keep, combine_keep]
    exact maxBy_perm (hd.filter _) (hp.filter _)
  exact congrArg (fun m : List (Nat × Millis × Copper) => (⟨sortBy id (m.map fun e => e.2.2)⟩ : Buckets))
    hlatest

theorem Heatmap.of_perm {o o' : List (Millis × Copper)} (hd : Distinct Prod.fst o) (hp : o.Perm o') :
    Heatmap.of F o = Heatmap.of F o' := by
  -- a cell takes nothing of its group but the median
  have hfill : ∀ groups : List (Nat × List (Millis × Copper)), ∀ acc,
      groups.foldl (fillCell F) acc =
        (groups.map fun e => (e.1, (Buckets.fromObservations e.2).quantile F 50)).foldl
          (fun acc e => e.2.elim acc fun median => (acc.1.set e.1 (some median), acc.2 + 1)) acc := by
    intro groups acc
    rw [List.foldl_map]
    refine List.foldl_ext _ _ _ fun acc e _ => ?_
    rw [fillCell]
    cases (Buckets.fromObservations e.2).quantile F 50 <;> rfl
  have hgroups : (grouped o).map (fun e => (e.1, (Buckets.fromObservations e.2).quantile F 50)) =
      (grouped o').map fun e => (e.1, (Buckets.fromObservations e.2).quantile F 50) := by
    have hcollect : ∀ o : List (Millis × Copper),
        grouped o = Groups.grouped (· ≤ ·) (fun o => cell o.1) o := fun o => Assoc.collect_append _ o
    rw [hcollect, hcollect]
    refine Groups.map_grouped_congr (φ := id) (fun _ _ => Iff.rfl) Function.injective_id hp ?_
    intro k
    have hk : Buckets.fromObservations (Groups.group (fun o => cell o.1) o k) =
        Buckets.fromObservations (Groups.group (fun o => cell o.1) o' k) :=
      Buckets.fromObservations_perm (hd.filter _) (Groups.group_perm _ hp k)
    rw [hk]
  rw [of_eq, of_eq]
  simp only [hfill, hgroups, hp.length_eq]

/-! ## One commodity -/

section Commodity

variable {history history' : List PriceSample} (hd : Distinct PriceSample.observedAt history)
  (hp : history.Perm history')

include hd hp

theorem analyse_perm (now : Millis) : analyse history now = analyse history' now := by
  have hpoints : sortBy Point.at' (history.map fun s => ⟨s.observedAt, s.p05UnitPrice, s.quantity⟩) =
      sortBy Point.at' (history'.map fun s => ⟨s.observedAt, s.p05UnitPrice, s.quantity⟩) :=
    sortBy_perm (hd.map fun _ => rfl) (hp.map _)
  simp only [analyse, hpoints]

theorem inside_perm (since : Millis) (until' : Option Millis) :
    inside history since until' = inside history' since until' :=
  sortBy_perm (hd.filter _) (hp.filter _)

theorem stateOf_perm (key : MarketKey) (ladder : Ladder) (target : Target) (now : Millis) :
    stateOf F key history ladder target now = stateOf F key history' ladder target now := by
  have hheat : Heatmap.of F (history.map fun s => (s.observedAt, s.p05UnitPrice)) =
      Heatmap.of F (history'.map fun s => (s.observedAt, s.p05UnitPrice)) :=
    Heatmap.of_perm (hd.map fun _ => rfl) (hp.map _)
  simp only [stateOf, analyse_perm hd hp, maxBy_perm hd hp, sortBy_perm hd hp, hheat]

theorem summarise_perm (key : MarketKey) (window : Window) (current : Option Copper)
    (catalog : Catalog) (now : Millis) :
    summarise F key window history current catalog now =
      summarise F key window history' current catalog now := by
  have hover : ∀ since until' expected,
      summariseOver F key window history current since until' expected now =
        summariseOver F key window history' current since until' expected now := by
    intro since until' expected
    simp only [summariseOver, inside_perm hd hp]
  simp only [summarise, hover]

theorem commodity_perm (key : MarketKey) (ladder : Ladder) (catalog : Catalog) (windows : List Window)
    (now : Millis) :
    commodity F key history ladder catalog windows now =
      commodity F key history' ladder catalog windows now := by
  simp only [commodity, stateOf_perm hd hp, summarise_perm hd hp]

end Commodity

/-! ## One roll-up -/

theorem min?_map_perm {α : Type} {l l' : List α} (hp : l.Perm l') (f : α → Nat) :
    (l.map f).min? = (l'.map f).min? := Assoc.min?_congr fun _ => (hp.map f).mem_iff

theorem max?_map_perm {α : Type} {l l' : List α} (hp : l.Perm l') (f : α → Nat) :
    (l.map f).max? = (l'.map f).max? := Assoc.max?_congr fun _ => (hp.map f).mem_iff

theorem sum_map_perm {α : Type} {l l' : List α} (hp : l.Perm l') (f : α → Nat) :
    (l.map f).sum = (l'.map f).sum := (hp.map f).sum_eq

theorem dedup_map_perm {α : Type} {l l' : List α} (hp : l.Perm l') (f : α → Nat) :
    (l.map f).dedup.length = (l'.map f).dedup.length := (hp.map f).dedup.length_eq

/-- The text of a level's label aside. -/
def MarketRollup.withoutLabels (row : MarketRollup) : MarketRollup :=
  { row with levels := row.levels.map LevelStat.withoutLabel }

section Roll

variable {history history' samples samples' current current' : List RealmSample} {c : Catalog}
  {ladders : RealmLadders} {window : Window} {g : RollupGroup} {scope : Scope}

theorem newestOf_perm (hp : history.Perm history') :
    newestOf history = newestOf history' := by
  funext region item realm
  exact max?_map_perm (hp.filter _) _

theorem currentOf_perm (hp : history.Perm history') (hs : samples.Perm samples') :
    (currentOf history samples).Perm (currentOf history' samples') := by
  rw [currentOf, currentOf, newestOf_perm hp]
  exact hs.filter _

theorem perRealm_perm (hp : current.Perm current') : perRealm current = perRealm current' := by
  apply Assoc.collect_congr
  intro realm
  rw [Assoc.combine_min, Assoc.combine_min]
  exact min?_map_perm (hp.filter _) _

/-- The point of one instant. -/
def pointAt (e : Nat × List RealmSample) : Point :=
  let cheapest := sortBy id (e.2.map RealmSample.minPrice)
  { at' := e.1
    price := cheapest.getD (cheapest.length / 2) 0
    quantity := (e.2.map RealmSample.listings).sum }

theorem seriesOf_eq (samples : List RealmSample) :
    seriesOf samples = (Groups.grouped (· ≤ ·) RealmSample.observedAt samples).map pointAt := by
  rw [← Assoc.collect_append]
  rfl

theorem seriesOf_perm (hs : samples.Perm samples') : seriesOf samples = seriesOf samples' := by
  rw [seriesOf_eq, seriesOf_eq]
  refine Groups.map_grouped_congr (φ := id) (fun _ _ => Iff.rfl) Function.injective_id hs ?_
  intro t
  have hgroup := Groups.group_perm RealmSample.observedAt hs t
  simp only [pointAt, sortBy_perm (distinct_id _) (hgroup.map RealmSample.minPrice),
    sum_map_perm hgroup]

theorem levelsOf_perm (hp : current.Perm current') :
    (levelsOf current c).map LevelStat.withoutLabel =
      (levelsOf current' c).map LevelStat.withoutLabel := by
  rw [levelsOf_withoutLabel, levelsOf_withoutLabel]
  have hranked : (ranked current c).Perm (ranked current' c) := hp.filterMap _
  refine Groups.map_grouped_congr (φ := id) (fun _ _ => Iff.rfl) Function.injective_id hranked ?_
  intro n
  have hgroup := (Groups.group_perm (fun e => e.1.itemLevel) hranked n).map Prod.snd
  simp only [levelStat, min?_map_perm hgroup, max?_map_perm hgroup, sum_map_perm hgroup,
    dedup_map_perm hgroup]

theorem char_toNat_injective : Function.Injective Char.toNat := by
  intro a b h
  exact Char.ext (UInt32.toNat_inj.mp h)

theorem modifiersOf_perm (hs : samples.Perm samples') (hp : current.Perm current') :
    modifiersOf samples current c = modifiersOf samples' current' c := by
  have hnames : namesOf samples c = namesOf samples' c := by
    refine Groups.keys_congr (φ := fun a : Text => a.map Char.toNat) (fun _ _ => Iff.rfl)
      (List.map_injective_iff.mpr char_toNat_injective) fun name => ?_
    have hin : (namesIn samples c).Perm (namesIn samples' c) := hs.flatMap_right _
    simp only [hin.mem_iff]
  rw [modifiersOf_eq, modifiersOf_eq, hnames]
  refine List.map_congr_left fun name _ => ?_
  simp only [modifierStat, sum_map_perm hs, sum_map_perm hp]

theorem levelRange_perm {variants variants' : List Text} (hp : variants.Perm variants') :
    c.levelRange variants = c.levelRange variants' := by
  have hlevels := hp.filterMap fun v => (c.rankIn v).map ItemLevel.itemLevel
  simp only [Catalog.levelRange, Assoc.min?_congr fun _ => hlevels.mem_iff,
    Assoc.max?_congr fun _ => hlevels.mem_iff]

theorem roll_perm (hp : history.Perm history') (hs : samples.Perm samples') :
    (roll F history g scope samples ladders c window).withoutLabels =
      (roll F history' g scope samples' ladders c window).withoutLabels := by
  have hcurrent := currentOf_perm hp hs
  have hcollected : (collectedOf history g.region g.item).length =
      (collectedOf history' g.region g.item).length := dedup_map_perm (hp.filter _) _
  simp only [roll, MarketRollup.withoutLabels, perRealm_perm hcurrent, seriesOf_perm hs,
    levelsOf_perm hcurrent, modifiersOf_perm hs hcurrent, hcollected,
    levelRange_perm (hcurrent.map RealmSample.variant), min?_map_perm hs, max?_map_perm hs,
    max?_map_perm hcurrent, sum_map_perm hs, sum_map_perm hcurrent, dedup_map_perm hs,
    dedup_map_perm hcurrent]

theorem realmsOf_perm (hs : samples.Perm samples') : realmsOf samples = realmsOf samples' :=
  sortBy_perm (distinct_id _) (hs.map RealmSample.realm).dedup

theorem groupRows_perm (hp : history.Perm history') :
    (groupRows F history ladders c window g).map MarketRollup.withoutLabels =
      (groupRows F history' ladders c window g).map MarketRollup.withoutLabels := by
  have hgroup := Groups.group_perm c.groupOf hp g
  simp only [groupRows, regionRow, List.map_cons, List.map_map, roll_perm hp hgroup,
    realmsOf_perm hgroup]
  congr 1
  refine List.map_congr_left fun realm _ => ?_
  exact roll_perm hp (Groups.group_perm _ hgroup realm)

theorem places_injective : Function.Injective RollupGroup.places := by
  rintro ⟨region, item, kind, track⟩ ⟨region', item', kind', track'⟩ h
  simp only [RollupGroup.places, List.cons.injEq, and_true] at h
  obtain ⟨hregion, hitem, hkind, htrack⟩ := h
  obtain rfl : region = region' := by
    cases region <;> cases region' <;> first | rfl | cases hregion
  obtain rfl : kind = kind' := by
    cases kind <;> cases kind' <;> first | rfl | cases hkind
  obtain rfl : track = track' := by
    cases track with
    | none => cases track' with
      | none => rfl
      | some t => cases htrack
    | some t => cases track' with
      | none => cases htrack
      | some t' => cases t <;> cases t' <;> first | rfl | cases htrack
  rw [hitem]

theorem rollups_perm (hp : history.Perm history') :
    (rollups F history ladders c window).map MarketRollup.withoutLabels =
      (rollups F history' ladders c window).map MarketRollup.withoutLabels := by
  have hkeys : Groups.keys RollupGroup.le c.groupOf history =
      Groups.keys RollupGroup.le c.groupOf history' :=
    Groups.keys_congr (φ := RollupGroup.places) (fun _ _ => Iff.rfl) places_injective
      fun g => by simp only [hp.mem_iff]
  rw [rollups_eq, rollups_eq, hkeys, List.map_flatMap, List.map_flatMap]
  simp only [groupRows_perm hp]

end Roll

/-! ## Both -/

/-- Neither the rows of a commodity, whose observations are of different instants, nor those of the
per-realm markets depend on the order of the history, but for the labels of item levels. -/
theorem order_irrelevant (F : Floating) (catalog : Catalog) :
    (∀ (key : MarketKey) (history history' : List PriceSample) (ladder : Ladder)
        (windows : List Window) (now : Millis), history.Perm history' →
      (history.map PriceSample.observedAt).Nodup →
      commodity F key history ladder catalog windows now =
        commodity F key history' ladder catalog windows now) ∧
    ∀ (history history' : List RealmSample) (ladders : RealmLadders) (window : Window),
      history.Perm history' →
      (rollups F history ladders catalog window).map MarketRollup.withoutLabels =
        (rollups F history' ladders catalog window).map MarketRollup.withoutLabels := by
  constructor
  · intro key history history' ladder windows now hp hnodup
    exact commodity_perm (.of_nodup hnodup) hp key ladder catalog windows now
  · intro history history' ladders window hp
    exact rollups_perm hp

theorem order_irrelevant_reverse :
    let F : Floating := ⟨fun prices _ => prices.headD 0, fun _ _ => none⟩
    let c : Catalog := ⟨[], [], .active, 1, [], [], [], [], [], [], []⟩
    let history : List PriceSample := [⟨7, .eu, 3600000, 5, 6, 5, 9, 2⟩, ⟨7, .eu, 7200000, 5, 8, 7, 4, 1⟩]
    commodity F (.commodity .eu 7 1) history .empty c [.all] 7200000 =
        commodity F (.commodity .eu 7 1) history.reverse .empty c [.all] 7200000 ∧
      (rollups F laggingRealms [] c .all).map MarketRollup.withoutLabels =
        (rollups F laggingRealms.reverse [] c .all).map MarketRollup.withoutLabels :=
  ⟨(order_irrelevant _ _).1 _ _ _ _ _ _ (List.reverse_perm _).symm (by decide),
    (order_irrelevant _ _).2 _ _ _ _ (List.reverse_perm _).symm⟩

end Gavel.Market
