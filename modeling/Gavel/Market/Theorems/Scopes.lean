import Gavel.Market.Lemmas.Rollups
import Gavel.Market.Lemmas.Selections

/-!
# A region's row and the rows of its realms

Rows are made of one group of samples at a time: one for the region from all of them, and one for each
realm from its own. Whatever a realm has taken off sale and however far it lags behind, the two scopes
agree: counts add up, and extremes are those of the realms.
-/

namespace Gavel.Market

open Gavel.Cluster (Millis)

variable {F : Floating} {history samples current : List RealmSample} {ladders : RealmLadders}
  {c : Catalog} {window : Window} {g : RollupGroup} {realm : RealmId} {row : MarketRollup}
  {s : RealmSample}

/-! ## What agreement is -/

/-- What rows say of a modifier. -/
def modifiersNamed (rows : List MarketRollup) (name : Text) : List ModifierStat :=
  (rows.flatMap MarketRollup.modifiers).filter (·.name = name)

/-- What rows say of an item level. -/
def levelsAt (rows : List MarketRollup) (itemLevel : Nat) : List LevelStat :=
  (rows.flatMap MarketRollup.levels).filter (·.itemLevel = itemLevel)

/-- A region's row says of its market what the rows of its realms come to. -/
structure Agrees (region : MarketRollup) (realms : List MarketRollup) : Prop where
  listingsNow : region.listingsNow = (realms.map MarketRollup.listingsNow).sum
  listingsSeen : region.listingsSeen = (realms.map MarketRollup.listingsSeen).sum
  realmsListing : region.realmsListing = (realms.filter fun row => row.cheapestNow.isSome).length
  modifiers : ∀ m ∈ region.modifiers,
    m.now = ((modifiersNamed realms m.name).map ModifierStat.now).sum ∧
      m.seen = ((modifiersNamed realms m.name).map ModifierStat.seen).sum
  /-- No realm's row has a modifier the region's lacks. -/
  named : ∀ row ∈ realms, ∀ m ∈ row.modifiers, m.name ∈ region.modifiers.map ModifierStat.name
  levels : ∀ l ∈ region.levels,
    l.listings = ((levelsAt realms l.itemLevel).map LevelStat.listings).sum
  levelled : ∀ row ∈ realms, ∀ l ∈ row.levels, l.itemLevel ∈ region.levels.map LevelStat.itemLevel
  cheapestNow : region.cheapestNow = (realms.filterMap MarketRollup.cheapestNow).min?
  cheapestEver : region.cheapestEver = (realms.filterMap MarketRollup.cheapestEver).min?
  dearestRealmNow : region.dearestRealmNow = (realms.filterMap MarketRollup.cheapestNow).max?
  observedAt : region.observedAt = (realms.filterMap MarketRollup.observedAt).max?
  cheapestRealm : ∀ price ∈ region.cheapestNow, ∃ realm ∈ region.cheapestRealm, ∃ row ∈ realms,
    row.scope = .realm realm ∧ row.cheapestNow = some price
  dearestRealm : ∀ price ∈ region.dearestRealmNow, ∃ realm ∈ region.dearestRealm, ∃ row ∈ realms,
    row.scope = .realm realm ∧ row.cheapestNow = some price
  median : ∀ low ∈ region.cheapestNow, ∃ median ∈ region.medianRealmNow,
    ∃ high ∈ region.dearestRealmNow, low ≤ median ∧ median ≤ high
  /-- No realm is named where nothing is on sale. -/
  unnamed : region.cheapestNow = none →
    region.cheapestRealm = none ∧ region.dearestRealm = none ∧ region.medianRealmNow = none ∧
      region.dearestRealmNow = none

/-! ## Counting by modifier and by level -/

/-- The listings a sample counts for at an item level. -/
def levelWeight (c : Catalog) (itemLevel : Nat) (s : RealmSample) : Nat :=
  if (c.rankIn s.variant).map ItemLevel.itemLevel = some itemLevel then s.listings else 0

theorem nodup_namesOf (samples : List RealmSample) (c : Catalog) : (namesOf samples c).Nodup :=
  Groups.keys_nodup

theorem mem_namesOf {name : Text} :
    name ∈ namesOf samples c ↔ ∃ s ∈ samples, name ∈ c.modifierNames s.variant := by
  simp [namesOf, namesIn]

theorem nameWeight_eq_zero {name : Text} (h : name ∉ c.modifierNames s.variant) :
    nameWeight c name s = 0 := by
  have hnone : (c.modifierNames s.variant).filter (· = name) = [] := by
    refine List.filter_eq_nil_iff.mpr fun n hn heq => h ?_
    rwa [decide_eq_true_eq.mp heq] at hn
  rw [nameWeight, hnone, List.map_nil, List.sum_nil]

theorem sum_modifiers {name : Text} (hsub : current ⊆ samples) :
    (((modifiersOf samples current c).filter (·.name = name)).map ModifierStat.now).sum =
        (current.map (nameWeight c name)).sum ∧
      (((modifiersOf samples current c).filter (·.name = name)).map ModifierStat.seen).sum =
        (samples.map (nameWeight c name)).sum := by
  have hzero : name ∉ namesOf samples c → ∀ s ∈ samples, nameWeight c name s = 0 :=
    fun hname s hs => nameWeight_eq_zero fun hmem => hname (mem_namesOf.mpr ⟨s, hs, hmem⟩)
  have hnames : ∀ name, (modifierStat samples current c name).name = name := fun _ => rfl
  rw [modifiersOf_eq]
  constructor
  · apply Groups.sum_filter_key ModifierStat.now hnames (nodup_namesOf samples c)
    intro hname
    exact List.sum_eq_zero (List.forall_mem_map.mpr fun s hs => hzero hname s (hsub hs))
  · apply Groups.sum_filter_key ModifierStat.seen hnames (nodup_namesOf samples c)
    intro hname
    exact List.sum_eq_zero (List.forall_mem_map.mpr (hzero hname))

theorem levels_eq (current : List RealmSample) (c : Catalog) :
    (levelsOf current c).map (fun l => (l.itemLevel, l.listings)) =
      (Groups.keys (· ≤ ·) (fun e => e.1.itemLevel) (ranked current c)).map fun n =>
        (n, (current.map (levelWeight c n)).sum) := by
  have hsum : ∀ n, (((Groups.group (fun e : ItemLevel × RealmSample => e.1.itemLevel) (ranked current c)
      n).map Prod.snd).map RealmSample.listings).sum = (current.map (levelWeight c n)).sum := by
    intro n
    induction current with
    | nil => rfl
    | cons s current ih =>
        rw [List.map_cons, List.sum_cons, ← ih, ranked, List.filterMap_cons, levelWeight]
        cases c.rankIn s.variant with
        | none => simp [ranked]
        | some level => by_cases hn : level.itemLevel = n <;> simp [hn, Groups.group, ranked]
  calc (levelsOf current c).map (fun l => (l.itemLevel, l.listings))
      = ((levelsOf current c).map LevelStat.withoutLabel).map fun l => (l.itemLevel, l.listings) := by
        simp [LevelStat.withoutLabel, Function.comp_def]
    _ = _ := by
        rw [levelsOf_withoutLabel, Groups.grouped, List.map_map, List.map_map]
        refine List.map_congr_left fun n _ => ?_
        simp only [Function.comp_apply, levelStat, hsum]

theorem sum_levels {itemLevel : Nat} :
    (((levelsOf current c).filter (·.itemLevel = itemLevel)).map LevelStat.listings).sum =
      (current.map (levelWeight c itemLevel)).sum := by
  have hmap : ((levelsOf current c).filter (·.itemLevel = itemLevel)).map LevelStat.listings =
      (((levelsOf current c).map fun l => (l.itemLevel, l.listings)).filter (·.1 = itemLevel)).map
        Prod.snd := by
    simp [List.filter_map, Function.comp_def]
  rw [hmap, levels_eq]
  apply Groups.sum_filter_key (f := fun n => (n, (current.map (levelWeight c n)).sum)) Prod.snd
    (fun _ => rfl) Groups.keys_nodup
  intro hlevel
  refine List.sum_eq_zero (List.forall_mem_map.mpr fun s hs => ?_)
  refine if_neg fun hrank => hlevel (Groups.mem_keys.mpr ?_)
  obtain ⟨level, hl, rfl⟩ := Option.map_eq_some_iff.mp hrank
  exact ⟨(level, s), List.mem_filterMap.mpr ⟨s, hs, by simp [hl]⟩, rfl⟩

theorem mem_levels {itemLevel : Nat} :
    itemLevel ∈ (levelsOf current c).map LevelStat.itemLevel ↔
      ∃ s ∈ current, (c.rankIn s.variant).map ItemLevel.itemLevel = some itemLevel := by
  have hkeys : (levelsOf current c).map LevelStat.itemLevel =
      Groups.keys (· ≤ ·) (fun e => e.1.itemLevel) (ranked current c) := by
    have hfst := congrArg (List.map Prod.fst) (levels_eq current c)
    simpa [Function.comp_def] using hfst
  rw [hkeys, Groups.mem_keys]
  simp only [ranked, List.mem_filterMap, Option.map_eq_some_iff]
  constructor
  · rintro ⟨_, ⟨s, hs, level, hl, rfl⟩, rfl⟩
    exact ⟨s, hs, level, hl, rfl⟩
  · rintro ⟨s, hs, level, hl, rfl⟩
    exact ⟨(level, s), ⟨s, hs, level, hl, rfl⟩, rfl⟩

/-! ## The rows of one group -/

/-- The row of a region, rolled up from all samples of a group. -/
def regionRow (F : Floating) (history samples : List RealmSample) (ladders : RealmLadders)
    (c : Catalog) (window : Window) (g : RollupGroup) : MarketRollup :=
  roll F history g .region samples ladders c window

/-- The row of a realm, rolled up from its own. -/
def realmRow (F : Floating) (history samples : List RealmSample) (ladders : RealmLadders)
    (c : Catalog) (window : Window) (g : RollupGroup) (realm : RealmId) : MarketRollup :=
  roll F history g (.realm realm) (Groups.group RealmSample.realm samples realm) ladders c window

theorem currentOf_group :
    currentOf history (Groups.group RealmSample.realm samples realm) =
      Groups.group RealmSample.realm (currentOf history samples) realm := currentOf_filter _

theorem realmRow_cheapestNow :
    (realmRow F history samples ladders c window g realm).cheapestNow =
      ((Groups.group RealmSample.realm (currentOf history samples) realm).map
        RealmSample.minPrice).min? := by
  rw [← currentOf_group]
  apply roll_cheapestNow
  intro s hs
  exact (Groups.mem_group.mp (currentOf_subset hs)).2

theorem realm_mem_current : ∀ s ∈ currentOf history samples, s.realm ∈ realmsOf samples :=
  fun s hs => mem_realmsOf.mpr ⟨s, currentOf_subset hs, rfl⟩

theorem realm_mem : ∀ s ∈ samples, s.realm ∈ realmsOf samples :=
  fun s hs => mem_realmsOf.mpr ⟨s, hs, rfl⟩

theorem mem_prices {p : Copper} :
    p ∈ ((realmsOf samples).map (realmRow F history samples ladders c window g)).filterMap
        MarketRollup.cheapestNow ↔
      p ∈ (perRealm (currentOf history samples)).map Prod.snd := by
  simp only [List.filterMap_map, List.mem_filterMap, Function.comp_apply, realmRow_cheapestNow,
    List.mem_map, Prod.exists, exists_eq_right, mem_perRealm]
  constructor
  · rintro ⟨realm, -, hp⟩
    exact ⟨realm, hp⟩
  · rintro ⟨realm, hp⟩
    obtain ⟨s, hs, -⟩ := List.mem_map.mp (List.min?_eq_some_iff.mp hp).1
    obtain ⟨hcurrent, rfl⟩ := Groups.mem_group.mp hs
    exact ⟨s.realm, realm_mem_current s hcurrent, hp⟩

/-- A realm that is named charges the price it is named for. -/
theorem row_of_perRealm {p : Copper} (h : (realm, p) ∈ perRealm (currentOf history samples)) :
    ∃ row ∈ (realmsOf samples).map (realmRow F history samples ladders c window g),
      row.scope = .realm realm ∧ row.cheapestNow = some p := by
  have hp := mem_perRealm.mp h
  obtain ⟨s, hs, -⟩ := List.mem_map.mp (List.min?_eq_some_iff.mp hp).1
  obtain ⟨hcurrent, rfl⟩ := Groups.mem_group.mp hs
  exact ⟨_, List.mem_map_of_mem (realm_mem_current s hcurrent), rfl, realmRow_cheapestNow.trans hp⟩

theorem sum_realmRows {count : MarketRollup → Nat} {weight : RealmSample → Nat} {of' : List RealmSample}
    (hof : ∀ s ∈ of', s.realm ∈ realmsOf samples)
    (hcount : ∀ realm, count (realmRow F history samples ladders c window g realm) =
      ((Groups.group RealmSample.realm of' realm).map weight).sum) :
    (of'.map weight).sum =
      (((realmsOf samples).map (realmRow F history samples ladders c window g)).map count).sum := by
  rw [Groups.sum_group weight (nodup_realmsOf samples) hof, List.map_map]
  congr 1
  exact List.map_congr_left fun realm _ => (hcount realm).symm

theorem listingRealms_eq :
    ((currentOf history samples).map RealmSample.realm).dedup.length =
      (((realmsOf samples).map (realmRow F history samples ladders c window g)).filter
        fun row => row.cheapestNow.isSome).length := by
  rw [List.filter_map, List.length_map]
  refine List.Perm.length_eq ?_
  refine (List.perm_ext_iff_of_nodup (List.nodup_dedup _) ((nodup_realmsOf samples).filter _)).mpr ?_
  intro realm
  rw [List.mem_dedup, List.mem_map, List.mem_filter, Function.comp_apply, realmRow_cheapestNow,
    List.isSome_min?_iff]
  constructor
  · rintro ⟨s, hs, rfl⟩
    have hgroup : s ∈ Groups.group RealmSample.realm (currentOf history samples) s.realm :=
      Groups.mem_group.mpr ⟨hs, rfl⟩
    exact ⟨realm_mem_current s hs, List.ne_nil_of_mem (List.mem_map_of_mem hgroup)⟩
  · rintro ⟨-, hne⟩
    obtain ⟨p, hp⟩ := List.exists_mem_of_ne_nil _ hne
    obtain ⟨s, hs, -⟩ := List.mem_map.mp hp
    exact ⟨s, Groups.mem_group.mp hs⟩

/-- Numbers that are one realm's each, none of them zero, are fewer than 32 bits can count. -/
theorem realms_fit (h : ∀ s ∈ current, 0 < s.realm ∧ s.realm ≤ maxU32) :
    (current.map RealmSample.realm).dedup.length < 2 ^ 32 := by
  have hsub : (current.map RealmSample.realm).dedup ⊆ List.range' 1 maxU32 := by
    intro realm hrealm
    obtain ⟨s, hs, rfl⟩ := List.mem_map.mp (List.mem_dedup.mp hrealm)
    have hs := h s hs
    exact List.mem_range'_1.mpr ⟨hs.1, Nat.lt_one_add_iff.mpr hs.2⟩
  have hlen := (List.subperm_of_subset (List.nodup_dedup _) hsub).length_le
  rw [List.length_range'] at hlen
  exact Nat.lt_of_le_of_lt hlen (by decide)

/-- The middle one of sorted numbers lies between the first and the last. -/
theorem median_between {l : List Nat} {low : Nat} (h : (sortBy id l).head? = some low) :
    ∃ median ∈ (sortBy id l)[(sortBy id l).length / 2]?, ∃ high ∈ (sortBy id l).getLast?,
      low ≤ median ∧ median ≤ high := by
  have hne : sortBy id l ≠ [] := by
    intro hnil
    rw [hnil] at h
    cases h
  have hlt : (sortBy id l).length / 2 < (sortBy id l).length :=
    Nat.div_lt_self (List.length_pos_iff.mpr hne) (by omega)
  have hmem : (sortBy id l)[(sortBy id l).length / 2] ∈ l := mem_sortBy.mp (List.getElem_mem hlt)
  refine ⟨_, List.getElem?_eq_getElem hlt, _, List.getLast?_eq_getLast_of_ne_nil hne, ?_, ?_⟩
  · rw [head_sortBy] at h
    exact (List.min?_eq_some_iff.mp h).2 _ hmem
  · have hlast : l.max? = some ((sortBy id l).getLast hne) := by
      rw [← last_sortBy, List.getLast?_eq_getLast_of_ne_nil hne]
    exact (List.max?_eq_some_iff.mp hlast).2 _ hmem

/-! ## Agreement -/

/-- Entries of one key in all rows, counted row by row. -/
theorem sum_flatMap_filter {α β : Type} (rows : List α) (entries : α → List β) (p : β → Bool)
    (count : β → Nat) :
    (((rows.flatMap entries).filter p).map count).sum =
      (rows.map fun row => (((entries row).filter p).map count).sum).sum := by
  induction rows with
  | nil => rfl
  | cons row rows ih => simp [List.filter_append, ih]

/-- The region's row of a group agrees with the rows of the realms that occur in it. -/
theorem regionRow_agrees (h : ∀ s ∈ samples, 0 < s.realm ∧ s.realm ≤ maxU32) :
    Agrees (regionRow F history samples ladders c window g)
      ((realmsOf samples).map (realmRow F history samples ladders c window g)) where
  listingsNow := sum_realmRows realm_mem_current fun realm => by
    rw [← currentOf_group]
    rfl
  listingsSeen := sum_realmRows realm_mem fun realm => rfl
  realmsListing := by
    rw [← listingRealms_eq]
    exact Nat.mod_eq_of_lt (realms_fit fun s hs => h s (currentOf_subset hs))
  modifiers := by
    intro m hm
    change m ∈ modifiersOf samples (currentOf history samples) c at hm
    rw [modifiersOf_eq] at hm
    obtain ⟨name, -, rfl⟩ := List.mem_map.mp hm
    constructor
    · rw [modifiersNamed, sum_flatMap_filter]
      refine sum_realmRows realm_mem_current fun realm => ?_
      rw [← currentOf_group]
      exact (sum_modifiers currentOf_subset).1
    · rw [modifiersNamed, sum_flatMap_filter]
      exact sum_realmRows realm_mem fun realm => (sum_modifiers currentOf_subset).2
  named := by
    intro row hrow m hm
    obtain ⟨realm, -, rfl⟩ := List.mem_map.mp hrow
    change m ∈ modifiersOf (Groups.group RealmSample.realm samples realm) _ c at hm
    change m.name ∈ (modifiersOf samples (currentOf history samples) c).map ModifierStat.name
    rw [modifiersOf_eq] at hm ⊢
    obtain ⟨name, hname, rfl⟩ := List.mem_map.mp hm
    obtain ⟨s, hs, hsname⟩ := mem_namesOf.mp hname
    rw [List.map_map]
    exact List.mem_map_of_mem (mem_namesOf.mpr ⟨s, (Groups.mem_group.mp hs).1, hsname⟩)
  levels := by
    intro l hl
    have hlisted := List.mem_map_of_mem (f := fun l => (l.itemLevel, l.listings)) hl
    change _ ∈ (levelsOf (currentOf history samples) c).map _ at hlisted
    rw [levels_eq] at hlisted
    obtain ⟨itemLevel, -, heq⟩ := List.mem_map.mp hlisted
    obtain ⟨rfl, hlistings⟩ := Prod.mk.inj heq
    rw [← hlistings, levelsAt, sum_flatMap_filter]
    refine sum_realmRows realm_mem_current fun realm => ?_
    rw [← currentOf_group]
    exact sum_levels
  levelled := by
    intro row hrow l hl
    obtain ⟨realm, -, rfl⟩ := List.mem_map.mp hrow
    have hmem := mem_levels.mp (List.mem_map_of_mem (f := LevelStat.itemLevel) hl)
    obtain ⟨s, hs, hlevel⟩ := hmem
    rw [currentOf_group] at hs
    exact mem_levels.mpr ⟨s, (Groups.mem_group.mp hs).1, hlevel⟩
  cheapestNow := (head_sortBy _).trans (Assoc.min?_congr fun _ => mem_prices.symm)
  cheapestEver := by
    rw [List.filterMap_map]
    exact Groups.extreme_group Groups.extreme_min RealmSample.minPrice realm_mem
  dearestRealmNow := (last_sortBy _).trans (Assoc.max?_congr fun _ => mem_prices.symm)
  observedAt := by
    rw [List.filterMap_map]
    exact Groups.extreme_group Groups.extreme_max RealmSample.observedAt realm_mem
  cheapestRealm := by
    intro price hprice
    have hmin := (map_minBy (perRealm (currentOf history samples))).trans
      ((head_sortBy _).symm.trans hprice)
    obtain ⟨⟨realm, p⟩, hbest, rfl⟩ := Option.map_eq_some_iff.mp hmin
    exact ⟨realm, congrArg (Option.map Prod.fst) hbest, row_of_perRealm (minBy_mem hbest)⟩
  dearestRealm := by
    intro price hprice
    have hmax := (map_maxBy (perRealm (currentOf history samples))).trans
      ((last_sortBy _).symm.trans hprice)
    obtain ⟨⟨realm, p⟩, hbest, rfl⟩ := Option.map_eq_some_iff.mp hmax
    exact ⟨realm, congrArg (Option.map Prod.fst) hbest, row_of_perRealm (maxBy_mem hbest)⟩
  median := fun _ hlow => median_between hlow
  unnamed := by
    intro hnone
    have hnil : perRealm (currentOf history samples) = [] := by
      have hmin := (head_sortBy _).symm.trans hnone
      exact List.map_eq_nil_iff.mp (List.min?_eq_none_iff.mp hmin)
    refine ⟨?_, ?_, ?_, ?_⟩
    · change (minBy Prod.snd (perRealm (currentOf history samples))).map Prod.fst = none
      rw [hnil]
      rfl
    · change (maxBy Prod.snd (perRealm (currentOf history samples))).map Prod.fst = none
      rw [hnil]
      rfl
    · change (sortBy id ((perRealm (currentOf history samples)).map Prod.snd))[_]? = none
      rw [hnil]
      rfl
    · change (sortBy id ((perRealm (currentOf history samples)).map Prod.snd)).getLast? = none
      rw [hnil]
      rfl

/-! ## All rows -/

/-- The rows of a group: the region's, then one for each realm. -/
def groupRows (F : Floating) (history : List RealmSample) (ladders : RealmLadders) (c : Catalog)
    (window : Window) (g : RollupGroup) : List MarketRollup :=
  let samples := Groups.group c.groupOf history g
  regionRow F history samples ladders c window g ::
    (realmsOf samples).map (realmRow F history samples ladders c window g)

theorem rollups_eq :
    rollups F history ladders c window =
      (Groups.keys RollupGroup.le c.groupOf history).flatMap (groupRows F history ladders c window) := by
  rw [rollups, Groups.grouped, List.flatMap_map]
  rfl

theorem group_of_mem (h : row ∈ groupRows F history ladders c window g) : row.group = g := by
  rcases List.mem_cons.mp h with rfl | h
  · rfl
  · obtain ⟨realm, -, rfl⟩ := List.mem_map.mp h
    rfl

theorem rows_of_group (h : s ∈ history) :
    (rollups F history ladders c window).filter (·.group = c.groupOf s) =
      groupRows F history ladders c window (c.groupOf s) := by
  rw [rollups_eq]
  exact Groups.filter_key (fun _ _ => group_of_mem) Groups.keys_nodup (Groups.mem_keys.mpr ⟨s, h, rfl⟩)

theorem exists_sample_of_row (h : row ∈ rollups F history ladders c window) :
    ∃ s ∈ history, row.group = c.groupOf s := by
  rw [rollups_eq] at h
  obtain ⟨g, hg, hrow⟩ := List.mem_flatMap.mp h
  obtain ⟨s, hs, rfl⟩ := Groups.mem_keys.mp hg
  exact ⟨s, hs, group_of_mem hrow⟩

theorem existsUnique_group (h : s ∈ history) :
    ∃! e, e ∈ Groups.grouped RollupGroup.le c.groupOf history ∧ s ∈ e.2 := by
  refine ⟨(c.groupOf s, Groups.group c.groupOf history (c.groupOf s)), ⟨?_, ?_⟩, ?_⟩
  · exact Groups.mem_grouped.mpr ⟨Groups.mem_keys.mpr ⟨s, h, rfl⟩, rfl⟩
  · exact Groups.mem_group.mpr ⟨h, rfl⟩
  · rintro ⟨g, samples⟩ ⟨he, hs⟩
    obtain ⟨-, rfl⟩ := Groups.mem_grouped.mp he
    obtain rfl := (Groups.mem_group.mp hs).2
    rfl

/-- Every sample is in one group, and every row is of the group of a sample. The rows of a group are the
region's and one for each realm that occurs in the group, and they agree. Realm numbers start above
zero, which stands for all of them. -/
theorem scopes_agree (hrealms : ∀ s ∈ history, 0 < s.realm ∧ s.realm ≤ maxU32) :
    (∀ row ∈ rollups F history ladders c window, ∃ s ∈ history, row.group = c.groupOf s) ∧
      ∀ s ∈ history,
        (∃! e, e ∈ Groups.grouped RollupGroup.le c.groupOf history ∧ s ∈ e.2) ∧
          ∃ region realms,
            (rollups F history ladders c window).filter (·.group = c.groupOf s) = region :: realms ∧
              region.scope = .region ∧ (realms.map MarketRollup.scope).Nodup ∧
              (∀ scope, scope ∈ realms.map MarketRollup.scope ↔
                ∃ s' ∈ history, c.groupOf s' = c.groupOf s ∧ scope = .realm s'.realm) ∧
              Agrees region realms := by
  refine ⟨fun row hrow => exists_sample_of_row hrow, fun s hs => ⟨existsUnique_group hs, ?_⟩⟩
  have hscopes : ((realmsOf (Groups.group c.groupOf history (c.groupOf s))).map
      (realmRow F history (Groups.group c.groupOf history (c.groupOf s)) ladders c window
        (c.groupOf s))).map MarketRollup.scope =
          (realmsOf (Groups.group c.groupOf history (c.groupOf s))).map Scope.realm := List.map_map
  refine ⟨_, _, rows_of_group hs, rfl, ?_, ?_, ?_⟩
  · rw [hscopes]
    exact (nodup_realmsOf _).map fun _ _ => Scope.realm.inj
  · intro scope
    rw [hscopes, List.mem_map]
    constructor
    · rintro ⟨realm, hrealm, rfl⟩
      obtain ⟨s', hs', rfl⟩ := mem_realmsOf.mp hrealm
      obtain ⟨hs', hgroup⟩ := Groups.mem_group.mp hs'
      exact ⟨s', hs', hgroup, rfl⟩
    · rintro ⟨s', hs', hgroup, rfl⟩
      exact ⟨s'.realm, realm_mem s' (Groups.mem_group.mpr ⟨hs', hgroup⟩), rfl⟩
  · exact regionRow_agrees fun s' hs' => hrealms s' (Groups.mem_group.mp hs').1

/-- Two realms, the first of which no longer lists what it listed before. -/
def laggingRealms : List RealmSample :=
  [⟨7, .eu, 1403, "1".toList, 10, 100, 100, 100, 2⟩, ⟨7, .eu, 1403, "2".toList, 20, 300, 300, 300, 1⟩,
    ⟨7, .eu, 1404, "1".toList, 15, 200, 200, 250, 4⟩]

theorem scopes_agree_lagging :
    let c : Catalog := ⟨[], [], .active, 1, [], [], [], [], [], [], []⟩
    let rows := rollups ⟨fun _ _ => 0, fun _ _ => none⟩ laggingRealms [] c .all
    ∃ region realms, rows.filter (·.group = ⟨.eu, 7, .boe, none⟩) = region :: realms ∧
      Agrees region realms := by
  intro c rows
  obtain ⟨region, realms, hrows, -, -, -, hagrees⟩ :=
    ((@scopes_agree ⟨fun _ _ => 0, fun _ _ => none⟩ laggingRealms [] c .all (by decide)).2
      ⟨7, .eu, 1403, "1".toList, 10, 100, 100, 100, 2⟩ List.mem_cons_self).2
  exact ⟨region, realms, hrows, hagrees⟩

end Gavel.Market
