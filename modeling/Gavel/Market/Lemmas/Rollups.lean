import Gavel.Lib.Collect
import Gavel.Market.Lemmas.Summaries
import Gavel.Market.Rollup

/-!
# The rows of one realm

A realm's row is rolled up from the samples of its group on that realm; what it says of now is the
cheapest price and the listings of those that are of the realm's newest instant for the item.
-/

namespace Gavel.Market

open Gavel.Cluster (Millis)

variable {F : Floating} {history samples current : List RealmSample} {ladders : RealmLadders}
  {c : Catalog} {window : Window} {g : RollupGroup} {realm : RealmId} {row : MarketRollup}
  {s : RealmSample}

/-- The group a row describes. -/
def MarketRollup.group (row : MarketRollup) : RollupGroup := ⟨row.region, row.item, row.kind, row.track⟩

/-- The samples of a group on one realm. -/
def samplesOn (history : List RealmSample) (c : Catalog) (g : RollupGroup) (realm : RealmId) :
    List RealmSample := (Groups.group c.groupOf history g).filter (·.realm = realm)

/-- The realms that count as listing a group in its region's row. -/
def listingRealms (history : List RealmSample) (c : Catalog) (g : RollupGroup) : List RealmId :=
  ((currentOf history (Groups.group c.groupOf history g)).map RealmSample.realm).dedup

/-- A realm's row is rolled up from the samples of its group on the realm, of which there are some. -/
theorem realm_row (h : row ∈ rollups F history ladders c window) (hscope : row.scope = .realm realm) :
    row = roll F history row.group (.realm realm) (samplesOn history c row.group realm) ladders c
        window ∧
      samplesOn history c row.group realm ≠ [] := by
  simp only [rollups, List.mem_flatMap, List.mem_cons, List.mem_map] at h
  obtain ⟨⟨g, samples⟩, hg, hrow⟩ := h
  obtain ⟨-, rfl⟩ := Groups.mem_grouped.mp hg
  rcases hrow with rfl | ⟨r, hr, rfl⟩
  · cases hscope
  · obtain rfl : r = realm := Scope.realm.inj hscope
    refine ⟨rfl, ?_⟩
    rw [realmsOf, mem_sortBy, List.mem_dedup] at hr
    obtain ⟨s, hs, rfl⟩ := List.mem_map.mp hr
    exact List.ne_nil_of_mem (List.mem_filter.mpr ⟨hs, by simp⟩)

theorem mem_perRealm {p : Copper} :
    (realm, p) ∈ perRealm current ↔
      ((Groups.group RealmSample.realm current realm).map RealmSample.minPrice).min? = some p := by
  rw [← Assoc.combine_min]
  exact Assoc.mem_collect

theorem perRealm_eq (h : ∀ s ∈ current, s.realm = realm) :
    perRealm current = ((current.map RealmSample.minPrice).min?.map fun p => (realm, p)).toList := by
  have hsorted : Assoc.Sorted
      ((current.map RealmSample.minPrice).min?.map fun p => (realm, p)).toList := by
    cases (current.map RealmSample.minPrice).min? with
    | none => exact .nil
    | some p => exact List.pairwise_singleton _ _
  refine (Assoc.sorted_collect current).ext hsorted fun r => Option.ext fun p => ?_
  rw [← hsorted.mem_iff, ← (Assoc.sorted_collect current).mem_iff]
  change (r, p) ∈ perRealm current ↔ _
  rw [mem_perRealm]
  by_cases hr : r = realm
  · subst hr
    have hall : Groups.group RealmSample.realm current r = current :=
      List.filter_eq_self.mpr fun s hs => by simp [h s hs]
    simp [hall]
  · have hnone : Groups.group RealmSample.realm current r = [] :=
      List.filter_eq_nil_iff.mpr fun s hs => by simp [h s hs, Ne.symm hr]
    simp [hnone, Ne.symm hr]

/-- Where every realm lists one variant, the cheapest copies are all there are. -/
theorem perRealm_perm_of_nodup (h : (current.map RealmSample.realm).Nodup) :
    (perRealm current).Perm (current.map fun s => (s.realm, s.minPrice)) := by
  have hkeys : (perRealm current).Nodup := (Assoc.sorted_collect current).imp fun hlt heq =>
    Nat.ne_of_lt hlt (congrArg Prod.fst heq)
  have hpairs : (current.map fun s => (s.realm, s.minPrice)).Nodup := by
    refine List.Nodup.of_map Prod.fst ?_
    rwa [List.map_map]
  refine (List.perm_ext_iff_of_nodup hkeys hpairs).mpr fun (realm, price) => ?_
  rw [mem_perRealm, List.min?_eq_some_iff]
  simp only [List.mem_map, Groups.mem_group, Prod.mk.injEq]
  constructor
  · rintro ⟨⟨s, ⟨hs, hrealm⟩, hprice⟩, -⟩
    exact ⟨s, hs, hrealm, hprice⟩
  · rintro ⟨s, hs, hrealm, hprice⟩
    refine ⟨⟨s, ⟨hs, hrealm⟩, hprice⟩, ?_⟩
    rintro _ ⟨s', ⟨hs', hrealm'⟩, rfl⟩
    obtain rfl := List.inj_on_of_nodup_map h hs' hs (hrealm'.trans hrealm.symm)
    exact Nat.le_of_eq hprice.symm

theorem cheapest_eq (h : ∀ s ∈ current, s.realm = realm) :
    (sortBy id ((perRealm current).map Prod.snd)).head? =
      (current.map RealmSample.minPrice).min? := by
  rw [head_sortBy, perRealm_eq h]
  cases (current.map RealmSample.minPrice).min? <;> rfl

/-- The cheapest price a roll-up of one realm's samples gives. -/
theorem roll_cheapestNow {scope : Scope} (h : ∀ s ∈ currentOf history samples, s.realm = realm) :
    (roll F history g scope samples ladders c window).cheapestNow =
      ((currentOf history samples).map RealmSample.minPrice).min? := by
  rw [← cheapest_eq h]
  rfl

theorem roll_listingsNow {scope : Scope} :
    (roll F history g scope samples ladders c window).listingsNow =
      ((currentOf history samples).map RealmSample.listings).sum := rfl

theorem roll_ladder {scope : Scope} :
    (roll F history g scope samples ladders c window).ladder =
      Ladder.merged (laddersOf g scope ladders c) := rfl

/-! ## Realms -/

theorem mem_realmsOf : realm ∈ realmsOf samples ↔ ∃ s ∈ samples, s.realm = realm := by
  rw [realmsOf, mem_sortBy, List.mem_dedup, List.mem_map]

theorem nodup_realmsOf (samples : List RealmSample) : (realmsOf samples).Nodup :=
  (List.perm_insertionSort _ _).nodup_iff.mpr (List.nodup_dedup _)

/-- Which samples are current does not depend on the others they are picked from. -/
theorem currentOf_filter (p : RealmSample → Bool) :
    currentOf history (samples.filter p) = (currentOf history samples).filter p := by
  simp only [currentOf, List.filter_filter, Bool.and_comm]

theorem currentOf_subset : currentOf history samples ⊆ samples := List.filter_subset_self _

/-! ## Levels -/

/-- The samples whose variant has an item level, each with it. -/
def ranked (current : List RealmSample) (c : Catalog) : List (ItemLevel × RealmSample) :=
  current.filterMap fun s => (c.rankIn s.variant).map fun level => (level, s)

def LevelStat.withoutLabel (l : LevelStat) : LevelStat := { l with upgrade := [] }

/-- What the samples of one item level come to, the label aside. -/
def levelStat (itemLevel : Nat) (samples : List RealmSample) : LevelStat :=
  let cheapest := (samples.map RealmSample.minPrice).min?.getD 0
  { itemLevel
    upgrade := []
    cheapest
    highest := (known (samples.map RealmSample.maxPrice).max?).getD cheapest
    listings := (samples.map RealmSample.listings).sum
    realms := (samples.map RealmSample.realm).dedup.length }

/-- Put a sample under its item level, which the first one labels. -/
def underLevel (e : ItemLevel × RealmSample) (held : Option (ItemLevel × List RealmSample)) :
    ItemLevel × List RealmSample :=
  ((held.getD (e.1, [])).1, (held.getD (e.1, [])).2 ++ [e.2])

def addLevel (c : Catalog) (m : List (Nat × ItemLevel × List RealmSample)) (s : RealmSample) :
    List (Nat × ItemLevel × List RealmSample) :=
  match c.rankIn s.variant with
  | none => m
  | some level => Assoc.alter level.itemLevel (underLevel (level, s)) m

theorem foldl_addLevel (m : List (Nat × ItemLevel × List RealmSample)) :
    current.foldl (addLevel c) m =
      (ranked current c).foldl (fun m e => Assoc.alter e.1.itemLevel (underLevel e) m) m := by
  induction current generalizing m with
  | nil => rfl
  | cons s current ih =>
      rw [List.foldl_cons, ih]
      cases hs : c.rankIn s.variant <;> simp [ranked, addLevel, hs]

/-- But for the labels, the levels are what the samples of each come to. -/
theorem levelsOf_withoutLabel (current : List RealmSample) (c : Catalog) :
    (levelsOf current c).map LevelStat.withoutLabel =
      (Groups.grouped (· ≤ ·) (fun e => e.1.itemLevel) (ranked current c)).map fun e =>
        levelStat e.1 (e.2.map Prod.snd) := by
  have hfold : current.foldl (addLevel c) [] =
      Assoc.collect (fun e => e.1.itemLevel) underLevel (ranked current c) := foldl_addLevel []
  have hgroups : (Assoc.collect (fun e => e.1.itemLevel) underLevel (ranked current c)).map
      (fun e => (e.1, e.2.2)) =
        (Groups.grouped (· ≤ ·) (fun e => e.1.itemLevel) (ranked current c)).map fun e =>
          (e.1, e.2.map Prod.snd) := by
    rw [← Assoc.collect_append_map]
    apply Assoc.map_collect
    intro e held
    cases held <;> rfl
  calc (levelsOf current c).map LevelStat.withoutLabel
      = (current.foldl (addLevel c) []).map fun e => levelStat e.1 e.2.2 := List.map_map
    _ = (Groups.grouped (· ≤ ·) (fun e => e.1.itemLevel) (ranked current c)).map fun e =>
          levelStat e.1 (e.2.map Prod.snd) := by
        rw [hfold]
        simpa [Function.comp_def] using congrArg (List.map fun e => levelStat e.1 e.2) hgroups

/-! ## Modifiers -/

/-- The listings a sample counts for under a modifier. -/
def nameWeight (c : Catalog) (name : Text) (s : RealmSample) : Nat :=
  (((c.modifierNames s.variant).filter (· = name)).map fun _ => s.listings).sum

/-- The modifiers of samples, in the order of their names. -/
def namesOf (samples : List RealmSample) (c : Catalog) : List Text :=
  Groups.keys (fun a b : Text => a.map Char.toNat ≤ b.map Char.toNat) Prod.fst (namesIn samples c)

theorem sum_namesIn (samples : List RealmSample) (c : Catalog) (name : Text) :
    ((Groups.group Prod.fst (namesIn samples c) name).map Prod.snd).sum =
      (samples.map (nameWeight c name)).sum := by
  induction samples with
  | nil => rfl
  | cons s samples ih =>
      have hcons : namesIn (s :: samples) c =
          (c.modifierNames s.variant).map (fun name => (name, s.listings)) ++ namesIn samples c := rfl
      rw [hcons, Groups.group, List.filter_append, List.map_append, List.sum_append, List.map_cons,
        List.sum_cons, ← ih, Groups.group, nameWeight, List.filter_map, List.map_map]
      rfl

/-- What the samples come to under one modifier. -/
def modifierStat (samples current : List RealmSample) (c : Catalog) (name : Text) : ModifierStat :=
  ⟨name, (current.map (nameWeight c name)).sum, (samples.map (nameWeight c name)).sum⟩

theorem modifiersOf_eq (samples current : List RealmSample) (c : Catalog) :
    modifiersOf samples current c = (namesOf samples c).map (modifierStat samples current c) := by
  rw [modifiersOf, Groups.grouped, List.map_map]
  refine List.map_congr_left fun name _ => ?_
  simp only [Function.comp_apply, sum_namesIn, modifierStat]

end Gavel.Market
