import Gavel.Market.Lemmas.Ladders
import Gavel.Market.Realm
import Mathlib.Algebra.Order.BigOperators.Group.List

/-!
# What a realm's listings are summarised to

One sample and one ladder for each version on sale, and both describe the same listings.
-/

namespace Gavel.Market

open Gavel.Cluster (Millis)

/-! ## The cheapest and the dearest of sorted prices -/

theorem pairwise_sortBy (l : List Nat) : (sortBy id l).Pairwise (· ≤ ·) :=
  (List.pairwise_insertionSort (fun a b : Nat => id a ≤ id b) l).imp fun h => h

theorem perm_sortBy (l : List Nat) : (sortBy id l).Perm l := List.perm_insertionSort _ l

theorem mem_sortBy {α : Type} {key : α → Nat} {l : List α} {a : α} : a ∈ sortBy key l ↔ a ∈ l :=
  List.mem_insertionSort _

theorem head_sortBy (l : List Nat) : (sortBy id l).head? = l.min? := by
  have hpair := pairwise_sortBy l
  have hmin : (sortBy id l).min? = l.min? := Assoc.min?_congr fun _ => mem_sortBy
  rw [← hmin]
  cases h : sortBy id l with
  | nil => rfl
  | cons a rest =>
      rw [h] at hpair
      refine (List.min?_eq_some_iff.mpr ⟨List.mem_cons_self, ?_⟩).symm
      intro b hb
      rcases List.mem_cons.mp hb with rfl | hb
      · exact Nat.le_refl _
      · exact (List.pairwise_cons.mp hpair).1 b hb

theorem last_sortBy (l : List Nat) : (sortBy id l).getLast? = l.max? := by
  have hpair := pairwise_sortBy l
  have hmax : (sortBy id l).max? = l.max? := Assoc.max?_congr fun _ => mem_sortBy
  rw [← hmax]
  generalize sortBy id l = sorted at hpair
  induction sorted using List.reverseRecOn with
  | nil => rfl
  | append_singleton rest a _ =>
      rw [List.getLast?_append, List.getLast?_singleton, Option.some_or]
      refine (List.max?_eq_some_iff.mpr ⟨by simp, ?_⟩).symm
      intro b hb
      rcases List.mem_append.mp hb with hb | hb
      · exact (List.pairwise_append.mp hpair).2.2 b hb a (List.mem_singleton_self a)
      · exact Nat.le_of_eq (List.mem_singleton.mp hb)

/-! ## One version -/

variable {listings : List GearListing} {region : Region} {realm : RealmId} {observedAt : Millis}
  {v : Version} {s : RealmSample}

/-- The prices a version is listed at. -/
def pricesFor (listings : List GearListing) (v : Version) : List Copper :=
  (Groups.group GearListing.version listings v).map GearListing.price

/-- The ladder of a version. -/
def shelfFor (listings : List GearListing) (v : Version) : Ladder :=
  Ladder.of ((sortBy id (pricesFor listings v)).map fun price => ⟨v.1, price, 1⟩)

/-- A sample that says of a version what is listed. -/
structure Describes (listings : List GearListing) (region : Region) (realm : RealmId)
    (observedAt : Millis) (v : Version) (s : RealmSample) : Prop where
  item : s.item = v.1
  variant : s.variant = v.2
  region : s.region = region
  realm : s.realm = realm
  observedAt : s.observedAt = observedAt
  minPrice : (pricesFor listings v).min? = some s.minPrice
  maxPrice : (pricesFor listings v).max? = some s.maxPrice
  listings : s.listings = (pricesFor listings v).length % 2 ^ 32

theorem sampleOf_group (h : ∃ l ∈ listings, l.version = v) :
    ∃ s, sampleOf region realm observedAt (v, Groups.group GearListing.version listings v) =
      some s ∧ Describes listings region realm observedAt v s := by
  have hne : pricesFor listings v ≠ [] := by
    obtain ⟨l, hl, hv⟩ := h
    intro hnil
    have hmem : l ∈ Groups.group GearListing.version listings v := Groups.mem_group.mpr ⟨hl, hv⟩
    rw [List.map_eq_nil_iff.mp hnil] at hmem
    cases hmem
  have hhead : (pricesOf (Groups.group GearListing.version listings v)).head? =
      (pricesFor listings v).min? := head_sortBy _
  have hlast : (pricesOf (Groups.group GearListing.version listings v)).getLast? =
      (pricesFor listings v).max? := last_sortBy _
  obtain ⟨low, hlow⟩ := Option.isSome_iff_exists.mp (List.isSome_min?_of_ne_nil hne)
  obtain ⟨high, hhigh⟩ := Option.isSome_iff_exists.mp (List.isSome_max?_of_ne_nil hne)
  simp only [sampleOf, hhead, hlast, hlow, hhigh, Option.bind_eq_bind, Option.bind_some,
    Option.pure_def]
  exact ⟨_, rfl, rfl, rfl, rfl, rfl, rfl, hlow, hhigh,
    by simp [pricesOf, sortBy, pricesFor, List.length_insertionSort]⟩

/-- A version's rungs pool its prices, one unit for each listing. -/
theorem units_shelfFor (listings : List GearListing) (v : Version) :
    (shelfFor listings v).units =
      Ladder.pooled ((sortBy id (pricesFor listings v)).map fun price => (price, 1)) := by
  rw [shelfFor, Ladder.of_eq (by simp), Ladder.units_ofUnits]
  simp [Function.comp_def]

theorem fst_entries : ((sortBy id (pricesFor listings v)).map fun price => (price, 1)).map Prod.fst =
    sortBy id (pricesFor listings v) := by
  simp [Function.comp_def]

theorem sum_entries :
    (((sortBy id (pricesFor listings v)).map fun price => (price, 1)).map Prod.snd).sum =
      (pricesFor listings v).length := by
  simp [sortBy, List.length_insertionSort, Function.comp_def]

/-- A version's ladder offers as many units as the version has listings. -/
theorem total_shelfFor : (shelfFor listings v).total = (pricesFor listings v).length := by
  rw [shelfFor, Ladder.total_of, ← shelfFor, units_shelfFor, Ladder.sum_pooled, sum_entries]

/-- The least price of a version's rungs is the version's. -/
theorem min_shelfFor :
    ((shelfFor listings v).units.map Prod.fst).min? = (pricesFor listings v).min? := by
  apply Assoc.min?_congr
  intro p
  rw [units_shelfFor, Ladder.mem_keys_pooled, fst_entries, mem_sortBy]

/-- The ladder of a version that is listed offers every listing at its price. -/
theorem shelfFor_spec (h : Describes listings region realm observedAt v s) :
    (shelfFor listings v).units ≠ [] ∧ (shelfFor listings v).dearest = some s.maxPrice ∧
      (shelfFor listings v).cheapest = some s.minPrice ∧
      (shelfFor listings v).total = (pricesFor listings v).length := by
  have hdearest : (shelfFor listings v).dearest = some s.maxPrice := by
    rw [Ladder.dearest_eq, units_shelfFor, Ladder.last_pooled, fst_entries, ← h.maxPrice]
    exact Assoc.max?_congr fun _ => mem_sortBy
  refine ⟨?_, hdearest, ?_, total_shelfFor⟩
  · intro hnil
    rw [Ladder.dearest_eq, hnil] at hdearest
    cases hdearest
  · rw [Ladder.cheapest_eq, units_shelfFor, Ladder.head_pooled, fst_entries, ← h.minPrice]
    exact Assoc.min?_congr fun _ => mem_sortBy

/-- Every rung of a version's ladder is of a price it is listed at and of at most as many units as it
has listings. -/
theorem shelfFor_rungs : ∀ e ∈ (shelfFor listings v).units,
    e.1 ∈ pricesFor listings v ∧ 0 < e.2 ∧ e.2 ≤ (pricesFor listings v).length := by
  intro e he
  rw [units_shelfFor] at he
  have hkey := Ladder.mem_keys_pooled.mp (List.mem_map_of_mem he)
  rw [fst_entries, mem_sortBy] at hkey
  refine ⟨hkey, Ladder.pooled_pos (by simp) e he, ?_⟩
  have hsum := List.le_sum_of_mem (List.mem_map_of_mem (f := Prod.snd) he)
  rwa [Ladder.sum_pooled, sum_entries] at hsum

/-! ## A whole snapshot -/

theorem mem_samples :
    s ∈ (summariseRealm listings region realm observedAt).1 ↔
      ∃ v, (∃ l ∈ listings, l.version = v) ∧
        sampleOf region realm observedAt (v, Groups.group GearListing.version listings v) =
          some s := by
  simp only [summariseRealm, versionsOf, Groups.grouped, List.filterMap_map, List.mem_filterMap,
    Groups.mem_keys, Function.comp_apply]

theorem describes_of_mem (h : s ∈ (summariseRealm listings region realm observedAt).1) :
    (∃ l ∈ listings, l.version = s.version) ∧
      Describes listings region realm observedAt s.version s := by
  obtain ⟨v, hv, hs⟩ := mem_samples.mp h
  obtain ⟨s', hs', hdesc⟩ := @sampleOf_group listings region realm observedAt v hv
  obtain rfl : s' = s := Option.some.inj (hs'.symm.trans hs)
  have hversion : s'.version = v := Prod.ext hdesc.item hdesc.variant
  rw [hversion]
  exact ⟨hv, hdesc⟩

theorem exists_sample (h : ∃ l ∈ listings, l.version = v) :
    ∃ s ∈ (summariseRealm listings region realm observedAt).1, s.version = v := by
  obtain ⟨s, hs, hdesc⟩ := @sampleOf_group listings region realm observedAt v h
  exact ⟨s, mem_samples.mpr ⟨v, h, hs⟩, Prod.ext hdesc.item hdesc.variant⟩

theorem pairwise_samples :
    (summariseRealm listings region realm observedAt).1.Pairwise fun a b =>
      a.version ≠ b.version := by
  have hkeys : (versionsOf listings).Pairwise fun a b => a.1 ≠ b.1 := by
    rw [versionsOf, Groups.grouped, List.pairwise_map]
    exact Groups.keys_nodup
  have hmem : ∀ e ∈ versionsOf listings, ∀ s, sampleOf region realm observedAt e = some s →
      s.version = e.1 := by
    rintro ⟨v, g⟩ he s hs
    obtain ⟨hv, rfl⟩ := Groups.mem_grouped.mp he
    obtain ⟨s', hs', hdesc⟩ := @sampleOf_group listings region realm observedAt v
      (Groups.mem_keys.mp hv)
    obtain rfl : s' = s := Option.some.inj (hs'.symm.trans hs)
    exact Prod.ext hdesc.item hdesc.variant
  rw [summariseRealm, List.pairwise_filterMap]
  refine hkeys.imp_of_mem ?_
  intro a b ha hb hne s hs t ht heq
  rw [hmem a ha s hs, hmem b hb t ht] at heq
  exact hne heq

/-- The ladders of a snapshot, one for each version listed. -/
theorem ladders_eq :
    (summariseRealm listings region realm observedAt).2 =
      (Groups.keys Version.le GearListing.version listings).map fun v =>
        (v.1, v.2, shelfFor listings v) := by
  simp only [summariseRealm, versionsOf, Groups.grouped, List.map_map]
  rfl

end Gavel.Market
