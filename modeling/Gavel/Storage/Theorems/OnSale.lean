import Gavel.Storage.Lemmas.Sequences

/-!
# What a realm's row says is on sale

A roll-up takes the newest instant of an item on a realm for the realm's newest snapshot. Samples tell
the two apart only while the item is listed: once the last copy is gone, the row keeps saying what the
last snapshot with a copy held.
-/

namespace Gavel.Storage

open Gavel.Cluster (Millis)
open Gavel.Market

/-- The samples of a group in a realm's most recent snapshot. -/
def listedNow (snapshots : List Snapshot) (c : Catalog) (g : RollupGroup) (realm : RealmId) :
    List RealmSample :=
  ((latestOf snapshots g.region realm).map (Snapshot.onTrack c g)).getD []

/-- A realm's row follows the realm's most recent snapshot: what it says of now are the listings and
the cheapest price of its group there, none and nothing where the group is absent, and the realm then
does not count as listing it. -/
structure OnSale (snapshots : List Snapshot) (history : List RealmSample) (c : Catalog)
    (row : MarketRollup) (realm : RealmId) : Prop where
  listings : row.listingsNow =
    ((listedNow snapshots c row.group realm).map RealmSample.listings).sum
  cheapest : row.cheapestNow =
    ((listedNow snapshots c row.group realm).map RealmSample.minPrice).min?
  counted : listedNow snapshots c row.group realm = [] → realm ∉ listingRealms history c row.group

/-- The realm's most recent snapshot lists the item in some version, or the last one of the window
that lists it has nothing of the row's group. -/
def Current (snapshots : List Snapshot) (since : Millis) (c : Catalog) (row : MarketRollup)
    (realm : RealmId) : Prop :=
  (∃ e, latestOf snapshots row.region realm = some e ∧ e.lists row.item = true) ∨
    ∀ e, latestListing snapshots row.region realm since row.item = some e →
      e.onTrack c row.group = []

variable {F : Floating} {snapshots : List Snapshot} {region : Region} {realm : RealmId}
  {since : Millis} {ladders : RealmLadders} {c : Catalog} {window : Window} {row : MarketRollup}
  {g : RollupGroup} {e : Snapshot} {history : List RealmSample}

/-- A realm counts as listing a group exactly while something of the group is current on it. -/
theorem mem_listingRealms : realm ∈ listingRealms history c g ↔
    currentOf history (samplesOn history c g realm) ≠ [] := by
  rw [listingRealms, List.mem_dedup, List.mem_map]
  constructor
  · rintro ⟨s, hs, rfl⟩
    obtain ⟨hgroup, hnewest⟩ := mem_currentOf.mp hs
    obtain ⟨hmem, hg⟩ := Groups.mem_group.mp hgroup
    exact List.ne_nil_of_mem (mem_currentOf.mpr ⟨mem_samplesOn.mpr ⟨hmem, hg, rfl⟩, hnewest⟩)
  · intro hne
    obtain ⟨s, hs⟩ := List.exists_mem_of_ne_nil _ hne
    obtain ⟨hon, hnewest⟩ := mem_currentOf.mp hs
    obtain ⟨hmem, hg, hrealm⟩ := mem_samplesOn.mp hon
    exact ⟨s, mem_currentOf.mpr ⟨Groups.mem_group.mpr ⟨hmem, hg⟩, hnewest⟩, hrealm⟩

/-- A realm's row says of now what the last snapshot of the window that lists the item holds. -/
theorem row_eq (h : Increasing snapshots)
    (hrow : row ∈ rollups F ((recorded snapshots).windowInRegion region since) ladders c window)
    (hscope : row.scope = .realm realm) :
    ∃ e ∈ snapshots, latestListing snapshots row.region realm since row.item = some e ∧
      row.listingsNow = ((e.onTrack c row.group).map RealmSample.listings).sum ∧
      row.cheapestNow = ((e.onTrack c row.group).map RealmSample.minPrice).min? ∧
      (realm ∈ listingRealms ((recorded snapshots).windowInRegion region since) c row.group ↔
        e.onTrack c row.group ≠ []) := by
  obtain ⟨heq, hne⟩ := realm_row hrow hscope
  have hregion : row.group.region = region := by
    obtain ⟨s, hs⟩ := List.exists_mem_of_ne_nil _ hne
    obtain ⟨hwin, hgroup, -⟩ := mem_samplesOn.mp hs
    obtain ⟨-, -, -, hr, -⟩ := (mem_window h).mp hwin
    rw [← (groupOf_parts hgroup).1, hr]
  obtain ⟨e, hmem, he, hperm⟩ := current_perm h hregion hne
  refine ⟨e, hmem, by rw [← hregion] at he; exact he, ?_, ?_, ?_⟩
  · rw [heq, roll_listingsNow]
    exact (hperm.map RealmSample.listings).sum_eq
  · have hown : ∀ s ∈ currentOf ((recorded snapshots).windowInRegion region since)
        (samplesOn ((recorded snapshots).windowInRegion region since) c row.group realm),
        s.realm = realm :=
      fun s hs => (mem_samplesOn.mp (mem_currentOf.mp hs).1).2.2
    rw [heq, roll_cheapestNow hown]
    exact Assoc.min?_congr fun i => (hperm.map RealmSample.minPrice).mem_iff
  · rw [mem_listingRealms]
    exact not_congr ⟨fun hnil => (hnil ▸ hperm).nil_eq.symm, fun hnil => (hnil ▸ hperm).eq_nil⟩

theorem onTrack_sum_eq_zero :
    ((e.onTrack c g).map RealmSample.listings).sum = 0 ↔ e.onTrack c g = [] := by
  constructor
  · intro hsum
    by_contra hne
    obtain ⟨s, hs⟩ := List.exists_mem_of_ne_nil _ hne
    have hle : s.listings ≤ ((e.onTrack c g).map RealmSample.listings).sum :=
      List.le_sum_of_mem (List.mem_map_of_mem hs)
    have hpos := Mirrors.listed_pos (mem_onTrack.mp hs).1
    omega
  · intro hnil
    rw [hnil]
    rfl

/-- A realm's most recent snapshot that lists an item is its most recent one if that lists the item. -/
theorem latestListing_eq (h : Increasing snapshots)
    {item : ItemId} {latest : Snapshot} (hlatest : latestOf snapshots region realm = some latest)
    (he : latestListing snapshots region realm since item = some e)
    (hlists : latest.lists item = true) : latest = e := by
  obtain ⟨hmem, hof, hall⟩ := last_latest h (fun _ hf => hf) hlatest
  obtain ⟨hregion, hrealm⟩ := of_decide_eq_true hof
  obtain ⟨hmem', ⟨heregion, herealm, hesince, -⟩, hall'⟩ := latestListing_some h he
  have hle := hall e hmem' (decide_eq_true ⟨heregion, herealm⟩)
  have hlisted : ∃ s ∈ latest.samples, s.item = item := by
    obtain ⟨s, hs, hitem⟩ := List.any_eq_true.mp hlists
    exact ⟨s, hs, of_decide_eq_true hitem⟩
  have hle' := (stored_le (h.dated e hmem') (h.dated latest hmem)).mpr hle
  have hge := hall' latest hmem hregion hrealm (Int.le_trans hesince hle') hlisted
  exact eq_of_realm h hmem hmem' (hregion.trans heregion.symm) (hrealm.trans herealm.symm) hge hle

/-- After every sequence of snapshots and for every roll-up of a region's window, a realm's row follows
the realm's most recent snapshot exactly while that lists the item, or else the last one that listed
it had nothing of the row's group. -/
theorem on_sale_iff (F : Floating) (snapshots : List Snapshot) (region : Region) (since : Millis)
    (ladders : RealmLadders) (c : Catalog) (window : Window) (h : Increasing snapshots)
    (row : MarketRollup) (realm : RealmId)
    (hrow : row ∈ rollups F ((recorded snapshots).windowInRegion region since) ladders c window)
    (hscope : row.scope = .realm realm) :
    OnSale snapshots ((recorded snapshots).windowInRegion region since) c row realm ↔
      Current snapshots since c row realm := by
  obtain ⟨e, hmem, he, hlistings, hcheapest, hcounted⟩ := row_eq h hrow hscope
  by_cases hlists : ∃ l, latestOf snapshots row.region realm = some l ∧ l.lists row.item = true
  · obtain ⟨latest, hlatest, hl⟩ := hlists
    obtain rfl := latestListing_eq h hlatest he hl
    have hnow : listedNow snapshots c row.group realm = latest.onTrack c row.group := by
      rw [listedNow, show row.group.region = row.region from rfl, hlatest, Option.map_some,
        Option.getD_some]
    refine iff_of_true ⟨?_, ?_, ?_⟩ (.inl ⟨latest, hlatest, hl⟩)
    · rw [hnow, hlistings]
    · rw [hnow, hcheapest]
    · rw [hnow, hcounted]
      exact fun hnil hne => hne hnil
  · have hnow : listedNow snapshots c row.group realm = [] := by
      rw [listedNow, show row.group.region = row.region from rfl]
      cases hlatest : latestOf snapshots row.region realm with
      | none => rfl
      | some latest =>
          rw [Option.map_some, Option.getD_some, List.eq_nil_iff_forall_not_mem]
          intro s hs
          obtain ⟨hs, hg⟩ := mem_onTrack.mp hs
          refine hlists ⟨latest, hlatest, List.any_eq_true.mpr ⟨s, hs, ?_⟩⟩
          exact decide_eq_true (groupOf_parts hg).2
    constructor
    · intro hsale
      refine .inr fun e' he' => ?_
      obtain rfl := Option.some.inj (he.symm.trans he')
      have hsum := hsale.listings
      rw [hnow, hlistings] at hsum
      exact onTrack_sum_eq_zero.mp hsum
    · rintro (hcur | hnil)
      · exact absurd hcur hlists
      · have hnil := hnil e he
        refine ⟨?_, ?_, ?_⟩
        · rw [hnow, hlistings, hnil]
        · rw [hnow, hcheapest, hnil]
        · intro _ hin
          exact (hcounted.mp hin) hnil

open RealmPrices (oneSword nothing)

/-- No interpolation is needed for a single price. -/
def plain : Floating := ⟨fun prices _ => prices.headD 0, fun _ _ => none⟩

/-- A catalogue that lists no items. -/
def bare : Catalog :=
  { id := []
    expansion := []
    status := .active
    catalogVersion := 1
    patches := []
    raidTiers := []
    items := []
    itemLevels := []
    tracks := []
    modifiers := []
    notes := [] }

/-- A sword on sale at one snapshot and gone at the next. -/
def soldOut : List Snapshot := [(oneSword, ⟨.eu, 1, 10⟩), (nothing, ⟨.eu, 1, 20⟩)]

/-- The last sword is bought, and the realm's row still says that one is on sale. -/
theorem sold_out_still_listed : Increasing soldOut ∧
    ∃ row ∈ rollups plain ((recorded soldOut).windowInRegion .eu 0) [] bare .all,
      row.scope = .realm 1 ∧
        ¬ OnSale soldOut ((recorded soldOut).windowInRegion .eu 0) bare row 1 := by
  refine ⟨by decide, ?_⟩
  have hany : (rollups plain ((recorded soldOut).windowInRegion .eu 0) [] bare .all).any
      (fun row => row.scope = .realm 1 ∧ row.group = ⟨.eu, 7, .boe, none⟩ ∧ row.listingsNow = 1) =
        true := by decide
  obtain ⟨row, hrow, hfacts⟩ := List.any_eq_true.mp hany
  obtain ⟨hscope, hgroup, hone⟩ := of_decide_eq_true hfacts
  refine ⟨row, hrow, hscope, fun hsale => ?_⟩
  have hlistings := hsale.listings
  rw [hgroup, hone] at hlistings
  revert hlistings
  decide

/-- While a sword is on sale at the latest snapshot, the realm's row follows it. -/
theorem on_sale_sword :
    ∃ row ∈ rollups plain ((recorded [(oneSword, ⟨.eu, 1, 10⟩)]).windowInRegion .eu 0) [] bare .all,
      row.scope = .realm 1 ∧
        OnSale [(oneSword, ⟨.eu, 1, 10⟩)]
          ((recorded [(oneSword, ⟨.eu, 1, 10⟩)]).windowInRegion .eu 0) bare row 1 := by
  have hany : (rollups plain ((recorded [(oneSword, ⟨.eu, 1, 10⟩)]).windowInRegion .eu 0) [] bare
      .all).any (fun row => row.scope = .realm 1 ∧ row.region = .eu ∧ row.item = 7) = true := by
    decide
  obtain ⟨row, hrow, hfacts⟩ := List.any_eq_true.mp hany
  obtain ⟨hscope, hregion, hitem⟩ := of_decide_eq_true hfacts
  have hiff := on_sale_iff plain [(oneSword, ⟨.eu, 1, 10⟩)] .eu 0 [] bare .all (by decide) row 1 hrow
    hscope
  refine ⟨row, hrow, hscope, hiff.mpr ?_⟩
  refine .inl ⟨(oneSword, ⟨.eu, 1, 10⟩), ?_, ?_⟩
  · rw [hregion]
    rfl
  · rw [hitem]
    decide

end Gavel.Storage
