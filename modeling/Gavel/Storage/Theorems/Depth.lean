import Gavel.Storage.Lemmas.Sequences
import Gavel.Storage.Theorems.OnSale

/-!
# What a realm's merged ladder offers

A realm's row counts the listings of the versions in the realm's last snapshot of the item, but merges
the newest stored ladder of every version the realm ever had: a version that is gone leaves its last
ladder behind.
-/

namespace Gavel.Storage

open Gavel.Cluster (Millis)
open Gavel.Market

/-!
## The newest stored ladder of a version

A ladder is written only when it has changed, so the newest stored one of a version is the ladder of
the last snapshot that has the version.
-/

/-- A realm's last snapshot that has a version. -/
def lastWith (snapshots : List Snapshot) (region : Region) (realm : RealmId) (v : Version) :
    Option Snapshot :=
  (snapshots.filter fun e => e.isOf region realm && e.samples.any (·.version = v)).getLast?

/-- The newest ladder row of its version on its realm. -/
structure NewestLadder (t : RealmPrices) (l : LadderRow) : Prop where
  mem : l ∈ t.ladders.rows
  newest : ∀ p ∈ t.ladders.rows, p.seen.region = l.seen.region → p.seen.realm = l.seen.realm →
    p.version = l.version → p.seen.observedAt ≤ l.seen.observedAt

/-- What the stored ladders say of some snapshots. -/
structure Shelved (t : RealmPrices) (snapshots : List Snapshot) : Prop where
  sampled : ∀ l ∈ t.ladders.rows, ∃ s ∈ t.samples.rows, s.key = l.key
  latest : ∀ l, NewestLadder t l → ∃ e,
    lastWith snapshots l.seen.region l.seen.realm l.version = some e ∧
      l.steps = (shelfFor e.1.listings l.version).encode
  stored : ∀ e ∈ snapshots, ∀ s ∈ e.samples, ∃ l ∈ t.ladders.rows,
    l.seen.region = e.2.region ∧ l.seen.realm = e.2.realm ∧ l.version = s.version

variable {t : RealmPrices} {snapshots : List Snapshot} {e : Snapshot} {l : LadderRow} {v : Version}
  {region : Region} {realm : RealmId} {s : RealmSample}

theorem has_version_iff : (e.isOf region realm && e.samples.any (·.version = v)) = true ↔
    e.2.region = region ∧ e.2.realm = realm ∧ ∃ s ∈ e.samples, s.version = v := by
  simp only [Snapshot.isOf, Bool.and_eq_true, decide_eq_true_eq, List.any_eq_true, and_assoc]

theorem lastWith_concat :
    lastWith (snapshots ++ [e]) region realm v =
      if e.isOf region realm && e.samples.any (·.version = v) then some e
      else lastWith snapshots region realm v := by
  simp only [lastWith, List.filter_append, List.getLast?_append, List.filter_cons, List.filter_nil]
  split <;> simp

/-- Two newest rows of one version on one realm are one. -/
theorem NewestLadder.eq {l' : LadderRow} (h : NewestLadder t l) (h' : NewestLadder t l')
    (hregion : l'.seen.region = l.seen.region) (hrealm : l'.seen.realm = l.seen.realm)
    (hversion : l'.version = l.version) : l' = l := by
  apply Keyed.eq_of_key h'.mem h.mem
  have htime := Nat.le_antisymm (h.newest l' h'.mem hregion hrealm hversion)
    (h'.newest l h.mem hregion.symm hrealm.symm hversion.symm)
  cases hs : l.seen
  cases hs' : l'.seen
  simp only [LadderRow.key, hs, hs'] at *
  simp only [hregion, hrealm, hversion, htime]

theorem exists_newestLadder (hl : l ∈ t.ladders.rows) :
    ∃ l', NewestLadder t l' ∧ l'.seen.region = l.seen.region ∧ l'.seen.realm = l.seen.realm ∧
      l'.version = l.version := by
  obtain ⟨l', hrows, ⟨hregion, hrealm, hversion⟩, hnewest⟩ :=
    Keyed.exists_greatest (fun p => p.seen.observedAt)
      (P := fun p => p.seen.region = l.seen.region ∧ p.seen.realm = l.seen.realm ∧
        p.version = l.version) hl ⟨rfl, rfl, rfl⟩
  refine ⟨l', ⟨hrows, ?_⟩, hregion, hrealm, hversion⟩
  intro p hp hpr hpm hpv
  exact hnewest p hp ⟨hpr.trans hregion, hpm.trans hrealm, hpv.trans hversion⟩

/-- A sample that is not written leaves its version's newest ladder as it is, and that is the
sample's. -/
theorem newest_of_kept (h : Shelved t snapshots) (hd : t.Dated) (hs : s ∈ e.samples)
    (hkept : s ∉ t.newsOf e.1.listings e.2) :
    ∃ l, NewestLadder t l ∧ l.seen.region = e.2.region ∧ l.seen.realm = e.2.realm ∧
      l.version = s.version ∧ l.steps = (shelfFor e.1.listings s.version).encode := by
  obtain ⟨p, hheld, -, -, -, hsteps⟩ :=
    RealmPrices.of_not_isNews fun hn => hkept (List.mem_filter.mpr ⟨hs, hn⟩)
  obtain ⟨hp, hversion⟩ := RealmPrices.heldOf_some hheld
  obtain ⟨⟨hrow, hregion, hrealm, hnewest⟩, hpsteps⟩ := (RealmPrices.mem_previousOf hd).mp hp
  rw [(RealmPrices.incoming_eq hs).1, hpsteps] at hsteps
  obtain ⟨l, hl, hkey, hlsteps⟩ := RealmPrices.stepsAt_some hsteps.symm
  have hseen : l.seen = p.row.seen := congrArg Prod.fst hkey
  have hlv : l.version = p.row.version := congrArg Prod.snd hkey
  refine ⟨l, ⟨hl, ?_⟩, by rw [hseen]; exact hregion, by rw [hseen]; exact hrealm,
    hlv.trans hversion, hlsteps⟩
  -- every ladder stands beside a row, and the row stored last is the newest of these
  intro q hq hqr hqm hqv
  obtain ⟨r, hr, hrkey⟩ := h.sampled q hq
  have hrseen : r.seen = q.seen := congrArg Prod.fst hrkey
  have hrv : r.version = q.version := congrArg Prod.snd hrkey
  have hmarket : r.market = p.row.market := by
    have hrregion : r.region = q.seen.region := congrArg Seen.region hrseen
    have hrrealm : r.realm = q.seen.realm := congrArg Seen.realm hrseen
    simp only [RealmSample.market, hrregion, hrrealm, hqr, hqm, hrv, hqv, hseen, hlv]
    rfl
  have hle := hnewest r hr hmarket
  rw [hseen, ← hrseen]
  exact hle

theorem shelved_concat (h : Shelved t snapshots) (hm : Mirrors t (archived snapshots))
    (hf : Mirrors.Fits t e.2) : Shelved (t.step (callOf e)) (snapshots ++ [e]) := by
  have hledger : ∀ l ∈ t.ladders.rows, l.seen ∈ t.snapshots.rows :=
    fun l hl => (hm.ladders l hl).1
  have hfree : ∀ l ∈ t.ladders.rows, l.seen ≠ e.2 :=
    fun l hl heq => hf.not_mem (heq ▸ hledger l hl)
  have hmem : ∀ l, l ∈ (t.step (callOf e)).ladders.rows ↔ l ∈ t.ladders.rows ∨
      ∃ s ∈ t.newsOf e.1.listings e.2, RealmPrices.ladderRow e.1.listings e.2 s.version = l :=
    fun l => RealmPrices.mem_ladders_after hfree
  have hsamples : ∀ r, r ∈ (t.step (callOf e)).samples.rows ↔ r ∈ t.samples.rows ∨
      r ∈ t.newsOf e.1.listings e.2 ∨ ∃ p ∈ t.goneOf e.1.listings e.2, 0 < p.row.listings ∧
        RealmPrices.tombstone e.2 p.row.version = r :=
    fun _ => hf.mem_samples
  refine ⟨?_, ?_, ?_⟩
  · intro l hl
    rcases (hmem l).mp hl with hl | ⟨s, hs, rfl⟩
    · obtain ⟨s, hs, hkey⟩ := h.sampled l hl
      exact ⟨s, (hsamples s).mpr (.inl hs), hkey⟩
    · refine ⟨s, (hsamples s).mpr (.inr (.inl hs)), ?_⟩
      rw [RealmSample.key, RealmPrices.seen_of_mem (List.mem_of_mem_filter hs)]
      rfl
  · intro l hl
    rcases (hmem l).mp hl.mem with hold | ⟨s, hs, rfl⟩
    · -- an old row is still the newest only if the snapshot wrote none for its version
      have hnewest : NewestLadder t l :=
        ⟨hold, fun p hp => hl.newest p ((hmem p).mpr (.inl hp))⟩
      rw [lastWith_concat]
      split
      · rename_i hhas
        obtain ⟨hregion, hrealm, s, hs, hversion⟩ := has_version_iff.mp hhas
        by_cases hnews : s ∈ t.newsOf e.1.listings e.2
        · have hle := hl.newest _ ((hmem _).mpr (.inr ⟨s, hnews, rfl⟩)) hregion hrealm hversion
          have hlt := hf.later l.seen (hledger l hold) hregion.symm hrealm.symm
          exact absurd hle (Nat.not_le_of_lt hlt)
        · obtain ⟨l', hl', hr', hm', hv', hsteps⟩ := newest_of_kept h hf.dated hs hnews
          obtain rfl := hnewest.eq hl' (hr'.trans hregion) (hm'.trans hrealm) (hv'.trans hversion)
          rw [← hversion]
          exact ⟨e, rfl, hsteps⟩
      · exact h.latest l hnewest
    · have hs := List.mem_of_mem_filter hs
      refine ⟨e, ?_, rfl⟩
      rw [lastWith_concat, if_pos]
      exact has_version_iff.mpr ⟨rfl, rfl, s, hs, rfl⟩
  · intro f hfm s hs
    rcases List.mem_append.mp hfm with hfm | hfm
    · obtain ⟨l, hl, hrest⟩ := h.stored f hfm s hs
      exact ⟨l, (hmem l).mpr (.inl hl), hrest⟩
    · obtain rfl := List.mem_singleton.mp hfm
      by_cases hnews : s ∈ t.newsOf f.1.listings f.2
      · exact ⟨_, (hmem _).mpr (.inr ⟨s, hnews, rfl⟩), rfl, rfl, rfl⟩
      · obtain ⟨l, hl, hr, hrm, hv, -⟩ := newest_of_kept h hf.dated hs hnews
        exact ⟨l, (hmem l).mpr (.inl hl.mem), hr, hrm, hv⟩

theorem shelved_recorded (h : Increasing snapshots) : Shelved (recorded snapshots) snapshots := by
  induction snapshots using List.reverseRecOn with
  | nil =>
      refine ⟨?_, ?_, by simp⟩
      · intro l hl
        cases hl
      · intro l hl
        cases hl.mem
  | append_singleton snapshots e ih =>
      have hold := h.init
      rw [recorded_concat]
      exact shelved_concat (ih hold) (mirrors_recorded hold) ((mirrors_recorded hold).fits_next h)

/-! ## What the reader gives -/

/-- The shelf of a version in a snapshot, as it is read back. -/
theorem decode_shelf (hs : s ∈ e.samples) :
    Ladder.decode (shelfFor e.1.listings s.version).encode =
      Ladder.ofUnits (shelfFor e.1.listings s.version).units := by
  obtain ⟨-, hdesc⟩ := describes_of_mem hs
  apply Ladder.decode_encode (shelfFor_spec hdesc).1
  intro rung hrung
  obtain ⟨hprice, hpos, hle⟩ := shelfFor_rungs rung hrung
  obtain ⟨listing, hlisting, hp⟩ := List.mem_map.mp hprice
  obtain ⟨hlisting, -⟩ := Groups.mem_group.mp hlisting
  have hpriced := e.1.priced listing hlisting
  rw [hp] at hpriced
  refine ⟨hpriced, hpos, Nat.le_trans hle ?_⟩
  rw [pricesFor, List.length_map]
  refine Nat.le_trans (List.length_filter_le _ _) (Nat.le_trans e.1.few ?_)
  decide

/-- A realm's last snapshot that has a version is the latest of those that have it. -/
theorem lastWith_some (h : Increasing snapshots) (he : lastWith snapshots region realm v = some e) :
    e ∈ snapshots ∧ e.2.region = region ∧ e.2.realm = realm ∧ (∃ s ∈ e.samples, s.version = v) ∧
      ∀ f ∈ snapshots, f.2.region = region → f.2.realm = realm →
        (∃ s ∈ f.samples, s.version = v) → f.2.observedAt ≤ e.2.observedAt := by
  obtain ⟨hmem, hhas, hlatest⟩ := last_latest h
    (fun f hf => (Bool.and_eq_true_iff.mp hf).1) he
  obtain ⟨hregion, hrealm, hversion⟩ := has_version_iff.mp hhas
  refine ⟨hmem, hregion, hrealm, hversion, ?_⟩
  intro f hf hfregion hfrealm hfversion
  exact hlatest f hf (has_version_iff.mpr ⟨hfregion, hfrealm, hfversion⟩)

/-- No snapshot has so many listings that a sample's count wraps. -/
theorem listings_eq (hs : s ∈ e.samples) :
    s.listings = (pricesFor e.1.listings s.version).length := by
  rw [(describes_of_mem hs).2.listings]
  apply Nat.mod_eq_of_lt
  rw [pricesFor, List.length_map]
  refine Nat.lt_of_le_of_lt (List.length_filter_le _ _) (Nat.lt_of_le_of_lt e.1.few ?_)
  decide

/-- The units of a stored ladder. -/
def LadderRow.units (l : LadderRow) : List (Nat × Nat) := (Ladder.decode l.steps).units

/-- What a stored ladder offers in all. -/
def LadderRow.offered (l : LadderRow) : Nat := (l.units.map Prod.snd).sum

/-- What is read back of a version's newest ladder are the listings of the version in the last snapshot
that has it. -/
theorem newest_units (h : Increasing snapshots) (hl : NewestLadder (recorded snapshots) l) :
    ∃ e, lastWith snapshots l.seen.region l.seen.realm l.version = some e ∧
      l.offered = (pricesFor e.1.listings l.version).length ∧
      (l.units.map Prod.fst).min? = (pricesFor e.1.listings l.version).min? := by
  obtain ⟨e, he, hsteps⟩ := (shelved_recorded h).latest l hl
  obtain ⟨-, -, -, ⟨s, hs, hversion⟩, -⟩ := lastWith_some h he
  have hunits : l.units = (shelfFor e.1.listings l.version).units := by
    rw [LadderRow.units, hsteps, ← hversion, decode_shelf hs, Ladder.units_ofUnits]
  refine ⟨e, he, ?_, ?_⟩
  · rw [LadderRow.offered, hunits, ← total_shelfFor, shelfFor, Ladder.total_of]
  · rw [hunits, min_shelfFor]

variable {F : Floating} {since : Millis} {c : Catalog} {window : Window} {row : MarketRollup}
  {g : RollupGroup} {s₀ : RealmSample}

/-! ## The ladders a row is merged from -/

/-- The newest ladder rows of a group on a realm. -/
def shelvesOf (t : RealmPrices) (region : Region) (c : Catalog) (g : RollupGroup) (realm : RealmId) :
    List LadderRow :=
  (t.ladders.rows.filter fun l =>
    l.seen.region = region ∧ t.ladders.rows.all fun p =>
      p.seen.region = l.seen.region → p.seen.realm = l.seen.realm → p.version = l.version →
        stored p.seen.observedAt ≤ stored l.seen.observedAt).filter fun l =>
    l.seen.realm = realm ∧ l.version.1 = g.item ∧
      (g.kind = .recipe ∨ c.trackIn l.version.2 = g.track)

theorem laddersOf_latest : laddersOf g (.realm realm) (t.latestLaddersInRegion region) c =
    (shelvesOf t region c g realm).map fun l => Ladder.decode l.steps := by
  simp only [laddersOf, RealmPrices.latestLaddersInRegion, shelvesOf, List.filter_map, List.map_map]
  rfl

theorem mem_shelvesOf (hd : t.Dated) : l ∈ shelvesOf t region c g realm ↔
    NewestLadder t l ∧ l.seen.region = region ∧ l.seen.realm = realm ∧ l.version.1 = g.item ∧
      (g.kind = .recipe ∨ c.trackIn l.version.2 = g.track) := by
  simp only [shelvesOf, List.mem_filter, decide_eq_true_eq, List.all_eq_true]
  constructor
  · rintro ⟨⟨hl, hregion, hnewest⟩, hrest⟩
    refine ⟨⟨hl, ?_⟩, hregion, hrest⟩
    intro p hp hpr hpm hpv
    exact (stored_le (hd.ladders p hp) (hd.ladders l hl)).mp (hnewest p hp hpr hpm hpv)
  · rintro ⟨hnewest, hregion, hrest⟩
    refine ⟨⟨hnewest.mem, hregion, ?_⟩, hrest⟩
    intro p hp hpr hpm hpv
    exact (stored_le (hd.ladders p hp) (hd.ladders l hnewest.mem)).mpr
      (hnewest.newest p hp hpr hpm hpv)

/-- On a group that some sample has, the region, the item and the track tell whether a sample is of
it. -/
theorem groupOf_iff (hg : c.groupOf s₀ = g) : c.groupOf s = g ↔
    s.region = g.region ∧ s.item = g.item ∧ (g.kind = .recipe ∨ c.trackIn s.variant = g.track) := by
  subst hg
  simp only [Catalog.groupOf, RollupGroup.mk.injEq]
  constructor
  · rintro ⟨hregion, hitem, hkind, htrack⟩
    refine ⟨hregion, hitem, ?_⟩
    rw [hkind] at htrack
    by_cases hrecipe : c.kindOf s₀.item = .recipe
    · exact .inl hrecipe
    · rw [if_neg hrecipe] at htrack
      exact .inr htrack
  · rintro ⟨hregion, hitem, htrack⟩
    refine ⟨hregion, hitem, by rw [hitem], ?_⟩
    rw [hitem]
    by_cases hrecipe : c.kindOf s₀.item = .recipe
    · simp only [hrecipe, if_true]
    · simpa only [hrecipe, if_false, false_or] using htrack

/-- Where a version of the last snapshot that lists an item was last. -/
theorem lastWith_listing (h : Increasing snapshots) {item : ItemId}
    (he : latestListing snapshots region realm since item = some e) (hs : s ∈ e.samples)
    (hitem : s.item = item) : lastWith snapshots region realm s.version = some e := by
  obtain ⟨hmem, ⟨hregion, hrealm, hsince, -⟩, hlatest⟩ := latestListing_some h he
  obtain ⟨f, hf⟩ : ∃ f, lastWith snapshots region realm s.version = some f := by
    apply Option.ne_none_iff_exists'.mp
    intro hnone
    have hempty := List.getLast?_eq_none_iff.mp hnone
    have hhas := has_version_iff.mpr ⟨hregion, hrealm, s, hs, rfl⟩
    exact List.ne_nil_of_mem (List.mem_filter.mpr ⟨hmem, hhas⟩) hempty
  obtain ⟨hfmem, hfregion, hfrealm, ⟨w, hw, hwversion⟩, hflatest⟩ := lastWith_some h hf
  have hle := hflatest e hmem hregion hrealm ⟨s, hs, rfl⟩
  have hwitem : w.item = item := (congrArg Prod.fst hwversion).trans hitem
  have hle' := (stored_le (h.dated e hmem) (h.dated f hfmem)).mpr hle
  have hge := hlatest f hfmem hfregion hfrealm (Int.le_trans hsince hle') ⟨w, hw, hwitem⟩
  rw [hf, eq_of_realm h hfmem hmem (hfregion.trans hregion.symm) (hfrealm.trans hrealm.symm) hge hle]

/-- Every version of a group a realm ever had has a ladder in the group's. -/
theorem exists_shelf (h : Increasing snapshots) (hg : c.groupOf s₀ = g) (he : e ∈ snapshots)
    (hregion : g.region = region) (hrealm : e.2.realm = realm) (hs : s ∈ e.onTrack c g) :
    ∃ l ∈ shelvesOf (recorded snapshots) region c g realm, l.version = s.version := by
  obtain ⟨hs, hsg⟩ := mem_onTrack.mp hs
  obtain ⟨hsregion, hitem, htrack⟩ := (groupOf_iff hg).mp hsg
  obtain ⟨l₀, hl₀, hlregion, hlrealm, hlversion⟩ := (shelved_recorded h).stored e he s hs
  obtain ⟨l, hl, hregion', hrealm', hversion⟩ := exists_newestLadder hl₀
  have hversion := hversion.trans hlversion
  have heregion : e.2.region = region := by
    rw [← hregion, ← hsregion, ← seen_of_samples hs]
    rfl
  refine ⟨l, (mem_shelvesOf h.stores).mpr ⟨hl, (hregion'.trans hlregion).trans heregion,
    (hrealm'.trans hlrealm).trans hrealm, ?_, ?_⟩, hversion⟩
  · rw [hversion]
    exact hitem
  · rw [hversion]
    exact htrack

/-- A ladder of a group is one of a version some snapshot of the realm had. -/
theorem sample_of_shelf (h : Increasing snapshots) (hg : c.groupOf s₀ = g) (hregion : g.region = region)
    (hl : l ∈ shelvesOf (recorded snapshots) region c g realm)
    (he : lastWith snapshots region realm l.version = some e) :
    ∃ s ∈ e.onTrack c g, s.version = l.version := by
  obtain ⟨-, -, -, hitem, htrack⟩ := (mem_shelvesOf h.stores).mp hl
  obtain ⟨-, heregion, -, ⟨s, hs, hversion⟩, -⟩ := lastWith_some h he
  refine ⟨s, mem_onTrack.mpr ⟨hs, (groupOf_iff hg).mpr ⟨?_, ?_, ?_⟩⟩, hversion⟩
  · rw [hregion, ← heregion, ← seen_of_samples hs]
    rfl
  · rw [← hitem, ← hversion]
    rfl
  · rw [← hversion] at htrack
    exact htrack

/-! ## The listed and the delisted -/

/-- Whether a snapshot has a ladder's version. -/
def LadderRow.listedIn (e : Snapshot) (l : LadderRow) : Bool := e.samples.any (·.version = l.version)

theorem listedIn_iff : l.listedIn e = true ↔ ∃ s ∈ e.samples, s.version = l.version := by
  simp only [LadderRow.listedIn, List.any_eq_true, decide_eq_true_eq]

theorem nodup_shelvesOf (hd : t.Dated) :
    ((shelvesOf t region c g realm).map LadderRow.version).Nodup := by
  apply List.Nodup.map_on
  · intro l hl l' hl' hversion
    obtain ⟨hnewest, hregion, hrealm, -⟩ := (mem_shelvesOf hd).mp hl
    obtain ⟨hnewest', hregion', hrealm', -⟩ := (mem_shelvesOf hd).mp hl'
    exact hnewest'.eq hnewest (hregion.trans hregion'.symm) (hrealm.trans hrealm'.symm) hversion
  · exact (t.ladders.nodup.filter _).filter _

/-- A group's ladders of the versions in the last snapshot that lists the item are one for each of the
group's samples in it. -/
theorem listed_perm (h : Increasing snapshots) (hg : c.groupOf s₀ = g) (hregion : g.region = region)
    (he : latestListing snapshots region realm since g.item = some e) :
    (((shelvesOf (recorded snapshots) region c g realm).filter (·.listedIn e)).map
      LadderRow.version).Perm ((e.onTrack c g).map RealmSample.version) := by
  refine (List.perm_ext_iff_of_nodup ?_ (List.pairwise_map.mpr pairwise_onTrack)).mpr ?_
  · exact (nodup_shelvesOf h.stores).sublist (List.filter_sublist.map _)
  intro v
  simp only [List.mem_map, List.mem_filter, listedIn_iff]
  constructor
  · rintro ⟨l, ⟨hl, s, hs, hversion⟩, rfl⟩
    have hitem := (congrArg Prod.fst hversion).trans ((mem_shelvesOf h.stores).mp hl).2.2.2.1
    have hlast := lastWith_listing h he hs hitem
    rw [hversion] at hlast
    exact sample_of_shelf h hg hregion hl hlast
  · rintro ⟨s, hs, rfl⟩
    obtain ⟨hmem, ⟨-, hrealm, -⟩, -⟩ := latestListing_some h he
    obtain ⟨l, hl, hversion⟩ := exists_shelf h hg hmem hregion hrealm hs
    exact ⟨l, ⟨hl, s, (mem_onTrack.mp hs).1, hversion.symm⟩, hversion⟩

/-- The ladder of a listed version is of its listings in the last snapshot. -/
theorem listed_units (h : Increasing snapshots)
    (he : latestListing snapshots region realm since g.item = some e)
    (hl : l ∈ shelvesOf (recorded snapshots) region c g realm) (hlisted : l.listedIn e = true) :
    l.offered = (pricesFor e.1.listings l.version).length ∧
      (l.units.map Prod.fst).min? = (pricesFor e.1.listings l.version).min? := by
  obtain ⟨hnewest, hregion, hrealm, hitem, -⟩ := (mem_shelvesOf h.stores).mp hl
  obtain ⟨s, hs, hversion⟩ := listedIn_iff.mp hlisted
  have hlast := lastWith_listing h he hs ((congrArg Prod.fst hversion).trans hitem)
  rw [hversion] at hlast
  obtain ⟨f, hf, hsum, hmin⟩ := newest_units h hnewest
  rw [hregion, hrealm, hlast] at hf
  obtain rfl := Option.some.inj hf
  exact ⟨hsum, hmin⟩

theorem shelf_pos (h : Increasing snapshots) (hl : l ∈ shelvesOf (recorded snapshots) region c g realm) :
    0 < l.offered := by
  obtain ⟨hnewest, -⟩ := (mem_shelvesOf h.stores).mp hl
  obtain ⟨e, he, hsum, -⟩ := newest_units h hnewest
  obtain ⟨-, -, -, ⟨s, hs, hversion⟩, -⟩ := lastWith_some h he
  rw [hsum, ← hversion, ← listings_eq hs]
  exact Mirrors.listed_pos hs

/-- The listed ladders offer the listings of the group's samples. -/
theorem sum_listed (h : Increasing snapshots) (hg : c.groupOf s₀ = g) (hregion : g.region = region)
    (he : latestListing snapshots region realm since g.item = some e) :
    (((shelvesOf (recorded snapshots) region c g realm).filter (·.listedIn e)).map
      LadderRow.offered).sum = ((e.onTrack c g).map RealmSample.listings).sum := by
  let count := fun v : Version => (pricesFor e.1.listings v).length
  have hladders : ((shelvesOf (recorded snapshots) region c g realm).filter (·.listedIn e)).map
      LadderRow.offered =
        (((shelvesOf (recorded snapshots) region c g realm).filter (·.listedIn e)).map
          LadderRow.version).map count := by
    rw [List.map_map]
    apply List.map_congr_left
    intro l hl
    obtain ⟨hl, hlisted⟩ := List.mem_filter.mp hl
    exact (listed_units h he hl hlisted).1
  have hsamples : (e.onTrack c g).map RealmSample.listings =
      ((e.onTrack c g).map RealmSample.version).map count := by
    rw [List.map_map]
    apply List.map_congr_left
    intro s hs
    exact listings_eq (mem_onTrack.mp hs).1
  rw [hladders, hsamples]
  exact ((listed_perm h hg hregion he).map count).sum_eq

/-- The cheapest price of the listed ladders is that of the group's samples. -/
theorem min_listed (h : Increasing snapshots) (hg : c.groupOf s₀ = g) (hregion : g.region = region)
    (he : latestListing snapshots region realm since g.item = some e) :
    (((shelvesOf (recorded snapshots) region c g realm).filter (·.listedIn e)).flatMap
      fun l => l.units.map Prod.fst).min? = ((e.onTrack c g).map RealmSample.minPrice).min? := by
  let least := fun v : Version => ((pricesFor e.1.listings v).min?).getD 0
  have hladders : (((shelvesOf (recorded snapshots) region c g realm).filter (·.listedIn e)).flatMap
      fun l => l.units.map Prod.fst).min? =
        ((((shelvesOf (recorded snapshots) region c g realm).filter (·.listedIn e)).map
          LadderRow.version).map least).min? := by
    rw [List.map_map]
    apply Assoc.min?_flatMap
    intro l hl
    obtain ⟨hl, hlisted⟩ := List.mem_filter.mp hl
    obtain ⟨s, hs, hversion⟩ := listedIn_iff.mp hlisted
    have hmin := (describes_of_mem hs).2.minPrice
    rw [hversion] at hmin
    simp only [(listed_units h he hl hlisted).2, least, Function.comp_apply, hmin, Option.getD_some]
  have hsamples : (e.onTrack c g).map RealmSample.minPrice =
      ((e.onTrack c g).map RealmSample.version).map least := by
    rw [List.map_map]
    apply List.map_congr_left
    intro s hs
    simp only [least, Function.comp_apply, (describes_of_mem (mem_onTrack.mp hs).1).2.minPrice,
      Option.getD_some]
  rw [hladders, hsamples]
  exact Assoc.min?_congr fun _ => ((listed_perm h hg hregion he).map least).mem_iff

/-- What a group's ladders offer are the listings of its samples, and what the delisted ones left. -/
theorem sum_shelves (h : Increasing snapshots) (hg : c.groupOf s₀ = g) (hregion : g.region = region)
    (he : latestListing snapshots region realm since g.item = some e) :
    ((shelvesOf (recorded snapshots) region c g realm).map LadderRow.offered).sum =
      ((e.onTrack c g).map RealmSample.listings).sum +
        (((shelvesOf (recorded snapshots) region c g realm).filter (!·.listedIn e)).map
          LadderRow.offered).sum := by
  have hsplit := List.filter_append_perm (·.listedIn e) (shelvesOf (recorded snapshots) region c g realm)
  rw [← (hsplit.map LadderRow.offered).sum_eq, List.map_append, List.sum_append,
    sum_listed h hg hregion he]

/-- No ladder is a delisted one's if the last snapshot has every version of the group that any snapshot
of the realm had. -/
theorem delisted_eq_nil (h : Increasing snapshots) (hg : c.groupOf s₀ = g) (hregion : g.region = region) :
    (shelvesOf (recorded snapshots) region c g realm).filter (!·.listedIn e) = [] ↔
      ∀ f ∈ snapshots, f.2.realm = realm → ∀ s ∈ f.onTrack c g,
        ∃ w ∈ e.samples, w.version = s.version := by
  simp only [List.filter_eq_nil_iff, Bool.not_eq_true', Bool.not_eq_false, listedIn_iff]
  constructor
  · intro hall f hf hrealm s hs
    obtain ⟨l, hl, hversion⟩ := exists_shelf h hg hf hregion hrealm hs
    rw [← hversion]
    exact hall l hl
  · intro hall l hl
    obtain ⟨hnewest, hlregion, hlrealm, -⟩ := (mem_shelvesOf h.stores).mp hl
    obtain ⟨f, hf, -⟩ := newest_units h hnewest
    rw [hlregion, hlrealm] at hf
    obtain ⟨s, hs, hversion⟩ := sample_of_shelf h hg hregion hl hf
    obtain ⟨hmem, -, hrealm, -⟩ := lastWith_some h hf
    rw [← hversion]
    exact hall f hmem hrealm s hs

/-! ## A realm's row -/

/-- What a row's ladder offers is what the row says is on sale. -/
def SameShelf (row : MarketRollup) : Prop :=
  row.ladder.isEmpty = false →
    row.ladder.total = row.listingsNow ∧ row.ladder.cheapest = row.cheapestNow

/-- The last snapshot of the window that lists a row's item has every version of the row's group that
the realm ever had. -/
def NoneDelisted (snapshots : List Snapshot) (since : Millis) (c : Catalog) (row : MarketRollup)
    (realm : RealmId) : Prop :=
  ∀ now, latestListing snapshots row.region realm since row.item = some now →
    ∀ e ∈ snapshots, e.2.realm = realm → ∀ s ∈ e.onTrack c row.group,
      ∃ w ∈ now.samples, w.version = s.version

/-- After every sequence of snapshots and for every roll-up of a region's window and its newest ladders,
a realm's row sweeps what it says is on sale exactly while no version of its group is delisted. -/
theorem depth_iff (F : Floating) (snapshots : List Snapshot) (region : Region) (since : Millis)
    (c : Catalog) (window : Window) (h : Increasing snapshots) (row : MarketRollup) (realm : RealmId)
    (hrow : row ∈ rollups F ((recorded snapshots).windowInRegion region since)
      ((recorded snapshots).latestLaddersInRegion region) c window)
    (hscope : row.scope = .realm realm) :
    SameShelf row ↔ NoneDelisted snapshots since c row realm := by
  obtain ⟨heq, hne⟩ := realm_row hrow hscope
  obtain ⟨now, hmem, hnow, hlistings, hcheapest, -⟩ := row_eq h hrow hscope
  obtain ⟨s₀, hs₀⟩ := List.exists_mem_of_ne_nil _ hne
  obtain ⟨hwin, hg, hrealm⟩ := mem_samplesOn.mp hs₀
  obtain ⟨e₀, he₀, hs₀mem, hregion₀, -⟩ := (mem_window h).mp hwin
  have hregion : row.group.region = region := (groupOf_parts hg).1.symm.trans hregion₀
  have hnow' : latestListing snapshots region realm since row.group.item = some now := by
    rw [← hregion]
    exact hnow
  -- the row's ladder in terms of the stored ones
  have hladder : row.ladder = Ladder.merged
      ((shelvesOf (recorded snapshots) region c row.group realm).map fun l => Ladder.decode l.steps) := by
    rw [← laddersOf_latest]
    exact (congrArg MarketRollup.ladder heq).trans roll_ladder
  have htotal : row.ladder.total = row.listingsNow +
      (((shelvesOf (recorded snapshots) region c row.group realm).filter (!·.listedIn now)).map
        LadderRow.offered).sum := by
    rw [hlistings, ← sum_shelves h hg hregion hnow', hladder, Ladder.total_merged, List.map_map]
    rfl
  have hdelisted : NoneDelisted snapshots since c row realm ↔
      (shelvesOf (recorded snapshots) region c row.group realm).filter (!·.listedIn now) = [] := by
    rw [delisted_eq_nil h hg hregion]
    constructor
    · intro hall
      exact hall now hnow
    · intro hall now' hnow'
      obtain rfl := Option.some.inj (hnow.symm.trans hnow')
      exact hall
  rw [hdelisted]
  constructor
  · intro hsame
    have hempty : row.ladder.isEmpty = false := by
      have hrealm₀ : e₀.2.realm = realm := by
        rw [← hrealm, ← seen_of_samples hs₀mem]
        rfl
      obtain ⟨l, hl, -⟩ := exists_shelf h hg he₀ hregion hrealm₀ (mem_onTrack.mpr ⟨hs₀mem, hg⟩)
      have hle := List.le_sum_of_mem (List.mem_map_of_mem (f := LadderRow.offered) hl)
      rw [sum_shelves h hg hregion hnow', ← hlistings, ← htotal] at hle
      exact Ladder.isEmpty_eq_false (Nat.lt_of_lt_of_le (shelf_pos h hl) hle)
    have hsum := (hsame hempty).1
    by_contra hne
    obtain ⟨l, hl⟩ := List.exists_mem_of_ne_nil _ hne
    have hpos := shelf_pos h (List.mem_filter.mp hl).1
    have hle := List.le_sum_of_mem (List.mem_map_of_mem (f := LadderRow.offered) hl)
    omega
  · intro hnil _
    have hall : (shelvesOf (recorded snapshots) region c row.group realm).filter (·.listedIn now) =
        shelvesOf (recorded snapshots) region c row.group realm := by
      rw [List.filter_eq_self]
      simpa using hnil
    refine ⟨?_, ?_⟩
    · rw [htotal, hnil]
      rfl
    · rw [hcheapest, ← min_listed h hg hregion hnow', hall, hladder, Ladder.cheapest_merged,
        List.flatMap_map]
      rfl

/-- Two variants of a sword, one on sale for twice the price of the other. -/
def twoSwords : Fetched :=
  { listings := [⟨7, 100, []⟩, ⟨7, 200, [1]⟩]
    few := by decide
    priced := by decide }

open RealmPrices (oneSword)

/-- Two variants of a sword on sale at one snapshot, one of them at the next. -/
def oneLeft : List Snapshot := [(twoSwords, ⟨.eu, 1, 10⟩), (oneSword, ⟨.eu, 1, 20⟩)]

/-- The variant that was bought is still swept. -/
theorem swept_after_sale : Increasing oneLeft ∧
    ∃ row ∈ rollups plain ((recorded oneLeft).windowInRegion .eu 0)
        ((recorded oneLeft).latestLaddersInRegion .eu) bare .all,
      row.scope = .realm 1 ∧ ¬ SameShelf row := by
  refine ⟨by decide, ?_⟩
  have hany : (rollups plain ((recorded oneLeft).windowInRegion .eu 0)
      ((recorded oneLeft).latestLaddersInRegion .eu) bare .all).any
        (fun row => row.scope = .realm 1 ∧ row.ladder.isEmpty = false ∧ row.ladder.total = 2 ∧
          row.listingsNow = 1) = true := by decide
  obtain ⟨row, hrow, hfacts⟩ := List.any_eq_true.mp hany
  obtain ⟨hscope, hempty, htotal, hlistings⟩ := of_decide_eq_true hfacts
  refine ⟨row, hrow, hscope, fun hsame => ?_⟩
  have heq := (hsame hempty).1
  rw [htotal, hlistings] at heq
  cases heq

/-- While both variants are on sale, the row sweeps both. -/
theorem depth_two_swords :
    ∃ row ∈ rollups plain ((recorded [(twoSwords, ⟨.eu, 1, 10⟩)]).windowInRegion .eu 0)
        ((recorded [(twoSwords, ⟨.eu, 1, 10⟩)]).latestLaddersInRegion .eu) bare .all,
      row.scope = .realm 1 ∧ SameShelf row := by
  have hany : (rollups plain ((recorded [(twoSwords, ⟨.eu, 1, 10⟩)]).windowInRegion .eu 0)
      ((recorded [(twoSwords, ⟨.eu, 1, 10⟩)]).latestLaddersInRegion .eu) bare .all).any
        (fun row => row.scope = .realm 1 ∧ row.group = ⟨.eu, 7, .boe, none⟩) = true := by
    decide
  obtain ⟨row, hrow, hfacts⟩ := List.any_eq_true.mp hany
  obtain ⟨hscope, hgroup⟩ := of_decide_eq_true hfacts
  refine ⟨row, hrow, hscope,
    (depth_iff plain [(twoSwords, ⟨.eu, 1, 10⟩)] .eu 0 bare .all (by decide) row 1 hrow hscope).mpr ?_⟩
  intro now hnow e he _ s hs
  obtain ⟨hmem, -⟩ := latestListing_some (by decide) hnow
  rw [List.mem_singleton.mp hmem]
  rw [List.mem_singleton.mp he] at hs
  exact ⟨s, (mem_onTrack.mp hs).1, rfl⟩

end Gavel.Storage
