import Gavel.Market.Lemmas.Rollups
import Gavel.Storage.Theorems.Suppression

/-!
# Sequences of snapshots

Where nothing but snapshots is recorded, and each realm's at increasing instants, a region's window
holds exactly the samples of its snapshots, and the newest instant of an item on a realm is that of the
last snapshot that lists it.
-/

namespace Gavel.Storage

open Gavel.Cluster (Millis)
open Gavel.Market

/-- The auctions of one snapshot, and where and when it was taken. -/
abbrev Snapshot := Fetched × Seen

namespace Snapshot

def samples (e : Snapshot) : List RealmSample := Archive.samplesOf e.1 e.2

/-- The samples of a group in a snapshot. -/
def onTrack (c : Catalog) (g : RollupGroup) (e : Snapshot) : List RealmSample :=
  e.samples.filter (c.groupOf · = g)

/-- Whether a snapshot lists an item in any version. -/
def lists (item : ItemId) (e : Snapshot) : Bool := e.samples.any (·.item = item)

/-- Whether a snapshot is of a realm. -/
def isOf (region : Region) (realm : RealmId) (e : Snapshot) : Bool :=
  e.2.region = region ∧ e.2.realm = realm

end Snapshot

/-- Each realm's snapshots have increasing instants, none too late to be stored as it is. -/
structure Increasing (snapshots : List Snapshot) : Prop where
  later : snapshots.Pairwise fun a b => a.2.region = b.2.region → a.2.realm = b.2.realm →
    a.2.observedAt < b.2.observedAt
  dated : ∀ e ∈ snapshots, e.2.observedAt < 2 ^ 63

instance decidableIncreasing (snapshots : List Snapshot) : Decidable (Increasing snapshots) :=
  decidable_of_iff ((snapshots.Pairwise fun a b => a.2.region = b.2.region → a.2.realm = b.2.realm →
      a.2.observedAt < b.2.observedAt) ∧ ∀ e ∈ snapshots, e.2.observedAt < 2 ^ 63)
    ⟨fun h => ⟨h.1, h.2⟩, fun h => ⟨h.1, h.2⟩⟩

/-- A call that records a snapshot. -/
def callOf (e : Snapshot) : RealmPrices.Call := .recordSnapshot e.1 e.2

/-- The store after some snapshots. -/
def recorded (snapshots : List Snapshot) : RealmPrices :=
  RealmPrices.after (snapshots.map callOf)

/-- What was submitted in some snapshots. -/
def archived (snapshots : List Snapshot) : Archive :=
  ⟨snapshots.map fun e => (e.2, e.samples), .empty⟩

/-- A realm's most recent snapshot. -/
def latestOf (snapshots : List Snapshot) (region : Region) (realm : RealmId) : Option Snapshot :=
  (snapshots.filter (Snapshot.isOf region realm)).getLast?

/-- A realm's most recent snapshot since an instant that lists an item. -/
def latestListing (snapshots : List Snapshot) (region : Region) (realm : RealmId) (since : Millis)
    (item : ItemId) : Option Snapshot :=
  (snapshots.filter fun e =>
    e.isOf region realm && (stored since ≤ stored e.2.observedAt) && e.lists item).getLast?

variable {snapshots : List Snapshot} {region : Region} {realm : RealmId} {since : Millis}
  {item : ItemId} {c : Catalog} {g : RollupGroup} {s : RealmSample} {e e' : Snapshot}
  {p : Snapshot → Bool}

theorem recorded_concat (snapshots : List Snapshot) (e : Snapshot) :
    recorded (snapshots ++ [e]) = (recorded snapshots).step (callOf e) := by
  simp [recorded, RealmPrices.after, Run.final]

theorem archived_concat (snapshots : List Snapshot) (e : Snapshot) :
    archived (snapshots ++ [e]) = (archived snapshots).step (callOf e) := by
  simp [archived, Archive.step, callOf, Snapshot.samples]

/-- Where only snapshots are recorded, every row stands at an instant of the ledger. -/
theorem Mirrors.ledgered {t : RealmPrices} (h : Mirrors t (archived snapshots))
    (hs : s ∈ t.samples.rows) : s.seen ∈ t.snapshots.rows := by
  by_contra hnot
  cases (h.raw s).mpr ⟨hs, hnot⟩

/-- A store that mirrors some snapshots is ready for one that is later than those of its realm. -/
theorem Mirrors.fits_next {t : RealmPrices} (hm : Mirrors t (archived snapshots))
    (h : Increasing (snapshots ++ [e])) : Mirrors.Fits t e.2 := by
  have hlast := (List.pairwise_append.mp h.later).2.2
  have hlater : ∀ n ∈ t.snapshots.rows, n.region = e.2.region → n.realm = e.2.realm →
      n.observedAt < e.2.observedAt := by
    intro n hn
    rw [hm.ledger] at hn
    simp only [archived, List.map_map, List.mem_map, Function.comp_apply] at hn
    obtain ⟨f, hf, rfl⟩ := hn
    exact hlast f hf e (List.mem_singleton_self e)
  refine ⟨hlater, ?_, hm.inRange, h.dated e (by simp)⟩
  intro s hs heq
  have hledger := hm.ledgered hs
  rw [heq] at hledger
  exact Nat.lt_irrefl _ (hlater e.2 hledger rfl rfl)

theorem Increasing.init (h : Increasing (snapshots ++ [e])) : Increasing snapshots :=
  ⟨(List.pairwise_append.mp h.later).1, fun f hf => h.dated f (List.mem_append_left _ hf)⟩

theorem mirrors_recorded (h : Increasing snapshots) :
    Mirrors (recorded snapshots) (archived snapshots) := by
  induction snapshots using List.reverseRecOn with
  | nil => exact .empty
  | append_singleton snapshots e ih =>
      have ih := ih h.init
      have hfits := ih.fits_next h
      rw [recorded_concat, archived_concat]
      apply ih.step
      · exact ⟨⟨hfits.later, hfits.free⟩, hfits.inRange⟩
      · intro s hs hregion hrealm hlt
        have hbefore := hfits.later s.seen (ih.ledgered hs) hregion hrealm
        exact absurd hlt (Nat.lt_asymm hbefore)

theorem Increasing.stores (h : Increasing snapshots) : (recorded snapshots).Dated :=
  (mirrors_recorded h).inRange

theorem eq_of_seen (h : Increasing snapshots) (he : e ∈ snapshots) (he' : e' ∈ snapshots)
    (hseen : e.2 = e'.2) : e = e' := by
  refine List.inj_on_of_nodup_map (f := Prod.snd) ?_ he he' hseen
  refine List.pairwise_map.mpr (h.later.imp ?_)
  intro a b hlt heq
  rw [heq] at hlt
  exact Nat.lt_irrefl _ (hlt rfl rfl)

theorem eq_of_realm (h : Increasing snapshots) (he : e ∈ snapshots) (he' : e' ∈ snapshots)
    (hregion : e.2.region = e'.2.region) (hrealm : e.2.realm = e'.2.realm)
    (hle : e.2.observedAt ≤ e'.2.observedAt) (hge : e'.2.observedAt ≤ e.2.observedAt) : e = e' := by
  apply eq_of_seen h he he'
  have htime := Nat.le_antisymm hle hge
  cases hs : e.2
  cases hs' : e'.2
  simp only [hs, hs'] at hregion hrealm htime
  rw [hregion, hrealm, htime]

/-- The last of some snapshots of a realm is the latest of them. -/
theorem last_latest (h : Increasing snapshots) (hp : ∀ e, p e = true → e.isOf region realm = true)
    (he : (snapshots.filter p).getLast? = some e) :
    e ∈ snapshots ∧ p e = true ∧
      ∀ f ∈ snapshots, p f = true → f.2.observedAt ≤ e.2.observedAt := by
  obtain ⟨init, hinit⟩ := List.getLast?_eq_some_iff.mp he
  have hmem : e ∈ snapshots.filter p := by simp [hinit]
  obtain ⟨hs, hpe⟩ := List.mem_filter.mp hmem
  refine ⟨hs, hpe, ?_⟩
  intro f hf hpf
  have hfmem : f ∈ init ++ [e] := hinit ▸ List.mem_filter.mpr ⟨hf, hpf⟩
  rcases List.mem_append.mp hfmem with hfi | hfe
  · have hpair := (hinit ▸ h.later.filter p : (init ++ [e]).Pairwise _)
    have hlt := (List.pairwise_append.mp hpair).2.2 f hfi e (List.mem_singleton_self e)
    have hfo := of_decide_eq_true (hp f hpf)
    have heo := of_decide_eq_true (hp e hpe)
    exact Nat.le_of_lt (hlt (hfo.1.trans heo.1.symm) (hfo.2.trans heo.2.symm))
  · rw [List.mem_singleton.mp hfe]

theorem mem_window (h : Increasing snapshots) :
    s ∈ (recorded snapshots).windowInRegion region since ↔
      ∃ e ∈ snapshots, s ∈ e.samples ∧ s.region = region ∧ stored since ≤ stored s.observedAt := by
  have hperm := (mirrors_recorded h).lossless.windowInRegion region since
  rw [hperm.mem_iff, List.mem_filter]
  simp only [Archive.submitted, archived, Keyed.empty, List.append_nil, List.mem_flatMap,
    List.mem_map, decide_eq_true_eq]
  constructor
  · rintro ⟨⟨_, ⟨e, he, rfl⟩, hs⟩, hrest⟩
    exact ⟨e, he, hs, hrest⟩
  · rintro ⟨e, he, hs, hrest⟩
    exact ⟨⟨_, ⟨e, he, rfl⟩, hs⟩, hrest⟩

theorem nodup_window (h : Increasing snapshots) :
    ((recorded snapshots).windowInRegion region since).Nodup := by
  have hperm := (mirrors_recorded h).lossless.windowInRegion region since
  exact hperm.nodup_iff.mpr ((mirrors_recorded h).nodup_submitted.filter _)

/-! ## What a realm's row says of now -/

theorem seen_of_samples (hs : s ∈ e.samples) : s.seen = e.2 := RealmPrices.seen_of_mem hs

theorem groupOf_parts (h : c.groupOf s = g) : s.region = g.region ∧ s.item = g.item :=
  ⟨congrArg RollupGroup.region h, congrArg RollupGroup.item h⟩

theorem mem_samplesOn {history : List RealmSample} :
    s ∈ samplesOn history c g realm ↔ s ∈ history ∧ c.groupOf s = g ∧ s.realm = realm := by
  simp only [samplesOn, List.mem_filter, Groups.mem_group, decide_eq_true_eq, and_assoc]

/-- What makes a snapshot one of those that list an item on a realm since an instant. -/
theorem listing_iff :
    (e.isOf region realm && (stored since ≤ stored e.2.observedAt) && e.lists item) = true ↔
    e.2.region = region ∧ e.2.realm = realm ∧ stored since ≤ stored e.2.observedAt ∧
      ∃ s ∈ e.samples, s.item = item := by
  simp only [Snapshot.isOf, Snapshot.lists, Bool.and_eq_true, decide_eq_true_eq, List.any_eq_true,
    and_assoc]

/-- A realm's last snapshot since an instant that lists an item is the latest of these. -/
theorem latestListing_some (h : Increasing snapshots)
    (he : latestListing snapshots region realm since item = some e) :
    e ∈ snapshots ∧ (e.2.region = region ∧ e.2.realm = realm ∧ stored since ≤ stored e.2.observedAt ∧
      ∃ s ∈ e.samples, s.item = item) ∧
      ∀ f ∈ snapshots, f.2.region = region → f.2.realm = realm → stored since ≤ stored f.2.observedAt →
        (∃ s ∈ f.samples, s.item = item) → f.2.observedAt ≤ e.2.observedAt := by
  obtain ⟨hmem, hlisting, hlatest⟩ := last_latest h (fun f hf => by
    simp only [Bool.and_eq_true] at hf
    exact hf.1.1) he
  refine ⟨hmem, listing_iff.mp hlisting, ?_⟩
  intro f hf hregion hrealm hsince hlists
  exact hlatest f hf (listing_iff.mpr ⟨hregion, hrealm, hsince, hlists⟩)

/-- A realm with a sample of an item in the window has a last snapshot that lists it, and the newest
instant of the item is that snapshot's. -/
theorem newest_eq (h : Increasing snapshots)
    (hs : s ∈ (recorded snapshots).windowInRegion region since) :
    ∃ e ∈ snapshots, latestListing snapshots region s.realm since s.item = some e ∧
      e.2.region = region ∧ e.2.realm = s.realm ∧ stored since ≤ stored e.2.observedAt ∧
      newestOf ((recorded snapshots).windowInRegion region since) region s.item s.realm =
        some e.2.observedAt := by
  obtain ⟨e₀, he₀, hs₀, hregion, hsince⟩ := (mem_window h).mp hs
  have hseen₀ := seen_of_samples hs₀
  have hlisting : (e₀.isOf region s.realm && (stored since ≤ stored e₀.2.observedAt) &&
      e₀.lists s.item) = true := by
    rw [listing_iff, ← hseen₀]
    exact ⟨hregion, rfl, hsince, s, hs₀, rfl⟩
  obtain ⟨e, he⟩ : ∃ e, latestListing snapshots region s.realm since s.item = some e := by
    apply Option.ne_none_iff_exists'.mp
    intro hnone
    have hempty := List.getLast?_eq_none_iff.mp hnone
    exact List.ne_nil_of_mem (List.mem_filter.mpr ⟨he₀, hlisting⟩) hempty
  obtain ⟨hmem, ⟨heregion, herealm, hesince, w, hw, hitem⟩, hlatest⟩ := latestListing_some h he
  refine ⟨e, hmem, he, heregion, herealm, hesince, List.max?_eq_some_iff.mpr ⟨?_, ?_⟩⟩
  · have hwseen := seen_of_samples hw
    refine List.mem_map.mpr ⟨w, List.mem_filter.mpr ⟨(mem_window h).mpr ⟨e, hmem, hw, ?_, ?_⟩, ?_⟩, ?_⟩
    · rw [← heregion, ← hwseen]
      rfl
    · rw [← hwseen] at hesince
      exact hesince
    · rw [← hwseen] at heregion herealm
      exact decide_eq_true ⟨heregion, hitem, herealm⟩
    · rw [← hwseen]
      rfl
  · intro instant hinstant
    obtain ⟨x, hx, rfl⟩ := List.mem_map.mp hinstant
    obtain ⟨hx, hparts⟩ := List.mem_filter.mp hx
    obtain ⟨hxregion, hxitem, hxrealm⟩ := of_decide_eq_true hparts
    obtain ⟨f, hf, hxf, -, hxsince⟩ := (mem_window h).mp hx
    have hfseen := seen_of_samples hxf
    have hpf := hlatest f hf (by rw [← hfseen]; exact hxregion) (by rw [← hfseen]; exact hxrealm)
      (by rw [← hfseen]; exact hxsince) ⟨x, hxf, hxitem⟩
    rw [← hfseen] at hpf
    exact hpf

theorem mem_currentOf {history samples : List RealmSample} : s ∈ currentOf history samples ↔
    s ∈ samples ∧ newestOf history s.region s.item s.realm = some s.observedAt := by
  simp only [currentOf, List.mem_filter, decide_eq_true_eq]

theorem mem_onTrack : s ∈ e.onTrack c g ↔ s ∈ e.samples ∧ c.groupOf s = g := by
  simp only [Snapshot.onTrack, List.mem_filter, decide_eq_true_eq]

/-- The samples of a group in a snapshot are of different versions. -/
theorem pairwise_onTrack : (e.onTrack c g).Pairwise fun a b => a.version ≠ b.version :=
  pairwise_samples.filter _

theorem nodup_onTrack : (e.onTrack c g).Nodup :=
  pairwise_onTrack.imp fun hne heq => hne (by rw [heq])

/-- What is current of a group on a realm are its samples in the last snapshot that lists the item. -/
theorem current_perm (h : Increasing snapshots) (hg : g.region = region)
    (hne : samplesOn ((recorded snapshots).windowInRegion region since) c g realm ≠ []) :
    ∃ e ∈ snapshots, latestListing snapshots region realm since g.item = some e ∧
      (currentOf ((recorded snapshots).windowInRegion region since)
        (samplesOn ((recorded snapshots).windowInRegion region since) c g realm)).Perm
          (e.onTrack c g) := by
  obtain ⟨s₀, hs₀⟩ := List.exists_mem_of_ne_nil _ hne
  obtain ⟨hwin, hgroup, hrealm⟩ := mem_samplesOn.mp hs₀
  obtain ⟨e, hmem, he, heregion, herealm, hesince, hnewest⟩ := newest_eq h hwin
  rw [(groupOf_parts hgroup).2, hrealm] at he hnewest
  rw [hrealm] at herealm
  refine ⟨e, hmem, he, (List.perm_ext_iff_of_nodup ?_ nodup_onTrack).mpr ?_⟩
  · exact (((nodup_window h).filter _).filter _).filter _
  intro x
  rw [mem_currentOf, mem_samplesOn, mem_onTrack]
  constructor
  · rintro ⟨⟨hx, hxg, hxr⟩, hxnewest⟩
    rw [(groupOf_parts hxg).1, (groupOf_parts hxg).2, hxr, hg, hnewest] at hxnewest
    obtain ⟨f, hf, hxf, hxregion, -⟩ := (mem_window h).mp hx
    have hsame : f = e := by
      apply eq_of_seen h hf hmem
      have htime : e.2.observedAt = x.observedAt := Option.some.inj hxnewest
      rw [← seen_of_samples hxf, RealmSample.seen, hxregion, hxr, ← htime, ← heregion, ← herealm]
    exact ⟨hsame ▸ hxf, hxg⟩
  · rintro ⟨hx, hxg⟩
    have hxseen := seen_of_samples hx
    have hxr : x.realm = realm := by
      rw [← herealm, ← hxseen]
      rfl
    have hxt : e.2.observedAt = x.observedAt := by
      rw [← hxseen]
      rfl
    have hxregion : x.region = region := (groupOf_parts hxg).1.trans hg
    refine ⟨⟨(mem_window h).mpr ⟨e, hmem, hx, hxregion, hxt ▸ hesince⟩, hxg, hxr⟩, ?_⟩
    rw [hxregion, (groupOf_parts hxg).2, hxr, hnewest, hxt]

end Gavel.Storage
