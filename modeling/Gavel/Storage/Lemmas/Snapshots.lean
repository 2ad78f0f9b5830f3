import Gavel.Market.Lemmas.Summaries
import Gavel.Storage.RealmPrices

/-!
# What recording a snapshot writes

A snapshot's calls come to three insertions: the instant, the rows of the versions that have changed
and of those that are gone, and the ladders beside the former.
-/

namespace Gavel.Storage

open Gavel.Cluster (Millis)
open Gavel.Market

namespace RealmPrices

variable {t : RealmPrices} {seen : Seen} {samples : List RealmSample} {ladders : List RealmLadder}
  {previous : List Previous} {v : Version} {s r : RealmSample} {p : Previous}

/-- What was stored last of a version on a realm. -/
def heldOf (previous : List Previous) (v : Version) : Option Previous :=
  previous.find? (·.row.version = v)

/-- Whether a sample of a snapshot is written. -/
def isNews (ladders : List RealmLadder) (previous : List Previous) (s : RealmSample) : Bool :=
  changed s (incomingOf ladders s.version) (heldOf previous s.version)

/-- The ladder rows that are written beside a sample. -/
def besides (seen : Seen) (ladders : List RealmLadder) (s : RealmSample) : List LadderRow :=
  ((writtenOf ladders s.version).map fun l =>
    ⟨seen, s.version, l.levels, l.total, (incomingOf ladders s.version).getD []⟩).toList

/-- What is left of the stored versions once some samples are struck off. -/
def left (previous : List Previous) (samples : List RealmSample) : List Previous :=
  previous.filter fun p => samples.all (·.version ≠ p.row.version)

/-- The rows that end the versions left. -/
def burials (seen : Seen) (left : List Previous) : List RealmSample :=
  (left.filter (0 < ·.row.listings)).map fun p => tombstone seen p.row.version

theorem takeSample_eq (hs : s.seen = seen) :
    takeSample seen ladders (t, previous) s =
      ({ t with
          samples := ([s].filter (isNews ladders previous)).foldl Keyed.add t.samples
          ladders := (([s].filter (isNews ladders previous)).flatMap (besides seen ladders)).foldl
            Keyed.add t.ladders },
        left previous [s]) := by
  subst hs
  have hleft : previous.filter (fun p => decide (p.row.version ≠ s.version)) = left previous [s] := by
    apply List.filter_congr
    intro p _
    simp [eq_comm]
  by_cases hnews : isNews ladders previous s = true
  · have hchanged := hnews
    simp only [isNews, heldOf] at hchanged
    simp only [takeSample, hchanged, if_true, hleft, List.filter_cons, hnews, List.filter_nil]
    cases hwritten : writtenOf ladders s.version with
    | none => simp [besides, hwritten, RealmSample.seen]
    | some l => simp [besides, hwritten, RealmSample.seen]
  · have hchanged := hnews
    simp only [isNews, heldOf] at hchanged
    simp only [takeSample, hchanged, hleft, List.filter_cons, hnews, List.filter_nil]
    simp

/-- A sample that is not written has the figures and the ladder that were stored last. -/
theorem of_not_isNews (h : ¬ isNews ladders previous s = true) :
    ∃ p, heldOf previous s.version = some p ∧ s.minPrice = p.row.minPrice ∧
      s.medianPrice = p.row.medianPrice ∧ s.listings = p.row.listings ∧
      incomingOf ladders s.version = p.steps := by
  simp only [isNews] at h
  cases hheld : heldOf previous s.version with
  | none => simp [hheld, changed] at h
  | some p =>
      simp only [hheld, changed, decide_eq_true_eq, not_or, not_not] at h
      exact ⟨p, rfl, h.1, h.2.1, h.2.2.1, h.2.2.2⟩

/-- Samples of different versions are written as if they came alone. -/
theorem takeSamples_eq (hseen : ∀ s ∈ samples, s.seen = seen)
    (hdistinct : samples.Pairwise fun a b => a.version ≠ b.version) :
    samples.foldl (takeSample seen ladders) (t, previous) =
      ({ t with
          samples := (samples.filter (isNews ladders previous)).foldl Keyed.add t.samples
          ladders := ((samples.filter (isNews ladders previous)).flatMap
            (besides seen ladders)).foldl Keyed.add t.ladders },
        left previous samples) := by
  induction samples generalizing t previous with
  | nil => simp [left]
  | cons s samples ih =>
      obtain ⟨hs, hrest⟩ := List.pairwise_cons.mp hdistinct
      have hnews : ∀ s' ∈ samples, isNews ladders (left previous [s]) s' =
          isNews ladders previous s' := by
        intro s' hs'
        have hfind : heldOf (left previous [s]) s'.version = heldOf previous s'.version := by
          rw [heldOf, left, List.find?_filter]
          apply congrArg (List.find? · previous)
          funext p
          by_cases hp : p.row.version = s'.version
          · simp [hp, hs s' hs']
          · simp [hp]
        rw [isNews, isNews, hfind]
      have hleft : left (left previous [s]) samples = left previous (s :: samples) := by
        rw [left, left, left, List.filter_filter]
        apply List.filter_congr
        intro p _
        simp [Bool.and_comm]
      have hcons : (s :: samples).filter (isNews ladders previous) =
          [s].filter (isNews ladders previous) ++ samples.filter (isNews ladders previous) := by
        rw [← List.filter_append]
        rfl
      rw [List.foldl_cons, takeSample_eq (hseen s List.mem_cons_self),
        ih (fun s' hs' => hseen s' (List.mem_cons_of_mem _ hs')) hrest,
        List.filter_congr hnews, hleft, hcons, List.foldl_append, List.flatMap_append,
        List.foldl_append]

theorem bury_eq (left : List Previous) :
    left.foldl (bury seen) t =
      { t with samples := (burials seen left).foldl Keyed.add t.samples } := by
  induction left generalizing t with
  | nil => rfl
  | cons p left ih =>
      rw [List.foldl_cons, ih]
      by_cases hp : 0 < p.row.listings
      · simp [bury, hp, burials]
      · simp [bury, hp, burials]

/-- What a snapshot of different versions leaves in the tables. -/
theorem recordSnapshot_eq {region : Region} {realm : RealmId} {observedAt : Millis}
    (hseen : ∀ s ∈ samples, s.seen = ⟨region, realm, observedAt⟩)
    (hdistinct : samples.Pairwise fun a b => a.version ≠ b.version) :
    (t.recordSnapshot samples region realm observedAt ladders).1 =
      let seen : Seen := ⟨region, realm, observedAt⟩
      let previous := t.previousOf region realm
      let news := samples.filter (isNews ladders previous)
      { snapshots := t.snapshots.add seen
        samples := (news ++ burials seen (left previous samples)).foldl Keyed.add t.samples
        ladders := (news.flatMap (besides seen ladders)).foldl Keyed.add t.ladders } := by
  simp only [recordSnapshot, takeSamples_eq hseen hdistinct, bury_eq, List.foldl_append]

/-! ## What was stored last -/

theorem newest_iff (hd : t.Dated) (hs : s ∈ t.samples.rows) :
    t.newest s = true ↔ ∀ q ∈ t.samples.rows, q.market = s.market → q.observedAt ≤ s.observedAt := by
  simp only [newest, List.all_eq_true, decide_eq_true_eq]
  refine forall₂_congr fun q hq => ?_
  rw [stored_le (hd.samples q hq) (hd.samples s hs)]

theorem mem_previousOf (hd : t.Dated) {region : Region} {realm : RealmId} :
    p ∈ t.previousOf region realm ↔
      (p.row ∈ t.samples.rows ∧ p.row.region = region ∧ p.row.realm = realm ∧
        ∀ q ∈ t.samples.rows, q.market = p.row.market → q.observedAt ≤ p.row.observedAt) ∧
      p.steps = t.stepsAt p.row := by
  simp only [previousOf, List.mem_map, List.mem_filter, decide_eq_true_eq]
  constructor
  · rintro ⟨s, ⟨hs, hregion, hrealm, hnewest⟩, rfl⟩
    exact ⟨⟨hs, hregion, hrealm, (newest_iff hd hs).mp hnewest⟩, rfl⟩
  · rintro ⟨⟨hs, hregion, hrealm, hnewest⟩, hsteps⟩
    exact ⟨p.row, ⟨hs, hregion, hrealm, (newest_iff hd hs).mpr hnewest⟩, by rw [← hsteps]⟩

theorem previousOf_pairwise (hd : t.Dated) (region : Region) (realm : RealmId) :
    (t.previousOf region realm).Pairwise fun p q => p.row.version ≠ q.row.version := by
  rw [previousOf, List.pairwise_map]
  refine List.Pairwise.imp_of_mem ?_ (t.samples.nodup.filter _)
  intro a b ha hb hne heq
  simp only [List.mem_filter, decide_eq_true_eq] at ha hb
  have heq : a.version = b.version := heq
  have hmarket : a.market = b.market := by
    simp only [RealmSample.market, ha.2.1, ha.2.2.1, hb.2.1, hb.2.2.1, heq]
  apply hne
  apply Keyed.eq_of_key ha.1 hb.1
  have htime : a.observedAt = b.observedAt :=
    Nat.le_antisymm ((newest_iff hd hb.1).mp hb.2.2.2 a ha.1 hmarket)
      ((newest_iff hd ha.1).mp ha.2.2.2 b hb.1 hmarket.symm)
  simp only [RealmSample.key, RealmSample.seen, ha.2.1, ha.2.2.1, hb.2.1, hb.2.2.1, heq, htime]

theorem previousOf_eq (hd : t.Dated) {region : Region} {realm : RealmId} {q : Previous}
    (hp : p ∈ t.previousOf region realm) (hq : q ∈ t.previousOf region realm)
    (h : p.row.version = q.row.version) : p = q :=
  List.inj_on_of_nodup_map (f := fun p : Previous => p.row.version)
    (List.pairwise_map.mpr (previousOf_pairwise hd region realm)) hp hq h

theorem heldOf_some (h : heldOf (t.previousOf seen.region seen.realm) v = some p) :
    p ∈ t.previousOf seen.region seen.realm ∧ p.row.version = v :=
  ⟨List.mem_of_find?_eq_some h, by simpa using List.find?_some h⟩

/-- Without a last row of a version there is no row of it at all. -/
theorem heldOf_none (hd : t.Dated) (h : heldOf (t.previousOf seen.region seen.realm) v = none) :
    ∀ q ∈ t.samples.rows, q.market ≠ (seen.region, seen.realm, v) := by
  intro q hq hmarket
  obtain ⟨r, hrows, hrm, hnewest⟩ :=
    Keyed.exists_greatest RealmSample.observedAt (P := fun r => r.market = q.market) hq rfl
  have hparts := hrm.trans hmarket
  simp only [RealmSample.market, Prod.mk.injEq] at hparts
  have hprev : (⟨r, t.stepsAt r⟩ : Previous) ∈ t.previousOf seen.region seen.realm := by
    refine (mem_previousOf hd).mpr ⟨⟨hrows, hparts.1, hparts.2.1, ?_⟩, rfl⟩
    intro p hp hpm
    exact hnewest p hp (hpm.trans hrm)
  have hnot := List.find?_eq_none.mp h _ hprev
  simp [hparts.2.2] at hnot

theorem stepsAt_some {steps : Text} (h : t.stepsAt r = some steps) :
    ∃ l ∈ t.ladders.rows, l.key = r.key ∧ l.steps = steps := by
  obtain ⟨l, hl, hsteps⟩ := Option.map_eq_some_iff.mp h
  exact ⟨l, List.mem_of_find?_eq_some hl, by simpa using List.find?_some hl, hsteps⟩

/-! ## The ladders that come with a snapshot -/

section Incoming

variable {listings : List GearListing} {region : Region} {realm : RealmId} {observedAt : Millis}

/-- Of the ladders of a snapshot, exactly one is of a version that is listed. -/
theorem find_ladder (h : ∃ l ∈ listings, l.version = v) :
    (summariseRealm listings region realm observedAt).2.filter (fun l => (l.1, l.2.1) = v) =
      [(v.1, v.2, shelfFor listings v)] := by
  rw [ladders_eq, List.filter_map]
  have hkeys : (Groups.keys Version.le GearListing.version listings).filter (· = v) = [v] := by
    have hmem : v ∈ Groups.keys Version.le GearListing.version listings := Groups.mem_keys.mpr h
    rw [List.filter_eq, List.count_eq_one_of_mem Groups.keys_nodup hmem]
    rfl
  have hpred : ((fun l : RealmLadder => decide ((l.1, l.2.1) = v)) ∘
      fun v => (v.1, v.2, shelfFor listings v)) = fun w => decide (w = v) := rfl
  rw [hpred, hkeys]
  rfl

/-- What is written beside a listed version is its ladder, and its stored form is what is compared. -/
theorem incoming_eq (hs : s ∈ (summariseRealm listings region realm observedAt).1) :
    let ladders := (summariseRealm listings region realm observedAt).2
    incomingOf ladders s.version = some (shelfFor listings s.version).encode ∧
      writtenOf ladders s.version = some (shelfFor listings s.version) := by
  obtain ⟨hlisted, hdesc⟩ := describes_of_mem hs
  have hne : (shelfFor listings s.version).isEmpty = false := by
    rw [Bool.eq_false_iff, Ne, Ladder.isEmpty_iff]
    exact (shelfFor_spec hdesc).1
  have hfind := @find_ladder s.version listings region realm observedAt hlisted
  constructor
  · have hfilter : (summariseRealm listings region realm observedAt).2.filter (fun l =>
        (l.1, l.2.1) = s.version ∧ !l.2.2.isEmpty) =
        [(s.version.1, s.version.2, shelfFor listings s.version)] := by
      have hsplit : ∀ ladders : List RealmLadder,
          ladders.filter (fun l => (l.1, l.2.1) = s.version ∧ !l.2.2.isEmpty) =
            (ladders.filter fun l => (l.1, l.2.1) = s.version).filter fun l => !l.2.2.isEmpty := by
        intro ladders
        rw [List.filter_filter]
        apply List.filter_congr
        intro l _
        simp [Bool.and_comm]
      rw [hsplit, hfind]
      simp [hne]
    simp only [incomingOf, hfilter, List.getLast?_singleton, Option.map_some]
  · have hhead := congrArg List.head? hfind
    rw [List.head?_filter] at hhead
    simp only [writtenOf, hhead, List.head?_cons, Option.map_some, Option.filter_some, hne,
      Bool.not_false, if_true]

end Incoming

/-! ## The tables after a snapshot -/

section After

variable {auctions : Fetched} {n : Seen} {l : LadderRow}

/-- The samples of a snapshot that are written. -/
def newsOf (t : RealmPrices) (listings : List GearListing) (n : Seen) : List RealmSample :=
  (summariseRealm listings n.region n.realm n.observedAt).1.filter
    (isNews (summariseRealm listings n.region n.realm n.observedAt).2
      (t.previousOf n.region n.realm))

/-- The stored versions that are not in a snapshot. -/
def goneOf (t : RealmPrices) (listings : List GearListing) (n : Seen) : List Previous :=
  left (t.previousOf n.region n.realm)
    (summariseRealm listings n.region n.realm n.observedAt).1

theorem seen_of_mem {listings : List GearListing}
    (h : s ∈ (summariseRealm listings n.region n.realm n.observedAt).1) : s.seen = n := by
  obtain ⟨-, hdesc⟩ := describes_of_mem h
  simp only [RealmSample.seen, hdesc.region, hdesc.realm, hdesc.observedAt]

theorem mem_goneOf {listings : List GearListing} : p ∈ t.goneOf listings n ↔
    p ∈ t.previousOf n.region n.realm ∧ ¬ ∃ l ∈ listings, l.version = p.row.version := by
  simp only [goneOf, left, List.mem_filter, List.all_eq_true, decide_eq_true_eq]
  apply and_congr_right
  intro _
  constructor
  · rintro hall hlisted
    obtain ⟨s, hs, hversion⟩ := @exists_sample listings n.region n.realm n.observedAt _ hlisted
    exact hall s hs hversion
  · intro hnot s hs heq
    exact hnot (heq ▸ (describes_of_mem hs).1)

theorem step_recordSnapshot :
    t.step (.recordSnapshot auctions n) =
      { snapshots := t.snapshots.add n
        samples := (t.newsOf auctions.listings n ++
          burials n (t.goneOf auctions.listings n)).foldl Keyed.add t.samples
        ladders := ((t.newsOf auctions.listings n).flatMap (besides n
          (summariseRealm auctions.listings n.region n.realm n.observedAt).2)).foldl Keyed.add
            t.ladders } :=
  recordSnapshot_eq (fun _ hs => seen_of_mem hs) pairwise_samples

theorem mem_burials {left : List Previous} :
    r ∈ burials n left ↔ ∃ p ∈ left, 0 < p.row.listings ∧ tombstone n p.row.version = r := by
  simp only [burials, List.mem_map, List.mem_filter, decide_eq_true_eq, and_assoc]

theorem mem_samples_after (hd : t.Dated) (hfree : ∀ r ∈ t.samples.rows, r.seen ≠ n) :
    r ∈ (t.step (.recordSnapshot auctions n)).samples.rows ↔
      r ∈ t.samples.rows ∨ r ∈ t.newsOf auctions.listings n ∨
        ∃ p ∈ t.goneOf auctions.listings n, 0 < p.row.listings ∧
          tombstone n p.row.version = r := by
  have hnews : ∀ s ∈ t.newsOf auctions.listings n, s.seen = n :=
    fun s hs => seen_of_mem (List.mem_of_mem_filter hs)
  have hgone : ∀ s ∈ burials n (t.goneOf auctions.listings n), s.seen = n := by
    intro s hs
    obtain ⟨p, -, -, rfl⟩ := mem_burials.mp hs
    rfl
  have hdistinct : (t.newsOf auctions.listings n ++
      burials n (t.goneOf auctions.listings n)).Pairwise fun a b => a.key ≠ b.key := by
    refine List.pairwise_append.mpr ⟨?_, ?_, ?_⟩
    · exact (pairwise_samples.filter _).imp fun hne heq => hne (congrArg Prod.snd heq)
    · rw [burials, List.pairwise_map]
      have hprevious := (previousOf_pairwise hd n.region n.realm).filter fun p =>
        (summariseRealm auctions.listings n.region n.realm n.observedAt).1.all
          (·.version ≠ p.row.version)
      exact (hprevious.filter _).imp fun hne heq => hne (congrArg Prod.snd heq)
    · intro s hs q hq heq
      obtain ⟨p, hp, -, rfl⟩ := mem_burials.mp hq
      have hversion : s.version = p.row.version := congrArg Prod.snd heq
      apply (mem_goneOf.mp hp).2
      rw [← hversion]
      exact (describes_of_mem (List.mem_of_mem_filter hs)).1
  rw [step_recordSnapshot, Keyed.mem_foldl_add hdistinct, ← mem_burials, ← List.mem_append]
  apply or_congr_right
  refine and_iff_left_of_imp fun hr hhas => ?_
  obtain ⟨q, hq, hkey⟩ := Keyed.has_iff.mp hhas
  have hseen : q.seen = r.seen := congrArg Prod.fst hkey
  apply hfree q hq
  rw [hseen]
  rcases List.mem_append.mp hr with hr | hr
  · exact hnews r hr
  · exact hgone r hr

/-- The ladder that is stored beside a written sample. -/
def ladderRow (listings : List GearListing) (n : Seen) (v : Version) : LadderRow :=
  ⟨n, v, (shelfFor listings v).levels, (shelfFor listings v).total, (shelfFor listings v).encode⟩

theorem mem_ladders_after (hfree : ∀ l ∈ t.ladders.rows, l.seen ≠ n) :
    l ∈ (t.step (.recordSnapshot auctions n)).ladders.rows ↔
      l ∈ t.ladders.rows ∨
        ∃ s ∈ t.newsOf auctions.listings n, ladderRow auctions.listings n s.version = l := by
  have hrows : (t.newsOf auctions.listings n).flatMap (besides n
        (summariseRealm auctions.listings n.region n.realm n.observedAt).2) =
      (t.newsOf auctions.listings n).map fun s => ladderRow auctions.listings n s.version := by
    rw [List.map_eq_flatMap]
    apply List.flatMap_congr
    intro s hs
    obtain ⟨hincoming, hwritten⟩ := incoming_eq (List.mem_of_mem_filter hs)
    simp only [besides, hincoming, hwritten, Option.map_some, Option.getD_some, Option.toList_some]
    rfl
  have hdistinct : ((t.newsOf auctions.listings n).map fun s =>
      ladderRow auctions.listings n s.version).Pairwise fun a b => a.key ≠ b.key := by
    rw [List.pairwise_map]
    exact (pairwise_samples.filter _).imp fun hne heq => hne (congrArg Prod.snd heq)
  rw [step_recordSnapshot, hrows, Keyed.mem_foldl_add hdistinct, ← List.mem_map]
  apply or_congr_right
  refine and_iff_left_of_imp fun hl hhas => ?_
  obtain ⟨s, -, rfl⟩ := List.mem_map.mp hl
  obtain ⟨q, hq, hkey⟩ := Keyed.has_iff.mp hhas
  exact hfree q hq (congrArg Prod.fst hkey)

theorem snapshots_after (hnew : n ∉ t.snapshots.rows) :
    (t.step (.recordSnapshot auctions n)).snapshots.rows = t.snapshots.rows ++ [n] := by
  rw [step_recordSnapshot]
  apply Keyed.rows_add_of_not_has
  simpa [Keyed.has] using hnew

end After

end RealmPrices

end Gavel.Storage
