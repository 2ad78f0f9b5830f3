import Gavel.Storage.RealmPrices

/-!
# The state of a market at an instant

The row in force at an instant is the newest of its market up to it. The readers return, for each
instant of the ledger, what the rows in force list, whichever way they look these up.
-/

namespace Gavel.Storage

open Gavel.Cluster (Millis)
open Gavel.Market

/-- The rows of the store, by their instants and versions. -/
abbrev Samples := Keyed RealmSample (Seen × Version) RealmSample.key

/-- One version of an item on one realm. -/
abbrev MarketId := Region × RealmId × Version

/-- What a row says of its market. -/
structure Facts where
  minPrice : Copper
  medianPrice : Copper
  maxPrice : Copper
  listings : Nat
  deriving DecidableEq

def factsOf (s : RealmSample) : Facts := ⟨s.minPrice, s.medianPrice, s.maxPrice, s.listings⟩

/-- What readers are shown of a row: nothing without listings. -/
def shown (s : RealmSample) : Option Facts := if 0 < s.listings then some (factsOf s) else none

/-- The market of a version at an instant of the ledger. -/
def Seen.market (n : Seen) (v : Version) : MarketId := (n.region, n.realm, v)

namespace Samples

variable {t t' : Samples} {m : MarketId} {at' : Millis} {s r : RealmSample}

/-- The newest row of a market up to an instant. -/
structure Newest (t : Samples) (m : MarketId) (at' : Millis) (s : RealmSample) : Prop where
  mem : s ∈ t.rows
  market : s.market = m
  upto : s.observedAt ≤ at'
  newest : ∀ p ∈ t.rows, p.market = m → p.observedAt ≤ at' → p.observedAt ≤ s.observedAt

def isNewest (t : Samples) (m : MarketId) (at' : Millis) (s : RealmSample) : Bool :=
  s.market = m ∧ s.observedAt ≤ at' ∧
    t.rows.all fun p => p.market = m → p.observedAt ≤ at' → p.observedAt ≤ s.observedAt

/-- The row in force at an instant. -/
def inForce (t : Samples) (m : MarketId) (at' : Millis) : Option RealmSample :=
  t.rows.find? (isNewest t m at')

/-- What is listed at an instant. -/
def stateAt (t : Samples) (m : MarketId) (at' : Millis) : Option Facts :=
  (inForce t m at').bind shown

theorem key_of_market (hm : r.market = s.market) (ht : r.observedAt = s.observedAt) :
    r.key = s.key := by
  simp only [RealmSample.market, Prod.mk.injEq] at hm
  simp only [RealmSample.key, RealmSample.seen, hm, ht]

theorem Newest.eq (h : Newest t m at' s) (h' : Newest t m at' r) : r = s := by
  apply Keyed.eq_of_key h'.mem h.mem
  apply key_of_market (h'.market.trans h.market.symm)
  exact Nat.le_antisymm (h.newest r h'.mem h'.market h'.upto) (h'.newest s h.mem h.market h.upto)

theorem newest_iff : Newest t m at' s ↔ s ∈ t.rows ∧ isNewest t m at' s = true := by
  simp only [isNewest, decide_eq_true_eq, List.all_eq_true]
  constructor
  · exact fun h => ⟨h.mem, h.market, h.upto, h.newest⟩
  · exact fun h => ⟨h.1, h.2.1, h.2.2.1, h.2.2.2⟩

theorem inForce_iff : inForce t m at' = some s ↔ Newest t m at' s := by
  constructor
  · intro h
    exact newest_iff.mpr ⟨List.mem_of_find?_eq_some h, List.find?_some h⟩
  · intro h
    cases hf : inForce t m at' with
    | none => exact absurd (newest_iff.mp h).2 (List.find?_eq_none.mp hf s h.mem)
    | some r =>
        have hr : Newest t m at' r :=
          newest_iff.mpr ⟨List.mem_of_find?_eq_some hf, List.find?_some hf⟩
        rw [Newest.eq h hr]

/-- A market with a row up to an instant has one in force. -/
theorem exists_newest (hs : s ∈ t.rows) (hm : s.market = m) (hupto : s.observedAt ≤ at') :
    ∃ r, Newest t m at' r := by
  obtain ⟨r, hrows, ⟨hmarket, hrupto⟩, hnewest⟩ :=
    Keyed.exists_greatest RealmSample.observedAt
      (P := fun p => p.market = m ∧ p.observedAt ≤ at') hs ⟨hm, hupto⟩
  exact ⟨r, hrows, hmarket, hrupto, fun p hp hpm hpupto => hnewest p hp ⟨hpm, hpupto⟩⟩

theorem inForce_none_iff :
    inForce t m at' = none ↔ ∀ p ∈ t.rows, p.market = m → at' < p.observedAt := by
  constructor
  · intro h p hp hm
    by_contra hnot
    obtain ⟨r, hr⟩ := exists_newest hp hm (Nat.le_of_not_lt hnot)
    rw [inForce_iff.mpr hr] at h
    cases h
  · intro h
    cases hf : inForce t m at' with
    | none => rfl
    | some r =>
        have hr := inForce_iff.mp hf
        exact absurd hr.upto (Nat.not_le_of_lt (h r hr.mem hr.market))

/-- The row in force depends on the market's rows up to the instant. -/
theorem inForce_congr
    (h : ∀ p : RealmSample, p.market = m → p.observedAt ≤ at' → (p ∈ t'.rows ↔ p ∈ t.rows)) :
    inForce t' m at' = inForce t m at' := by
  ext s
  simp only [inForce_iff]
  constructor
  · intro hs
    refine ⟨(h s hs.market hs.upto).mp hs.mem, hs.market, hs.upto, ?_⟩
    exact fun p hp hm hupto => hs.newest p ((h p hm hupto).mpr hp) hm hupto
  · intro hs
    refine ⟨(h s hs.market hs.upto).mpr hs.mem, hs.market, hs.upto, ?_⟩
    exact fun p hp hm hupto => hs.newest p ((h p hm hupto).mp hp) hm hupto

theorem stateAt_congr
    (h : ∀ p : RealmSample, p.market = m → p.observedAt ≤ at' → (p ∈ t'.rows ↔ p ∈ t.rows)) :
    stateAt t' m at' = stateAt t m at' := by
  rw [stateAt, stateAt, inForce_congr h]

theorem stateAt_of_newest (h : Newest t m at' s) : stateAt t m at' = shown s := by
  rw [stateAt, inForce_iff.mpr h, Option.bind_some]

/-- What is listed at an instant are the facts of the row in force. -/
theorem stateAt_iff {f : Facts} :
    stateAt t m at' = some f ↔ ∃ s, Newest t m at' s ∧ 0 < s.listings ∧ factsOf s = f := by
  simp only [stateAt, Option.bind_eq_some_iff, inForce_iff, shown, Option.ite_none_right_eq_some,
    Option.some.injEq]

/-- A row of another market, or of a later instant, changes no state. -/
theorem stateAt_add_other (h : s.market ≠ m ∨ at' < s.observedAt) :
    stateAt (t.add s) m at' = stateAt t m at' := by
  apply stateAt_congr
  intro p hpm hupto
  rw [Keyed.mem_add]
  refine or_iff_left ?_
  rintro ⟨rfl, -⟩
  rcases h with hm | hlt
  · exact hm hpm
  · exact absurd hupto (Nat.not_le_of_lt hlt)

/-- A row that is followed by another up to an instant changes no state at that instant. -/
theorem stateAt_add_older (hr : r ∈ t.rows) (hm : r.market = m) (hsr : s.observedAt < r.observedAt)
    (hupto : r.observedAt ≤ at') : stateAt (t.add s) m at' = stateAt t m at' := by
  obtain ⟨w, hw⟩ := exists_newest hr hm hupto
  have hw' : Newest (t.add s) m at' w := by
    refine ⟨Keyed.mem_add_of_mem hw.mem, hw.market, hw.upto, ?_⟩
    intro p hp hpm hpupto
    rcases Keyed.mem_add.mp hp with hp | ⟨rfl, -⟩
    · exact hw.newest p hp hpm hpupto
    · exact Nat.le_trans (Nat.le_of_lt hsr) (hw.newest r hr hm hupto)
  rw [stateAt_of_newest hw', stateAt_of_newest hw]

end Samples

/-! ## What readers return -/

namespace RealmPrices

variable {t : RealmPrices} {rows : List RealmSample} {ledger : List Seen} {s x : RealmSample}
  {n : Seen} {mine : RealmSample → Bool} {bounding : Seen → Bool} {region : Region} {since : Millis}

/-- A sample the store holds: listed at an instant of the ledger, or recorded at another one. -/
def Holds (t : RealmPrices) (x : RealmSample) : Prop :=
  (x.seen ∈ t.snapshots.rows ∧ Samples.stateAt t.samples x.market x.observedAt = some (factsOf x)) ∨
    (x ∈ t.samples.rows ∧ x.seen ∉ t.snapshots.rows)

theorem unledgered_iff : t.unledgered x = true ↔ x.seen ∉ t.snapshots.rows := by
  have hhas : t.snapshots.has x.seen = true ↔ x.seen ∈ t.snapshots.rows := by
    simp [Keyed.has]
  rw [unledgered, ← hhas, Bool.not_eq_true', Bool.not_eq_true]

/-- A row is in force at an instant before the next row of its market. -/
theorem lead_iff : (lead rows s).all (stored n.observedAt < ·) = true ↔
    ∀ r ∈ rows, r.market = s.market → stored s.observedAt < stored r.observedAt →
      stored n.observedAt < stored r.observedAt := by
  have hnext (i : Int) : i ∈ (rows.filter fun r =>
        r.market = s.market ∧ stored s.observedAt < stored r.observedAt).map (fun r => stored r.observedAt) ↔
      ∃ r ∈ rows, (r.market = s.market ∧ stored s.observedAt < stored r.observedAt) ∧
        stored r.observedAt = i := by
    simp only [List.mem_map, List.mem_filter, decide_eq_true_eq, and_assoc]
  unfold lead
  cases h : ((rows.filter fun r => r.market = s.market ∧ stored s.observedAt < stored r.observedAt).map
      fun r => stored r.observedAt).min? with
  | none =>
      simp only [Option.all_none, true_iff]
      intro r hr hm hlt
      have hmem := (hnext _).mpr ⟨r, hr, ⟨hm, hlt⟩, rfl⟩
      rw [List.min?_eq_none_iff.mp h] at hmem
      cases hmem
  | some next =>
      obtain ⟨hmem, hle⟩ := List.min?_eq_some_iff.mp h
      obtain ⟨r₀, hr₀, ⟨hm₀, hlt₀⟩, heq⟩ := (hnext next).mp hmem
      simp only [Option.all_some, decide_eq_true_eq]
      constructor
      · intro hlt r hr hm hsr
        exact Int.lt_of_lt_of_le hlt (hle _ ((hnext _).mpr ⟨r, hr, ⟨hm, hsr⟩, rfl⟩))
      · exact fun hall => heq ▸ hall r₀ hr₀ hm₀ hlt₀

theorem mem_expand : x ∈ expand rows ledger ↔ ∃ s ∈ rows, ∃ n ∈ ledger,
    (n.region = s.region ∧ n.realm = s.realm ∧ stored s.observedAt ≤ stored n.observedAt ∧
      ∀ r ∈ rows, r.market = s.market → stored s.observedAt < stored r.observedAt →
        stored n.observedAt < stored r.observedAt) ∧
      { s with observedAt := n.observedAt } = x := by
  simp only [expand, List.mem_flatMap, List.mem_map, List.mem_filter, decide_eq_true_eq, lead_iff,
    and_assoc]

/-- A row at an instant of the ledger is what is listed then if it is the row in force. -/
theorem restated_iff (hn : n ∈ t.snapshots.rows) :
    (∃ s, Samples.Newest t.samples (n.region, n.realm, s.version) n.observedAt s ∧
        0 < s.listings ∧ { s with observedAt := n.observedAt } = x) ↔
      x.seen = n ∧ Samples.stateAt t.samples x.market x.observedAt = some (factsOf x) := by
  simp only [Samples.stateAt_iff]
  constructor
  · rintro ⟨s, hs, hpos, rfl⟩
    have hmarket := hs.market
    simp only [RealmSample.market, Prod.mk.injEq] at hmarket
    have hseen : RealmSample.seen { s with observedAt := n.observedAt } = n := by
      simp only [RealmSample.seen, hmarket]
    refine ⟨hseen, s, ?_, hpos, rfl⟩
    have hm : RealmSample.market { s with observedAt := n.observedAt } =
        (n.region, n.realm, s.version) := by
      simp only [RealmSample.market, RealmSample.version, hmarket]
    rw [hm]
    exact hs
  · rintro ⟨rfl, s, hs, hpos, hfacts⟩
    have hmarket := hs.market
    simp only [RealmSample.market, Prod.mk.injEq, RealmSample.version] at hmarket
    simp only [factsOf, Facts.mk.injEq] at hfacts
    refine ⟨s, ?_, hpos, ?_⟩
    · have hm : (x.seen.region, x.seen.realm, s.version) = x.market := by
        simp only [RealmSample.seen, RealmSample.market, RealmSample.version, hmarket]
      rw [hm]
      exact hs
    · obtain ⟨hregion, hrealm, hitem, hvariant⟩ := hmarket
      obtain ⟨hmin, hmedian, hmax, hlistings⟩ := hfacts
      cases s
      cases x
      simp_all [RealmSample.seen]

/-- Whether a reader of some markets looks at every instant of the ledger it expands, and reads instants
as they were. -/
structure Reads (t : RealmPrices) (mine : RealmSample → Bool) (bounding : Seen → Bool)
    (region : Region) : Prop where
  dated : t.Dated
  region : ∀ s, mine s = true → s.region = region
  market : ∀ s r, s.market = r.market → mine s = mine r
  bounded : ∀ n ∈ t.snapshots.rows, ∀ s, mine s = true → s.region = n.region → s.realm = n.realm →
    bounding n = true

theorem mem_changes (hd : t.Dated) : s ∈ t.changes mine bounding ↔
    s ∈ t.samples.rows ∧ mine s = true ∧
      ∃ n ∈ t.snapshots.rows, bounding n = true ∧ s.observedAt ≤ n.observedAt := by
  simp only [changes]
  cases h : ((t.snapshots.rows.filter bounding).map fun n => stored n.observedAt).max? with
  | none =>
      have hnil := List.max?_eq_none_iff.mp h
      simp only [List.map_eq_nil_iff, List.filter_eq_nil_iff] at hnil
      simp only [List.not_mem_nil, false_iff]
      rintro ⟨-, -, n, hn, hb, -⟩
      exact hnil n hn hb
  | some most =>
      obtain ⟨hmem, hle⟩ := List.max?_eq_some_iff.mp h
      obtain ⟨last, hlast, rfl⟩ := List.mem_map.mp hmem
      obtain ⟨hlast, hb⟩ := List.mem_filter.mp hlast
      simp only [List.mem_filter, decide_eq_true_eq]
      constructor
      · rintro ⟨hs, hmine, hupto⟩
        exact ⟨hs, hmine, last, hlast, hb, (stored_le (hd.samples s hs) (hd.snapshots last hlast)).mp hupto⟩
      · rintro ⟨hs, hmine, n, hn, hbn, hupto⟩
        refine ⟨hs, hmine, Int.le_trans ((stored_le (hd.samples s hs) (hd.snapshots n hn)).mpr hupto) (hle _ ?_)⟩
        exact List.mem_map_of_mem (f := fun n : Seen => stored n.observedAt) (List.mem_filter.mpr ⟨hn, hbn⟩)

/-- Among the rows a reader expands, a row that is followed by none up to an instant is in force. -/
theorem newest_of_lead (h : t.Reads mine bounding region) (hn : n ∈ t.snapshots.rows) :
    (s ∈ t.changes mine bounding ∧ n.region = s.region ∧ n.realm = s.realm ∧
        stored s.observedAt ≤ stored n.observedAt ∧
        ∀ r ∈ t.changes mine bounding, r.market = s.market → stored s.observedAt < stored r.observedAt →
          stored n.observedAt < stored r.observedAt) ↔
      mine s = true ∧
        Samples.Newest t.samples (n.region, n.realm, s.version) n.observedAt s := by
  have hn63 := h.dated.snapshots n hn
  constructor
  · rintro ⟨hs, hregion, hrealm, hupto, hlead⟩
    obtain ⟨hrows, hmine, -⟩ := (mem_changes h.dated).mp hs
    have hs63 := h.dated.samples s hrows
    have hmarket : s.market = (n.region, n.realm, s.version) := by
      simp only [RealmSample.market, hregion, hrealm]
    refine ⟨hmine, hrows, hmarket, (stored_le hs63 hn63).mp hupto, ?_⟩
    intro p hp hpm hpupto
    by_contra hlt
    have hp63 := h.dated.samples p hp
    have hpmine : mine p = true := (h.market p s (hpm.trans hmarket.symm)).trans hmine
    have hbounded := h.bounded n hn s hmine hregion.symm hrealm.symm
    have hpc : p ∈ t.changes mine bounding :=
      (mem_changes h.dated).mpr ⟨hp, hpmine, n, hn, hbounded, hpupto⟩
    have hafter := hlead p hpc (hpm.trans hmarket.symm) ((stored_lt hs63 hp63).mpr (Nat.lt_of_not_le hlt))
    exact absurd hpupto (Nat.not_le_of_lt ((stored_lt hn63 hp63).mp hafter))
  · rintro ⟨hmine, hs⟩
    have hs63 := h.dated.samples s hs.mem
    have hmarket := hs.market
    simp only [RealmSample.market, Prod.mk.injEq] at hmarket
    have hbounded := h.bounded n hn s hmine hmarket.1 hmarket.2.1
    refine ⟨(mem_changes h.dated).mpr ⟨hs.mem, hmine, n, hn, hbounded, hs.upto⟩, hmarket.1.symm,
      hmarket.2.1.symm, (stored_le hs63 hn63).mpr hs.upto, ?_⟩
    intro r hr hrm hlt
    obtain ⟨hrows, -⟩ := (mem_changes h.dated).mp hr
    have hr63 := h.dated.samples r hrows
    by_contra hnot
    have hupto := Nat.le_of_not_lt (mt (stored_lt hn63 hr63).mpr hnot)
    have hle := hs.newest r hrows (hrm.trans hs.market) hupto
    exact absurd ((stored_lt hs63 hr63).mp hlt) (Nat.not_lt_of_le hle)

/-- A reader returns what the store holds of its markets since an instant. -/
theorem mem_asOf (h : t.Reads mine bounding region) :
    x ∈ t.asOf mine bounding region since ↔
      mine x = true ∧ stored since ≤ stored x.observedAt ∧ t.Holds x := by
  have hexpand : x ∈ (expand (t.changes mine bounding)
        (t.snapshots.rows.filter fun n => n.region = region ∧ stored since ≤ stored n.observedAt)).filter
        (0 < ·.listings) ↔
      mine x = true ∧ stored since ≤ stored x.observedAt ∧ x.seen ∈ t.snapshots.rows ∧
        Samples.stateAt t.samples x.market x.observedAt = some (factsOf x) := by
    simp only [List.mem_filter, mem_expand, decide_eq_true_eq]
    constructor
    · rintro ⟨⟨s, hs, n, ⟨hn, hregion, hsince⟩, hlead, rfl⟩, hpos⟩
      obtain ⟨hmine, hnewest⟩ := (newest_of_lead h hn).mp ⟨hs, hlead⟩
      obtain ⟨hseen, hstate⟩ := (restated_iff hn).mp ⟨s, hnewest, hpos, rfl⟩
      have hsame := h.market { s with observedAt := n.observedAt } s rfl
      exact ⟨hsame.trans hmine, hsince, hseen ▸ hn, hstate⟩
    · rintro ⟨hmine, hsince, hn, hstate⟩
      obtain ⟨s, hnewest, hpos, hx⟩ := (restated_iff hn).mpr ⟨rfl, hstate⟩
      have hmarket : x.market = s.market := by rw [← hx]; rfl
      have hmines : mine s = true := (h.market x s hmarket).symm.trans hmine
      obtain ⟨hs, hlead⟩ := (newest_of_lead h hn).mpr ⟨hmines, hnewest⟩
      refine ⟨⟨s, hs, x.seen, ⟨hn, h.region x hmine, hsince⟩, hlead, hx⟩, ?_⟩
      rw [← hx]
      exact hpos
  simp only [asOf, List.mem_append, hexpand, List.mem_filter, decide_eq_true_eq, Holds,
    unledgered_iff]
  constructor
  · rintro (⟨hmine, hsince, hn, hstate⟩ | ⟨hx, hmine, hsince, hn⟩)
    · exact ⟨hmine, hsince, .inl ⟨hn, hstate⟩⟩
    · exact ⟨hmine, hsince, .inr ⟨hx, hn⟩⟩
  · rintro ⟨hmine, hsince, ⟨hn, hstate⟩ | ⟨hx, hn⟩⟩
    · exact .inl ⟨hmine, hsince, hn, hstate⟩
    · exact .inr ⟨hx, hmine, hsince, hn⟩

/-! ## Each sample once -/

/-- Instants of one realm's ledger are told apart by their times. -/
theorem nodup_restated {s : RealmSample} {ledger : List Seen} (hledger : ledger.Nodup)
    (hown : ∀ n ∈ ledger, n.region = s.region ∧ n.realm = s.realm) :
    (ledger.map fun n => ({ s with observedAt := n.observedAt } : RealmSample)).Nodup := by
  apply hledger.map_on
  intro a ha b hb heq
  have ha := hown a ha
  have hb := hown b hb
  have htime : a.observedAt = b.observedAt := congrArg RealmSample.observedAt heq
  cases a
  cases b
  simp_all

theorem nodup_expand (h : t.Reads mine bounding region) (hledger : ledger.Nodup)
    (hsub : ∀ n ∈ ledger, n ∈ t.snapshots.rows) : (expand (t.changes mine bounding) ledger).Nodup := by
  have hrows : (t.changes mine bounding).Nodup := by
    simp only [changes]
    split
    · exact List.nodup_nil
    · exact t.samples.nodup.filter _
  refine List.nodup_flatMap.mpr ⟨?_, ?_⟩
  · intro s _
    apply nodup_restated (hledger.filter _)
    intro n hn
    simp only [List.mem_filter, decide_eq_true_eq] at hn
    exact ⟨hn.2.1, hn.2.2.1⟩
  · refine List.Pairwise.imp_of_mem ?_ hrows
    intro a b ha hb hne x hxa hxb
    apply hne
    simp only [List.mem_map, List.mem_filter, decide_eq_true_eq, lead_iff] at hxa hxb
    obtain ⟨n, ⟨hn, hlead⟩, rfl⟩ := hxa
    obtain ⟨n', ⟨hn', hlead'⟩, heq⟩ := hxb
    have hnewest := ((newest_of_lead h (hsub n hn)).mp ⟨ha, hlead⟩).2
    have hnewest' := ((newest_of_lead h (hsub n' hn')).mp ⟨hb, hlead'⟩).2
    simp only [RealmSample.mk.injEq] at heq
    obtain ⟨hitem, hregion, hrealm, hvariant, htime, -⟩ := heq
    have hversion : b.version = a.version := Prod.ext hitem hvariant
    have hregion : n'.region = n.region := by rw [hlead'.1, hlead.1, hregion]
    have hrealm : n'.realm = n.realm := by rw [hlead'.2.1, hlead.2.1, hrealm]
    rw [hregion, hrealm, hversion, htime] at hnewest'
    exact hnewest'.eq hnewest

theorem nodup_asOf (h : t.Reads mine bounding region) :
    (t.asOf mine bounding region since).Nodup := by
  refine List.nodup_append.mpr ⟨?_, t.samples.nodup.filter _, ?_⟩
  · apply List.Nodup.filter
    exact nodup_expand h (t.snapshots.nodup.filter _) fun n hn => (List.mem_filter.mp hn).1
  · intro x hx y hy hxy
    subst hxy
    simp only [List.mem_filter, decide_eq_true_eq, unledgered_iff, mem_expand] at hx hy
    obtain ⟨⟨s, -, n, ⟨hn, -⟩, ⟨hregion, hrealm, -⟩, rfl⟩, -⟩ := hx
    apply hy.2.2.2
    simp only [RealmSample.seen, ← hregion, ← hrealm]
    exact hn

/-! ## The expansion of a day -/

/-- The rows a day expands at an instant of its ledger are those in force. -/
theorem newestUpto_iff (hd : t.Dated) (hn : n ∈ t.snapshots.rows) :
    (s ∈ t.samples.rows ∧ s.region = n.region ∧ s.realm = n.realm ∧
      t.newestUpto n.observedAt s = true) ↔
    Samples.Newest t.samples (n.region, n.realm, s.version) n.observedAt s := by
  have hn63 := hd.snapshots n hn
  simp only [newestUpto, decide_eq_true_eq, List.all_eq_true]
  constructor
  · rintro ⟨hs, hregion, hrealm, hupto, hnewest⟩
    have hs63 := hd.samples s hs
    have hmarket : s.market = (n.region, n.realm, s.version) := by
      simp only [RealmSample.market, hregion, hrealm]
    refine ⟨hs, hmarket, (stored_le hs63 hn63).mp hupto, fun p hp hpm hpupto => ?_⟩
    have hp63 := hd.samples p hp
    exact (stored_le hp63 hs63).mp (hnewest p hp (hpm.trans hmarket.symm) ((stored_le hp63 hn63).mpr hpupto))
  · intro h
    have hs63 := hd.samples s h.mem
    have hmarket := h.market
    simp only [RealmSample.market, Prod.mk.injEq] at hmarket
    refine ⟨h.mem, hmarket.1, hmarket.2.1, (stored_le hs63 hn63).mpr h.upto, fun p hp hpm hpupto => ?_⟩
    have hp63 := hd.samples p hp
    exact (stored_le hp63 hs63).mpr (h.newest p hp (hpm.trans h.market) ((stored_le hp63 hn63).mp hpupto))

/-- A day is rolled up from what the store holds of it. -/
theorem mem_dailyExpansion (hd : t.Dated) {dayStart : Millis} :
    x ∈ t.dailyExpansion dayStart ↔
      stored dayStart ≤ stored x.observedAt ∧ stored x.observedAt < stored (dayStart + 86400000) ∧
        t.Holds x := by
  simp only [dailyExpansion, List.mem_append, List.mem_filter, List.mem_flatMap, List.mem_map,
    decide_eq_true_eq, Holds, unledgered_iff]
  constructor
  · rintro (⟨⟨n, ⟨hn, hfrom, huntil⟩, s, hs, rfl⟩, hpos⟩ | ⟨hx, hfrom, huntil, hn⟩)
    · obtain ⟨hseen, hstate⟩ := (restated_iff hn).mp ⟨s, (newestUpto_iff hd hn).mp hs, hpos, rfl⟩
      exact ⟨hfrom, huntil, .inl ⟨hseen ▸ hn, hstate⟩⟩
    · exact ⟨hfrom, huntil, .inr ⟨hx, hn⟩⟩
  · rintro ⟨hfrom, huntil, ⟨hn, hstate⟩ | ⟨hx, hn⟩⟩
    · obtain ⟨s, hs, hpos, hxs⟩ := (restated_iff hn).mpr ⟨rfl, hstate⟩
      refine .inl ⟨⟨x.seen, ⟨hn, hfrom, huntil⟩, s, (newestUpto_iff hd hn).mpr hs, hxs⟩, ?_⟩
      rw [← hxs]
      exact hpos
    · exact .inr ⟨hx, hfrom, huntil, hn⟩

theorem nodup_dailyExpansion (hd : t.Dated) {dayStart : Millis} : (t.dailyExpansion dayStart).Nodup := by
  have hstands : ∀ n ∈ t.snapshots.rows, ∀ s ∈ t.samples.rows.filter (fun s =>
      s.region = n.region ∧ s.realm = n.realm ∧ t.newestUpto n.observedAt s),
      Samples.Newest t.samples (n.region, n.realm, s.version) n.observedAt s := by
    intro n hn s hs
    simp only [List.mem_filter, decide_eq_true_eq] at hs
    exact (newestUpto_iff hd hn).mp hs
  refine List.nodup_append.mpr ⟨List.Nodup.filter _ (List.nodup_flatMap.mpr ⟨?_, ?_⟩),
    t.samples.nodup.filter _, ?_⟩
  · intro n hn
    have hn := List.mem_of_mem_filter hn
    apply List.Nodup.map_on _ (t.samples.nodup.filter _)
    intro a ha b hb heq
    simp only [RealmSample.mk.injEq] at heq
    have hversion : a.version = b.version := Prod.ext heq.1 heq.2.2.2.1
    have hb := hstands n hn b hb
    rw [← hversion] at hb
    exact hb.eq (hstands n hn a ha)
  · refine List.Pairwise.imp_of_mem ?_ (t.snapshots.nodup.filter _)
    intro n n' hn hn' hne x hx hx'
    apply hne
    obtain ⟨s, hs, rfl⟩ := List.mem_map.mp hx
    obtain ⟨s', hs', heq⟩ := List.mem_map.mp hx'
    have hmarket := (hstands n (List.mem_of_mem_filter hn) s hs).market
    have hmarket' := (hstands n' (List.mem_of_mem_filter hn') s' hs').market
    simp only [RealmSample.market, Prod.mk.injEq] at hmarket hmarket'
    simp only [RealmSample.mk.injEq] at heq
    cases n
    cases n'
    simp_all
  · intro x hx y hy hxy
    subst hxy
    simp only [List.mem_filter, decide_eq_true_eq, unledgered_iff, List.mem_flatMap,
      List.mem_map] at hx hy
    obtain ⟨⟨n, ⟨hn, -⟩, s, ⟨-, hregion, hrealm, -⟩, rfl⟩, -⟩ := hx
    apply hy.2.2.2
    simp only [RealmSample.seen, hregion, hrealm]
    exact hn

end RealmPrices

end Gavel.Storage
