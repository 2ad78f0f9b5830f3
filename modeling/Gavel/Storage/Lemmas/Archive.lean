import Gavel.Storage.Lemmas.Snapshots
import Gavel.Storage.Lemmas.States

/-!
# The store against what was submitted

An archive keeps every snapshot as it was submitted and every other row as it was first recorded. The
store mirrors it: at each instant of the ledger the rows in force show what the snapshot of that
instant held, although unchanged rows were never written.
-/

namespace Gavel.Storage

open Gavel.Cluster (Millis)
open Gavel.Market

/-- Everything that was submitted. -/
structure Archive where
  snapshots : List (Seen × List RealmSample)
  raw : Samples

namespace Archive

def empty : Archive := ⟨[], .empty⟩

/-- The samples a snapshot's auctions are reduced to. -/
def samplesOf (auctions : Fetched) (seen : Seen) : List RealmSample :=
  (summariseRealm auctions.listings seen.region seen.realm seen.observedAt).1

def step (a : Archive) : RealmPrices.Call → Archive
  | .recordSnapshot auctions seen =>
      { a with snapshots := a.snapshots ++ [(seen, samplesOf auctions seen)] }
  | .recordSamples samples => { a with raw := samples.foldl Keyed.add a.raw }
  | .pruneLaddersBefore _ => a

/-- What was submitted in some calls. -/
def after (calls : List RealmPrices.Call) : Archive := Run.final step empty calls

/-- Every sample submitted, those of the snapshots first. -/
def submitted (a : Archive) : List RealmSample := a.snapshots.flatMap Prod.snd ++ a.raw.rows

end Archive

namespace RealmPrices

variable {t : RealmPrices} {s : RealmSample}

/-- A row that is not slid under the ledger: before each later instant of its realm's ledger there is
another row of its market, unless the row is stored already. -/
def Clear (t : RealmPrices) (s : RealmSample) : Prop :=
  ∀ n ∈ t.snapshots.rows, n.region = s.region → n.realm = s.realm → s.observedAt < n.observedAt →
    t.samples.has s.key = true ∨
      ∃ r ∈ t.samples.rows, r.market = s.market ∧ s.observedAt < r.observedAt ∧
        r.observedAt ≤ n.observedAt

theorem Clear.add (h : t.Clear s) (r : RealmSample) :
    Clear { t with samples := t.samples.add r } s := by
  intro n hn hregion hrealm hlt
  rcases h n hn hregion hrealm hlt with hhas | ⟨p, hp, hrest⟩
  · exact .inl (Keyed.has_add.mpr (.inl hhas))
  · exact .inr ⟨p, Keyed.mem_add_of_mem hp, hrest⟩

end RealmPrices

/-- The store shows what was submitted. -/
structure Mirrors (t : RealmPrices) (a : Archive) : Prop where
  ledger : t.snapshots.rows = a.snapshots.map Prod.fst
  dated : ∀ e ∈ a.snapshots, ∀ s ∈ e.2, s.seen = e.1 ∧ 0 < s.listings
  distinct : ∀ e ∈ a.snapshots, e.2.Pairwise fun s r => s.version ≠ r.version
  states : ∀ e ∈ a.snapshots, ∀ v,
    Samples.stateAt t.samples (e.1.market v) e.1.observedAt =
      (e.2.find? (·.version = v)).map factsOf
  raw : ∀ s, s ∈ a.raw.rows ↔ s ∈ t.samples.rows ∧ s.seen ∉ t.snapshots.rows
  /-- A stored ladder belongs to the row beside it, of which it tells the dearest listing. -/
  ladders : ∀ l ∈ t.ladders.rows, l.seen ∈ t.snapshots.rows ∧
    ∃ ladder : Ladder, ladder.units ≠ [] ∧ ladder.encode = l.steps ∧
      ∀ s ∈ t.samples.rows, s.key = l.key → ladder.dearest = some s.maxPrice
  inRange : t.Dated

namespace Mirrors

variable {t : RealmPrices} {a : Archive} {s x : RealmSample} {n : Seen} {v : Version}

theorem empty : Mirrors .empty .empty :=
  ⟨rfl, by simp [Archive.empty], by simp [Archive.empty], by simp [Archive.empty],
    by simp [Archive.empty, RealmPrices.empty, Keyed.empty],
    by simp [RealmPrices.empty, Keyed.empty],
    by simp [RealmPrices.empty, Keyed.empty], by simp [RealmPrices.empty, Keyed.empty],
    by simp [RealmPrices.empty, Keyed.empty]⟩

/-- Of the versions of a snapshot, each is found by its name. -/
theorem find_version {l : List RealmSample} (h : l.Pairwise fun s r => s.version ≠ r.version)
    (hs : s ∈ l) : l.find? (·.version = s.version) = some s := by
  induction l with
  | nil => cases hs
  | cons r l ih =>
      obtain ⟨hr, hl⟩ := List.pairwise_cons.mp h
      rcases List.mem_cons.mp hs with rfl | hs
      · simp
      · rw [List.find?_cons_of_neg (by simpa using hr s hs), ih hl hs]

theorem mem_submitted (h : Mirrors t a) : x ∈ a.submitted ↔ t.Holds x := by
  simp only [Archive.submitted, List.mem_append, List.mem_flatMap, RealmPrices.Holds, h.raw,
    h.ledger, List.mem_map]
  apply or_congr_left
  constructor
  · rintro ⟨e, he, hx⟩
    obtain ⟨hseen, -⟩ := h.dated e he x hx
    have hmarket : e.1.market x.version = x.market := by rw [← hseen]; rfl
    have htime : e.1.observedAt = x.observedAt := by rw [← hseen]; rfl
    have hstate := h.states e he x.version
    rw [hmarket, htime, find_version (h.distinct e he) hx] at hstate
    exact ⟨⟨e, he, hseen.symm⟩, hstate⟩
  · rintro ⟨⟨e, he, hseen⟩, hstate⟩
    have hmarket : e.1.market x.version = x.market := by rw [hseen]; rfl
    have htime : e.1.observedAt = x.observedAt := by rw [hseen]; rfl
    have hfound := h.states e he x.version
    rw [hmarket, htime, hstate] at hfound
    obtain ⟨s, hs, hfacts⟩ := Option.map_eq_some_iff.mp hfound.symm
    have hmem := List.mem_of_find?_eq_some hs
    have hversion : s.version = x.version := by simpa using List.find?_some hs
    have hsame : s.seen = x.seen := (h.dated e he s hmem).1.trans hseen
    simp only [RealmSample.seen, Seen.mk.injEq, RealmSample.version, Prod.mk.injEq, factsOf,
      Facts.mk.injEq] at hversion hsame hfacts
    have hsx : s = x := by
      cases s
      cases x
      simp_all
    exact ⟨e, he, hsx ▸ hmem⟩

theorem nodup_submitted (h : Mirrors t a) : a.submitted.Nodup := by
  have hledger : (a.snapshots.map Prod.fst).Nodup := h.ledger ▸ t.snapshots.nodup
  refine List.nodup_append.mpr ⟨List.nodup_flatMap.mpr ⟨?_, ?_⟩, a.raw.nodup, ?_⟩
  · exact fun e he => (h.distinct e he).imp fun hne heq => hne (by rw [heq])
  · refine List.Pairwise.imp_of_mem ?_ (List.pairwise_map.mp hledger)
    intro e e' he he' hne x hx hx'
    exact hne ((h.dated e he x hx).1.symm.trans (h.dated e' he' x hx').1)
  · intro x hx y hy hxy
    subst hxy
    obtain ⟨e, he, hx⟩ := List.mem_flatMap.mp hx
    apply ((h.raw x).mp hy).2
    rw [h.ledger, (h.dated e he x hx).1]
    exact List.mem_map_of_mem he

/-! ## Pruning -/

theorem pruneLaddersBefore (h : Mirrors t a) (before : Millis) :
    Mirrors (t.pruneLaddersBefore before).1 a :=
  ⟨h.ledger, h.dated, h.distinct, h.states, h.raw,
    fun l hl => h.ladders l (Keyed.mem_keep.mp hl).1,
    h.inRange.snapshots, h.inRange.samples, fun l hl => h.inRange.ladders l (Keyed.mem_keep.mp hl).1⟩

/-! ## Rows outside the ledger -/

theorem addRow (h : Mirrors t a) (hs : s.seen ∉ t.snapshots.rows) (hs63 : s.observedAt < 2 ^ 63)
    (hclear : t.Clear s) :
    Mirrors { t with samples := t.samples.add s } { a with raw := a.raw.add s } := by
  have hhas : a.raw.has s.key = true ↔ t.samples.has s.key = true := by
    simp only [Keyed.has_iff, h.raw]
    constructor
    · rintro ⟨r, ⟨hr, -⟩, hkey⟩
      exact ⟨r, hr, hkey⟩
    · rintro ⟨r, hr, hkey⟩
      have hseen : r.seen = s.seen := congrArg Prod.fst hkey
      exact ⟨r, ⟨hr, hseen ▸ hs⟩, hkey⟩
  refine ⟨h.ledger, h.dated, h.distinct, ?_, ?_, ?_, h.inRange.snapshots, ?_, h.inRange.ladders⟩
  · intro e he v
    rw [← h.states e he v]
    by_cases hfree : t.samples.has s.key = true
    · rw [Keyed.add_of_has hfree]
    by_cases hother : s.market ≠ e.1.market v ∨ e.1.observedAt < s.observedAt
    · exact Samples.stateAt_add_other hother
    · simp only [not_or, not_not, Nat.not_lt] at hother
      obtain ⟨hmarket, hupto⟩ := hother
      have hparts := hmarket
      simp only [RealmSample.market, Seen.market, Prod.mk.injEq] at hparts
      have hledger : e.1 ∈ t.snapshots.rows := h.ledger ▸ List.mem_map_of_mem he
      have hbefore : s.observedAt < e.1.observedAt := by
        refine Nat.lt_of_le_of_ne hupto fun heq => hs ?_
        rw [RealmSample.seen, hparts.1, hparts.2.1, heq]
        exact hledger
      -- the row is followed by another one before the instant
      rcases hclear e.1 hledger hparts.1.symm hparts.2.1.symm hbefore with hhas | ⟨r, hr, hrm, hsr, hrn⟩
      · exact absurd hhas hfree
      · exact Samples.stateAt_add_older hr (hrm.trans hmarket) hsr hrn
  · intro x
    simp only [Keyed.mem_add, h.raw, hhas]
    constructor
    · rintro (⟨hx, hnot⟩ | ⟨rfl, hfree⟩)
      · exact ⟨.inl hx, hnot⟩
      · exact ⟨.inr ⟨rfl, hfree⟩, hs⟩
    · rintro ⟨hx | ⟨rfl, hfree⟩, hnot⟩
      · exact .inl ⟨hx, hnot⟩
      · exact .inr ⟨rfl, hfree⟩
  · intro l hl
    obtain ⟨hledger, ladder, hne, hsteps, hdearest⟩ := h.ladders l hl
    refine ⟨hledger, ladder, hne, hsteps, ?_⟩
    intro x hx hkey
    rcases Keyed.mem_add.mp hx with hx | ⟨rfl, -⟩
    · exact hdearest x hx hkey
    · have hseen : x.seen = l.seen := congrArg Prod.fst hkey
      exact absurd (hseen ▸ hledger) hs
  · intro x hx
    rcases Keyed.mem_add.mp hx with hx | ⟨rfl, -⟩
    · exact h.inRange.samples x hx
    · exact hs63

theorem recordSamples {samples : List RealmSample} (h : Mirrors t a)
    (hs : ∀ s ∈ samples, s.seen ∉ t.snapshots.rows) (hs63 : ∀ s ∈ samples, s.observedAt < 2 ^ 63)
    (hclear : ∀ s ∈ samples, t.Clear s) :
    Mirrors (t.recordSamples samples).1 { a with raw := samples.foldl Keyed.add a.raw } := by
  induction samples generalizing t a with
  | nil => exact h
  | cons s samples ih =>
      have hadd := h.addRow (hs s List.mem_cons_self) (hs63 s List.mem_cons_self)
        (hclear s List.mem_cons_self)
      refine ih hadd (fun r hr => hs r (List.mem_cons_of_mem _ hr))
        (fun r hr => hs63 r (List.mem_cons_of_mem _ hr)) ?_
      exact fun r hr => (hclear r (List.mem_cons_of_mem _ hr)).add s

/-! ## Snapshots -/

section Snapshot

variable {auctions : Fetched}

/-- The samples of a snapshot say that something is listed. -/
theorem listed_pos (hs : s ∈ Archive.samplesOf auctions n) : 0 < s.listings := by
  obtain ⟨⟨l, hl, hversion⟩, hdesc⟩ := describes_of_mem hs
  have hle : (pricesFor auctions.listings s.version).length ≤ mostAuctions := by
    rw [pricesFor, List.length_map]
    exact Nat.le_trans (List.length_filter_le _ _) auctions.few
  have hpos : 0 < (pricesFor auctions.listings s.version).length := by
    rw [pricesFor, List.length_map]
    exact List.length_pos_of_mem (Groups.mem_group.mpr ⟨hl, hversion⟩)
  rw [hdesc.listings, Nat.mod_eq_of_lt (Nat.lt_of_le_of_lt hle (by decide))]
  exact hpos

/-- What recording a snapshot may rely on: its instant is later than those of the realm's ledger, no row
stands at it yet, and it is stored as it is, as are those in the tables. -/
structure Fits (t : RealmPrices) (n : Seen) : Prop where
  later : ∀ m ∈ t.snapshots.rows, m.region = n.region → m.realm = n.realm →
    m.observedAt < n.observedAt
  free : ∀ s ∈ t.samples.rows, s.seen ≠ n
  dated : t.Dated
  inRange : n.observedAt < 2 ^ 63

theorem Fits.not_mem (h : Fits t n) : n ∉ t.snapshots.rows :=
  fun hn => Nat.lt_irrefl _ (h.later n hn rfl rfl)

/-- The rows after a snapshot: those before it, its news, and the tombstones of what is gone. -/
theorem Fits.mem_samples (hf : Fits t n) {r : RealmSample} :
    r ∈ (t.step (.recordSnapshot auctions n)).samples.rows ↔
      r ∈ t.samples.rows ∨ r ∈ t.newsOf auctions.listings n ∨
        ∃ p ∈ t.goneOf auctions.listings n, 0 < p.row.listings ∧
          RealmPrices.tombstone n p.row.version = r :=
  RealmPrices.mem_samples_after hf.dated hf.free

/-- The states at earlier instants of the ledger stay. -/
theorem stateAt_old (hf : Fits t n) {m : Seen} (hm : m ∈ t.snapshots.rows) (v : Version) :
    Samples.stateAt (t.step (.recordSnapshot auctions n)).samples (m.market v) m.observedAt =
      Samples.stateAt t.samples (m.market v) m.observedAt := by
  apply Samples.stateAt_congr
  intro p hpm hupto
  rw [hf.mem_samples]
  refine or_iff_left ?_
  intro hnew
  have hseen : p.seen = n := by
    rcases hnew with hp | ⟨q, -, -, rfl⟩
    · exact RealmPrices.seen_of_mem (List.mem_of_mem_filter hp)
    · rfl
  simp only [RealmSample.market, Seen.market, Prod.mk.injEq] at hpm
  subst hseen
  have hlater := hf.later m hm hpm.1.symm hpm.2.1.symm
  exact absurd hupto (Nat.not_le_of_lt hlater)

/-- A row that stands at the instant of a snapshot is the newest up to it. -/
theorem stateAt_written (hf : Fits t n)
    (hs : s ∈ (t.step (.recordSnapshot auctions n)).samples.rows) (hseen : s.seen = n) :
    Samples.stateAt (t.step (.recordSnapshot auctions n)).samples (n.market s.version)
      n.observedAt = shown s := by
  subst hseen
  exact Samples.stateAt_of_newest ⟨hs, rfl, Nat.le_refl _, fun p _ _ hupto => hupto⟩

/-- A version of which nothing is written at a snapshot keeps the state of its last row, unless that
is of a later instant. -/
theorem stateAt_kept (hf : Fits t n) {p : Previous} (hp : p ∈ t.previousOf n.region n.realm)
    (hupto : p.row.observedAt ≤ n.observedAt)
    (hnone : ∀ s ∈ (t.step (.recordSnapshot auctions n)).samples.rows, s ∉ t.samples.rows →
      s.version ≠ p.row.version) :
    Samples.stateAt (t.step (.recordSnapshot auctions n)).samples (n.market p.row.version)
      n.observedAt = shown p.row := by
  obtain ⟨⟨hrow, hregion, hrealm, hnewest⟩, -⟩ := (RealmPrices.mem_previousOf hf.dated).mp hp
  have hmarket : p.row.market = n.market p.row.version := by
    simp only [RealmSample.market, Seen.market, hregion, hrealm]
  apply Samples.stateAt_of_newest
  refine ⟨hf.mem_samples.mpr (.inl hrow), hmarket, hupto, ?_⟩
  intro q hq hqm _
  by_cases hold : q ∈ t.samples.rows
  · exact hnewest q hold (hqm.trans hmarket.symm)
  · have hversion : q.version = p.row.version := by
      simp only [RealmSample.market, Seen.market, Prod.mk.injEq] at hqm
      exact hqm.2.2
    exact absurd hversion (hnone q hq hold)

/-- At the instant of a snapshot a version that is in it has the state of its sample, whether or not
the sample was written. -/
theorem stateAt_listed (h : Mirrors t a) (hf : Fits t n) (hs : s ∈ Archive.samplesOf auctions n) :
    Samples.stateAt (t.step (.recordSnapshot auctions n)).samples (n.market s.version)
      n.observedAt = some (factsOf s) := by
  have hpos := listed_pos hs
  by_cases hnews : s ∈ t.newsOf auctions.listings n
  · have hmem := hf.mem_samples.mpr (.inr (.inl hnews))
    rw [stateAt_written hf hmem (RealmPrices.seen_of_mem hs), shown, if_pos hpos]
  · -- the ladder stored last tells the dearest listing, which is not compared itself
    obtain ⟨p, hheld, hmin, hmedian, hlistings, hsteps⟩ :=
      RealmPrices.of_not_isNews fun hn => hnews (List.mem_filter.mpr ⟨hs, hn⟩)
    obtain ⟨hp, hversion⟩ := RealmPrices.heldOf_some hheld
    obtain ⟨⟨hrow, hregion, hrealm, -⟩, hpsteps⟩ := (RealmPrices.mem_previousOf hf.dated).mp hp
    rw [(RealmPrices.incoming_eq hs).1, hpsteps] at hsteps
    obtain ⟨l, hl, hkey, hlsteps⟩ := RealmPrices.stepsAt_some hsteps.symm
    obtain ⟨hledger, ladder, hne, hencode, hdearest⟩ := h.ladders l hl
    have hshelf := shelfFor_spec (describes_of_mem hs).2
    have hunits : ladder.units = (shelfFor auctions.listings s.version).units :=
      Ladder.encode_units (hencode.trans hlsteps) hne hshelf.1
    have hmax : p.row.maxPrice = s.maxPrice := by
      have heq : ladder.dearest = (shelfFor auctions.listings s.version).dearest := by
        rw [Ladder.dearest_eq, Ladder.dearest_eq, hunits]
      rw [hdearest p.row hrow hkey.symm, hshelf.2.1] at heq
      exact Option.some.inj heq
    have hupto : p.row.observedAt ≤ n.observedAt := by
      have hseen : l.seen = p.row.seen := congrArg Prod.fst hkey
      rw [hseen] at hledger
      exact Nat.le_of_lt (hf.later _ hledger hregion hrealm)
    have hfacts : factsOf p.row = factsOf s := by
      simp only [factsOf, hmin, hmedian, hlistings, hmax]
    rw [← hversion, stateAt_kept hf hp hupto, shown, ← hlistings, if_pos hpos, hfacts]
    intro q hq hold heq
    rw [hversion] at heq
    rcases hf.mem_samples.mp hq with hq | hq | ⟨r, hr, -, rfl⟩
    · exact hold hq
    · have hqs := List.mem_of_mem_filter hq
      have hsame : q = s := by
        have hfind := find_version pairwise_samples hs
        have hfind' := find_version pairwise_samples hqs
        rw [heq] at hfind'
        exact Option.some.inj (hfind'.symm.trans hfind)
      exact hnews (hsame ▸ hq)
    · apply (RealmPrices.mem_goneOf.mp hr).2
      have heq : r.row.version = s.version := heq
      rw [heq]
      exact (describes_of_mem hs).1

/-- A version that is not in a snapshot has no state at its instant. -/
theorem stateAt_gone (hf : Fits t n)
    (hfuture : ∀ s ∈ t.samples.rows, s.region = n.region → s.realm = n.realm →
      n.observedAt < s.observedAt → 0 < s.listings)
    (hv : ¬ ∃ l ∈ auctions.listings, l.version = v) :
    Samples.stateAt (t.step (.recordSnapshot auctions n)).samples (n.market v)
      n.observedAt = none := by
  have hnews : ∀ q ∈ t.newsOf auctions.listings n, q.version ≠ v := by
    intro q hq heq
    exact hv (heq ▸ (describes_of_mem (List.mem_of_mem_filter hq)).1)
  cases hheld : RealmPrices.heldOf (t.previousOf n.region n.realm) v with
  | none =>
      have hnone : Samples.inForce (t.step (.recordSnapshot auctions n)).samples (n.market v)
          n.observedAt = none := by
        rw [Samples.inForce_none_iff]
        intro q hq hqm
        exfalso
        rcases hf.mem_samples.mp hq with hq | hq | ⟨r, hr, -, rfl⟩
        · exact RealmPrices.heldOf_none hf.dated hheld q hq hqm
        · simp only [RealmSample.market, Seen.market, Prod.mk.injEq] at hqm
          exact hnews q hq hqm.2.2
        · have hmem := (RealmPrices.mem_goneOf.mp hr).1
          have hversion : r.row.version = v := congrArg (fun m => m.2.2) hqm
          simpa [hversion] using List.find?_eq_none.mp hheld r hmem
      rw [Samples.stateAt, hnone, Option.bind_none]
  | some p =>
      obtain ⟨hp, hversion⟩ := RealmPrices.heldOf_some hheld
      obtain ⟨⟨hrow, hregion, hrealm, -⟩, -⟩ := (RealmPrices.mem_previousOf hf.dated).mp hp
      have hgone : p ∈ t.goneOf auctions.listings n :=
        RealmPrices.mem_goneOf.mpr ⟨hp, hversion.symm ▸ hv⟩
      by_cases hpos : 0 < p.row.listings
      · have hmem := hf.mem_samples.mpr (.inr (.inr ⟨p, hgone, hpos, rfl⟩))
        have hstate := stateAt_written hf hmem rfl
        rw [← hversion]
        exact hstate
      · have hupto : p.row.observedAt ≤ n.observedAt := by
          by_contra hlt
          exact hpos (hfuture p.row hrow hregion hrealm (Nat.lt_of_not_le hlt))
        rw [← hversion, stateAt_kept hf hp hupto, shown, if_neg hpos]
        intro q hq hold heq
        rcases hf.mem_samples.mp hq with hq | hq | ⟨r, hr, hrpos, rfl⟩
        · exact hold hq
        · exact hnews q hq (heq.trans hversion)
        · have hsame : r = p := RealmPrices.previousOf_eq hf.dated (RealmPrices.mem_goneOf.mp hr).1 hp heq
          exact hpos (hsame ▸ hrpos)

theorem recordSnapshot (h : Mirrors t a) (hf : Fits t n)
    (hfuture : ∀ s ∈ t.samples.rows, s.region = n.region → s.realm = n.realm →
      n.observedAt < s.observedAt → 0 < s.listings) :
    Mirrors (t.step (.recordSnapshot auctions n)) (a.step (.recordSnapshot auctions n)) := by
  have hsnapshots : (t.step (.recordSnapshot auctions n)).snapshots.rows = t.snapshots.rows ++ [n] :=
    RealmPrices.snapshots_after hf.not_mem
  have hold : ∀ e ∈ a.snapshots, e.1 ∈ t.snapshots.rows :=
    fun e he => h.ledger ▸ List.mem_map_of_mem he
  have hladders : ∀ l ∈ t.ladders.rows, l.seen ≠ n := by
    intro l hl heq
    exact hf.not_mem (heq ▸ (h.ladders l hl).1)
  refine ⟨?_, ?_, ?_, ?_, ?_, ?_, ?_, ?_, ?_⟩
  · rw [hsnapshots, h.ledger]
    simp [Archive.step]
  · intro e he s hs
    rcases List.mem_append.mp he with he | he
    · exact h.dated e he s hs
    · obtain rfl := List.mem_singleton.mp he
      exact ⟨RealmPrices.seen_of_mem hs, listed_pos hs⟩
  · intro e he
    rcases List.mem_append.mp he with he | he
    · exact h.distinct e he
    · obtain rfl := List.mem_singleton.mp he
      exact pairwise_samples
  · intro e he v
    rcases List.mem_append.mp he with he | he
    · rw [stateAt_old hf (hold e he) v]
      exact h.states e he v
    · obtain rfl := List.mem_singleton.mp he
      by_cases hv : ∃ l ∈ auctions.listings, l.version = v
      · obtain ⟨s, hs, rfl⟩ := @exists_sample _ n.region n.realm n.observedAt _ hv
        rw [stateAt_listed h hf hs]
        simp only [Archive.samplesOf, find_version pairwise_samples hs, Option.map_some]
      · rw [stateAt_gone hf hfuture hv]
        refine (Option.map_eq_none_iff.mpr (List.find?_eq_none.mpr ?_)).symm
        intro s hs hversion
        have hversion : s.version = v := by simpa using hversion
        exact hv (hversion ▸ (describes_of_mem hs).1)
  · intro x
    have hraw : x ∈ (a.step (.recordSnapshot auctions n)).raw.rows ↔
        x ∈ t.samples.rows ∧ x.seen ∉ t.snapshots.rows := h.raw x
    rw [hraw, hsnapshots, hf.mem_samples, List.mem_append,
      List.mem_singleton, not_or]
    constructor
    · rintro ⟨hx, hnot⟩
      exact ⟨.inl hx, hnot, hf.free x hx⟩
    · rintro ⟨hx | hx | ⟨p, -, -, rfl⟩, hnot, hne⟩
      · exact ⟨hx, hnot⟩
      · exact absurd (RealmPrices.seen_of_mem (List.mem_of_mem_filter hx)) hne
      · exact absurd rfl hne
  · intro l hl
    rw [hsnapshots]
    rcases (RealmPrices.mem_ladders_after hladders).mp hl with hl | ⟨s, hs, rfl⟩
    · obtain ⟨hledger, ladder, hne, hencode, hdearest⟩ := h.ladders l hl
      refine ⟨List.mem_append_left _ hledger, ladder, hne, hencode, ?_⟩
      intro x hx hkey
      have hseen : x.seen = l.seen := congrArg Prod.fst hkey
      rcases hf.mem_samples.mp hx with hx | hx | ⟨p, -, -, rfl⟩
      · exact hdearest x hx hkey
      · rw [RealmPrices.seen_of_mem (List.mem_of_mem_filter hx)] at hseen
        exact absurd hseen.symm (hladders l hl)
      · exact absurd hseen.symm (hladders l hl)
    · have hs := List.mem_of_mem_filter hs
      have hshelf := shelfFor_spec (describes_of_mem hs).2
      refine ⟨List.mem_append_right _ (List.mem_singleton_self n), _, hshelf.1, rfl, ?_⟩
      intro x hx hkey
      have hseen : x.seen = n := congrArg Prod.fst hkey
      have hversion : x.version = s.version := congrArg Prod.snd hkey
      rcases hf.mem_samples.mp hx with hx | hx | ⟨p, hp, -, rfl⟩
      · exact absurd hseen (hf.free x hx)
      · have hfind := find_version pairwise_samples hs
        have hfind' := find_version pairwise_samples (List.mem_of_mem_filter hx)
        rw [hversion, hfind] at hfind'
        rw [← Option.some.inj hfind']
        exact hshelf.2.1
      · have hversion : p.row.version = s.version := hversion
        refine absurd ?_ (RealmPrices.mem_goneOf.mp hp).2
        rw [hversion]
        exact (describes_of_mem hs).1
  · intro m hm
    rw [hsnapshots] at hm
    rcases List.mem_append.mp hm with hm | hm
    · exact hf.dated.snapshots m hm
    · exact List.mem_singleton.mp hm ▸ hf.inRange
  · intro x hx
    rcases hf.mem_samples.mp hx with hx | hx | ⟨p, -, -, rfl⟩
    · exact hf.dated.samples x hx
    · have htime : x.observedAt = n.observedAt :=
        congrArg Seen.observedAt (RealmPrices.seen_of_mem (List.mem_of_mem_filter hx))
      exact htime ▸ hf.inRange
    · exact hf.inRange
  · intro l hl
    rcases (RealmPrices.mem_ladders_after hladders).mp hl with hl | ⟨s, -, rfl⟩
    · exact hf.dated.ladders l hl
    · exact hf.inRange

end Snapshot

end Mirrors

end Gavel.Storage
