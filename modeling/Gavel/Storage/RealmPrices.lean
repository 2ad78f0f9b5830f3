import Gavel.Lib.Keyed
import Gavel.Lib.Run
import Gavel.Market.Realm
import Gavel.Storage.Instants

/-!
# The store of per-realm prices

Every snapshot of a realm leaves an instant in a ledger; rows are written only for the versions whose
state has changed since their newest row, and a version that is gone ends with a row without listings.
Readers expand the rows over the ledger again. Rows recorded at instants that are not in the ledger
are returned as they are. Instants are compared as they are stored, as signed numbers.
-/

namespace Gavel.Storage

open Gavel.Cluster (Millis)
open Gavel.Market

/-- An instant of the ledger: a realm's auction house was seen. -/
structure Seen where
  region : Region
  realm : RealmId
  observedAt : Millis
  deriving DecidableEq

end Gavel.Storage

namespace Gavel.Market.RealmSample

open Gavel.Storage (Seen stored)

def seen (s : RealmSample) : Seen := ⟨s.region, s.realm, s.observedAt⟩

/-- The primary key of a row. -/
def key (s : RealmSample) : Seen × Version := (s.seen, s.version)

/-- What a row is a state of: one version of an item on one realm. -/
def market (s : RealmSample) : Region × RealmId × Version := (s.region, s.realm, s.version)

/-- The components a region's rows are ordered by. -/
def place (s : RealmSample) : List Int :=
  (s.item : Int) :: (s.realm : Int) :: (s.variant.map fun c => (c.toNat : Int) + 1) ++ [0, stored s.observedAt]

end Gavel.Market.RealmSample

namespace Gavel.Storage

open Gavel.Cluster (Millis)
open Gavel.Market

/-- A stored ladder. -/
structure LadderRow where
  seen : Seen
  version : Version
  levels : Nat
  total : Nat
  steps : Text
  deriving DecidableEq

def LadderRow.key (l : LadderRow) : Seen × Version := (l.seen, l.version)

/-- The tables of the store. -/
structure RealmPrices where
  snapshots : Keyed Seen Seen id
  samples : Keyed RealmSample (Seen × Version) RealmSample.key
  ladders : Keyed LadderRow (Seen × Version) LadderRow.key

/-- What was stored last of a version, and the ladder beside it. -/
structure Previous where
  row : RealmSample
  steps : Option Text

namespace RealmPrices

def empty : RealmPrices := ⟨.empty, .empty, .empty⟩

/-- No instant of the tables is too late to be stored as it is. -/
structure Dated (t : RealmPrices) : Prop where
  snapshots : ∀ n ∈ t.snapshots.rows, n.observedAt < 2 ^ 63
  samples : ∀ s ∈ t.samples.rows, s.observedAt < 2 ^ 63
  ladders : ∀ l ∈ t.ladders.rows, l.seen.observedAt < 2 ^ 63

/-! ## Writing -/

/-- Whether a row is the newest of its market. -/
def newest (t : RealmPrices) (s : RealmSample) : Bool :=
  t.samples.rows.all fun p => p.market = s.market → stored p.observedAt ≤ stored s.observedAt

/-- The stored ladder beside a row. -/
def stepsAt (t : RealmPrices) (s : RealmSample) : Option Text :=
  (t.ladders.rows.find? (·.key = s.key)).map LadderRow.steps

/-- The newest row of every version on a realm. -/
def previousOf (t : RealmPrices) (region : Region) (realm : RealmId) : List Previous :=
  (t.samples.rows.filter fun s => s.region = region ∧ s.realm = realm ∧ t.newest s).map fun s =>
    ⟨s, t.stepsAt s⟩

/-- The encoded ladder that comes with a version: the last that is not empty. -/
def incomingOf (ladders : List RealmLadder) (v : Version) : Option Text :=
  ((ladders.filter fun l => (l.1, l.2.1) = v ∧ !l.2.2.isEmpty).getLast?).map fun l => l.2.2.encode

/-- The ladder that is written for a version: the first that comes with it, unless it is empty. -/
def writtenOf (ladders : List RealmLadder) (v : Version) : Option Ladder :=
  ((ladders.find? fun l => (l.1, l.2.1) = v).map fun l => l.2.2).filter fun l => !l.isEmpty

/-- Whether a sample differs from what was stored last of its version. -/
def changed (s : RealmSample) (incoming : Option Text) : Option Previous → Bool
  | none => true
  | some p =>
      s.minPrice ≠ p.row.minPrice ∨ s.medianPrice ≠ p.row.medianPrice ∨
        s.listings ≠ p.row.listings ∨ incoming ≠ p.steps

/-- Write a sample and its ladder if it has changed, and strike its version off what was stored. -/
def takeSample (seen : Seen) (ladders : List RealmLadder) (acc : RealmPrices × List Previous)
    (s : RealmSample) : RealmPrices × List Previous :=
  let (t, previous) := acc
  let incoming := incomingOf ladders s.version
  let held := previous.find? (·.row.version = s.version)
  let rest := previous.filter (·.row.version ≠ s.version)
  if changed s incoming held then
    let row : RealmSample :=
      { s with region := seen.region, realm := seen.realm, observedAt := seen.observedAt }
    let ladders :=
      match writtenOf ladders s.version with
      | some l => t.ladders.add ⟨seen, s.version, l.levels, l.total, incoming.getD []⟩
      | none => t.ladders
    ({ t with samples := t.samples.add row, ladders }, rest)
  else (t, rest)

/-- The row that ends a version: nobody lists it any more. -/
def tombstone (seen : Seen) (v : Version) : RealmSample :=
  ⟨v.1, seen.region, seen.realm, v.2, seen.observedAt, 0, 0, 0, 0⟩

/-- End a version that was listed when it was stored last. -/
def bury (seen : Seen) (t : RealmPrices) (p : Previous) : RealmPrices :=
  if 0 < p.row.listings then { t with samples := t.samples.add (tombstone seen p.row.version) } else t

/-- Record one snapshot of a realm. Returned are the rows and the ladders written. -/
def recordSnapshot (t : RealmPrices) (samples : List RealmSample) (region : Region) (realm : RealmId)
    (observedAt : Millis) (ladders : List RealmLadder) : RealmPrices × Nat × Nat :=
  let seen : Seen := ⟨region, realm, observedAt⟩
  let opened := { t with snapshots := t.snapshots.add seen }
  let (taken, left) := samples.foldl (takeSample seen ladders) (opened, t.previousOf region realm)
  let done := left.foldl (bury seen) taken
  (done, done.samples.rows.length - t.samples.rows.length,
    done.ladders.rows.length - t.ladders.rows.length)

/-- Record rows as they are. Returned is how many are new. -/
def recordSamples (t : RealmPrices) (samples : List RealmSample) : RealmPrices × Nat :=
  let done := { t with samples := samples.foldl Keyed.add t.samples }
  (done, done.samples.rows.length - t.samples.rows.length)

/-- Delete the ladders of instants before a cut-off. Returned is how many were deleted. -/
def pruneLaddersBefore (t : RealmPrices) (before : Millis) : RealmPrices × Nat :=
  let done := { t with ladders := t.ladders.keep fun l => stored before ≤ stored l.seen.observedAt }
  (done, t.ladders.rows.length - done.ladders.rows.length)

/-! ## Reading -/

/-- The instant of the next row of the same market. -/
def lead (rows : List RealmSample) (s : RealmSample) : Option Int :=
  ((rows.filter fun r => r.market = s.market ∧ stored s.observedAt < stored r.observedAt).map fun r =>
    stored r.observedAt).min?

/-- Every row at each instant at which it is the state of its market. -/
def expand (rows : List RealmSample) (ledger : List Seen) : List RealmSample :=
  rows.flatMap fun s =>
    (ledger.filter fun n =>
      n.region = s.region ∧ n.realm = s.realm ∧ stored s.observedAt ≤ stored n.observedAt ∧
        (lead rows s).all (stored n.observedAt < ·)).map fun n => { s with observedAt := n.observedAt }

/-- A row at an instant that is not in the ledger. -/
def unledgered (t : RealmPrices) (s : RealmSample) : Bool := !t.snapshots.has s.seen

/-- The rows of some markets up to the last instant of the ledger a reader looks at. -/
def changes (t : RealmPrices) (mine : RealmSample → Bool) (bounding : Seen → Bool) :
    List RealmSample :=
  match ((t.snapshots.rows.filter bounding).map fun n => stored n.observedAt).max? with
  | none => []
  | some most => t.samples.rows.filter fun s => mine s ∧ stored s.observedAt ≤ most

/-- The rows of some markets of a region since an instant: what was listed at each instant of the
ledger, and the rows at other instants. -/
def asOf (t : RealmPrices) (mine : RealmSample → Bool) (bounding : Seen → Bool) (region : Region)
    (since : Millis) : List RealmSample :=
  let ledger := t.snapshots.rows.filter fun n => n.region = region ∧ stored since ≤ stored n.observedAt
  (expand (t.changes mine bounding) ledger).filter (0 < ·.listings) ++
    t.samples.rows.filter fun s => mine s ∧ stored since ≤ stored s.observedAt ∧ t.unledgered s

/-- Every sample of a region since an instant. -/
def windowInRegion (t : RealmPrices) (region : Region) (since : Millis) : List RealmSample :=
  (t.asOf (·.region = region) (·.region = region) region since).insertionSort
    fun a b => a.place ≤ b.place

/-- An item's samples on one realm since an instant. -/
def history (t : RealmPrices) (item : ItemId) (region : Region) (realm : RealmId) (since : Millis) :
    List RealmSample :=
  (t.asOf (fun s => s.region = region ∧ s.item = item ∧ s.realm = realm)
    (fun n => n.region = region ∧ n.realm = realm) region since).insertionSort
      fun a b => stored a.observedAt ≤ stored b.observedAt

/-- An item's samples in a region since an instant. -/
def historyInRegion (t : RealmPrices) (item : ItemId) (region : Region) (since : Millis) :
    List RealmSample :=
  (t.asOf (fun s => s.region = region ∧ s.item = item) (·.region = region) region since).insertionSort
    fun a b => stored a.observedAt ≤ stored b.observedAt

/-- Whether a row is the newest of its market up to an instant. -/
def newestUpto (t : RealmPrices) (at' : Millis) (s : RealmSample) : Bool :=
  stored s.observedAt ≤ stored at' ∧
    t.samples.rows.all fun p =>
      p.market = s.market → stored p.observedAt ≤ stored at' → stored p.observedAt ≤ stored s.observedAt

/-- The samples a day is rolled up from, of every region. -/
def dailyExpansion (t : RealmPrices) (dayStart : Millis) : List RealmSample :=
  let dayEnd := dayStart + 86400000
  let ledger := t.snapshots.rows.filter fun n =>
    stored dayStart ≤ stored n.observedAt ∧ stored n.observedAt < stored dayEnd
  let expanded := ledger.flatMap fun n =>
    (t.samples.rows.filter fun s =>
      s.region = n.region ∧ s.realm = n.realm ∧ t.newestUpto n.observedAt s).map fun s =>
        { s with observedAt := n.observedAt }
  expanded.filter (0 < ·.listings) ++
    t.samples.rows.filter fun s =>
      stored dayStart ≤ stored s.observedAt ∧ stored s.observedAt < stored dayEnd ∧ t.unledgered s

/-- The newest stored ladder of every version on every realm of a region. -/
def latestLaddersInRegion (t : RealmPrices) (region : Region) :
    List ((RealmId × ItemId × Text) × Ladder) :=
  (t.ladders.rows.filter fun l =>
    l.seen.region = region ∧ t.ladders.rows.all fun p =>
      p.seen.region = l.seen.region → p.seen.realm = l.seen.realm → p.version = l.version →
        stored p.seen.observedAt ≤ stored l.seen.observedAt).map fun l =>
    ((l.seen.realm, l.version), Ladder.decode l.steps)

/-! ## Runs -/

/-- A call of the write path; a snapshot is reduced before it is recorded. -/
inductive Call where
  | recordSnapshot (auctions : Fetched) (seen : Seen)
  | recordSamples (samples : List RealmSample)
  | pruneLaddersBefore (before : Millis)

def step (t : RealmPrices) : Call → RealmPrices
  | .recordSnapshot auctions seen =>
      let (samples, ladders) :=
        summariseRealm auctions.listings seen.region seen.realm seen.observedAt
      (t.recordSnapshot samples seen.region seen.realm seen.observedAt ladders).1
  | .recordSamples samples => (t.recordSamples samples).1
  | .pruneLaddersBefore before => (t.pruneLaddersBefore before).1

/-- The tables after some calls. -/
def after (calls : List Call) : RealmPrices := Run.final step empty calls

end RealmPrices

end Gavel.Storage
