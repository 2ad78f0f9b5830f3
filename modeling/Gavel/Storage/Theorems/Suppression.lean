import Gavel.Storage.Lemmas.Archive

/-!
# When change suppression is lossless

The rows a snapshot does not write are told by the ledger, so every reader returns what was submitted:
the samples of each snapshot, and the other rows as they are. It fails where a row is recorded at an
instant the ledger has already passed, since it then stands for the instants after it.
-/

namespace Gavel.Storage

open Gavel.Cluster (Millis)
open Gavel.Market

namespace RealmPrices

/-- What every caller keeps to: a realm's snapshots have increasing instants, other rows are recorded at
instants that are not in the ledger, now or later, and no instant is too late to be stored as it is. -/
def Promised (t : RealmPrices) : Call → Prop
  | .recordSnapshot _ seen =>
      ((∀ n ∈ t.snapshots.rows, n.region = seen.region → n.realm = seen.realm →
        n.observedAt < seen.observedAt) ∧ ∀ s ∈ t.samples.rows, s.seen ≠ seen) ∧ seen.observedAt < 2 ^ 63
  | .recordSamples samples => ∀ s ∈ samples, s.seen ∉ t.snapshots.rows ∧ s.observedAt < 2 ^ 63
  | .pruneLaddersBefore _ => True

/-- A row is not slid under the ledger, and no row without listings is stored at a later instant of
a realm when a snapshot of it is recorded. -/
def Clean (t : RealmPrices) : Call → Prop
  | .recordSnapshot _ seen =>
      ∀ s ∈ t.samples.rows, s.region = seen.region → s.realm = seen.realm →
        seen.observedAt < s.observedAt → 0 < s.listings
  | .recordSamples samples => ∀ s ∈ samples, t.Clear s
  | .pruneLaddersBefore _ => True

instance decidableClear (t : RealmPrices) (s : RealmSample) : Decidable (t.Clear s) :=
  inferInstanceAs (Decidable (∀ n ∈ t.snapshots.rows, n.region = s.region → n.realm = s.realm →
    s.observedAt < n.observedAt → t.samples.has s.key = true ∨
      ∃ r ∈ t.samples.rows, r.market = s.market ∧ s.observedAt < r.observedAt ∧
        r.observedAt ≤ n.observedAt))

instance decidablePromised (t : RealmPrices) : ∀ c, Decidable (t.Promised c)
  | .recordSnapshot _ seen =>
      inferInstanceAs (Decidable (((∀ n ∈ t.snapshots.rows, n.region = seen.region →
        n.realm = seen.realm → n.observedAt < seen.observedAt) ∧
          ∀ s ∈ t.samples.rows, s.seen ≠ seen) ∧ seen.observedAt < 2 ^ 63))
  | .recordSamples samples =>
      inferInstanceAs (Decidable (∀ s ∈ samples, s.seen ∉ t.snapshots.rows ∧ s.observedAt < 2 ^ 63))
  | .pruneLaddersBefore _ => .isTrue trivial

instance decidableClean (t : RealmPrices) : ∀ c, Decidable (t.Clean c)
  | .recordSnapshot _ seen =>
      inferInstanceAs (Decidable (∀ s ∈ t.samples.rows, s.region = seen.region →
        s.realm = seen.realm → seen.observedAt < s.observedAt → 0 < s.listings))
  | .recordSamples samples => inferInstanceAs (Decidable (∀ s ∈ samples, t.Clear s))
  | .pruneLaddersBefore _ => .isTrue trivial

/-- Every reader returns, within its own filter, what was submitted, each sample once. -/
structure Lossless (t : RealmPrices) (a : Archive) : Prop where
  windowInRegion : ∀ region since, (t.windowInRegion region since).Perm
    (a.submitted.filter fun s => s.region = region ∧ stored since ≤ stored s.observedAt)
  history : ∀ item region realm since, (t.history item region realm since).Perm
    (a.submitted.filter fun s =>
      (s.region = region ∧ s.item = item ∧ s.realm = realm) ∧ stored since ≤ stored s.observedAt)
  historyInRegion : ∀ item region since, (t.historyInRegion item region since).Perm
    (a.submitted.filter fun s =>
      (s.region = region ∧ s.item = item) ∧ stored since ≤ stored s.observedAt)
  dailyExpansion : ∀ dayStart, (t.dailyExpansion dayStart).Perm
    (a.submitted.filter fun s =>
      stored dayStart ≤ stored s.observedAt ∧ stored s.observedAt < stored (dayStart + 86400000))

end RealmPrices

namespace Mirrors

variable {t : RealmPrices} {a : Archive}

/-- One call keeps the store a mirror of what was submitted. -/
theorem step (h : Mirrors t a) (c : RealmPrices.Call) (hpromised : t.Promised c)
    (hclean : t.Clean c) : Mirrors (t.step c) (a.step c) := by
  cases c with
  | recordSnapshot auctions seen =>
      obtain ⟨⟨hlater, hfree⟩, hrange⟩ := hpromised
      exact h.recordSnapshot ⟨hlater, hfree, h.inRange, hrange⟩ hclean
  | recordSamples samples =>
      exact h.recordSamples (fun s hs => (hpromised s hs).1) (fun s hs => (hpromised s hs).2) hclean
  | pruneLaddersBefore before => exact h.pruneLaddersBefore before

theorem run (h : Mirrors t a) (calls : List RealmPrices.Call)
    (hpromised : Run.AllSteps RealmPrices.step RealmPrices.Promised t calls)
    (hclean : Run.AllSteps RealmPrices.step RealmPrices.Clean t calls) :
    Mirrors (Run.final RealmPrices.step t calls) (Run.final Archive.step a calls) := by
  induction calls generalizing t a with
  | nil => exact h
  | cons c calls ih => exact ih (h.step c hpromised.1 hclean.1) hpromised.2 hclean.2

/-- A reader of some markets returns what was submitted of them. -/
theorem asOf_perm {mine : RealmSample → Bool} {bounding : Seen → Bool} {region : Region}
    {since : Millis} (h : Mirrors t a) (hreads : t.Reads mine bounding region) :
    (t.asOf mine bounding region since).Perm
      (a.submitted.filter fun s => mine s ∧ stored since ≤ stored s.observedAt) := by
  refine (List.perm_ext_iff_of_nodup (RealmPrices.nodup_asOf hreads)
    (h.nodup_submitted.filter _)).mpr ?_
  intro x
  simp only [RealmPrices.mem_asOf hreads, List.mem_filter, decide_eq_true_eq, h.mem_submitted]
  constructor
  · exact fun hx => ⟨hx.2.2, hx.1, hx.2.1⟩
  · exact fun hx => ⟨hx.2.1, hx.2.2, hx.1⟩

theorem lossless (h : Mirrors t a) : t.Lossless a := by
  refine ⟨?_, ?_, ?_, ?_⟩
  · intro region since
    have hreads : t.Reads (·.region = region) (·.region = region) region := by
      refine ⟨h.inRange, by simp, ?_, ?_⟩
      · intro s r hm
        simp only [RealmSample.market, Prod.mk.injEq] at hm
        simp only [hm.1]
      · intro n _ s hs hregion _
        simpa [← hregion] using hs
    refine (List.perm_insertionSort _ _).trans ((h.asOf_perm hreads).trans (List.Perm.of_eq ?_))
    simp only [decide_eq_true_eq]
  · intro item region realm since
    have hreads : t.Reads (fun s => s.region = region ∧ s.item = item ∧ s.realm = realm)
        (fun n => n.region = region ∧ n.realm = realm) region := by
      refine ⟨h.inRange, fun s hs => (of_decide_eq_true hs).1, ?_, ?_⟩
      · intro s r hm
        simp only [RealmSample.market, RealmSample.version, Prod.mk.injEq] at hm
        simp only [hm.1, hm.2.1, hm.2.2.1]
      · intro n _ s hs hregion hrealm
        have hs := of_decide_eq_true hs
        simp [← hregion, ← hrealm, hs.1, hs.2.2]
    refine (List.perm_insertionSort _ _).trans ((h.asOf_perm hreads).trans (List.Perm.of_eq ?_))
    simp only [decide_eq_true_eq]
  · intro item region since
    have hreads : t.Reads (fun s => s.region = region ∧ s.item = item) (·.region = region)
        region := by
      refine ⟨h.inRange, fun s hs => (of_decide_eq_true hs).1, ?_, ?_⟩
      · intro s r hm
        simp only [RealmSample.market, RealmSample.version, Prod.mk.injEq] at hm
        simp only [hm.1, hm.2.2.1]
      · intro n _ s hs hregion _
        have hs := of_decide_eq_true hs
        simp [← hregion, hs.1]
    refine (List.perm_insertionSort _ _).trans ((h.asOf_perm hreads).trans (List.Perm.of_eq ?_))
    simp only [decide_eq_true_eq]
  · intro dayStart
    refine (List.perm_ext_iff_of_nodup (RealmPrices.nodup_dailyExpansion h.inRange)
      (h.nodup_submitted.filter _)).mpr ?_
    intro x
    simp only [RealmPrices.mem_dailyExpansion h.inRange, List.mem_filter, decide_eq_true_eq,
      h.mem_submitted]
    constructor
    · exact fun hx => ⟨hx.2.2, hx.1, hx.2.1⟩
    · exact fun hx => ⟨hx.2.1, hx.2.2, hx.1⟩

end Mirrors

namespace RealmPrices

/-- After every run of calls of which none slides a row under the ledger, the readers return what was
submitted. -/
theorem suppression_lossless (calls : List Call)
    (hpromised : Run.AllSteps step Promised empty calls)
    (hclean : Run.AllSteps step Clean empty calls) :
    (after calls).Lossless (Archive.after calls) :=
  (Mirrors.empty.run calls hpromised hclean).lossless

/-- One sword on sale. -/
def oneSword : Fetched := ⟨[⟨7, 100, []⟩], by decide, by decide⟩

/-- Nothing on sale. -/
def nothing : Fetched := ⟨[], by decide, by decide⟩

/-- A sample of the sword. -/
def sword (at' : Millis) : RealmSample := ⟨7, .eu, 1, [], at', 100, 100, 100, 1⟩

/-- A row recorded at an instant the ledger has passed is returned for a snapshot that had nothing. -/
theorem slid_under_the_ledger :
    let calls := [.recordSnapshot nothing ⟨.eu, 1, 10⟩, .recordSamples [sword 5]]
    Run.AllSteps step Promised empty calls ∧ ¬ (after calls).Lossless (Archive.after calls) := by
  refine ⟨by decide, fun h => ?_⟩
  have hlength := (h.windowInRegion .eu 0).length_eq
  revert hlength
  decide

/-- A sword on sale at one snapshot, seen once outside the ledger, and gone at the next snapshot. -/
theorem lossless_sword :
    ((after [.recordSnapshot oneSword ⟨.eu, 1, 10⟩, .pruneLaddersBefore 15,
      .recordSamples [sword 12], .recordSnapshot nothing ⟨.eu, 1, 20⟩]).windowInRegion .eu 0).Perm
        [sword 10, sword 12] := by
  have h := suppression_lossless [.recordSnapshot oneSword ⟨.eu, 1, 10⟩, .pruneLaddersBefore 15,
    .recordSamples [sword 12], .recordSnapshot nothing ⟨.eu, 1, 20⟩] (by decide) (by decide)
  exact h.windowInRegion .eu 0

end RealmPrices

end Gavel.Storage
