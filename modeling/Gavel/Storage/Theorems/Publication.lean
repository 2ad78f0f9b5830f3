import Gavel.Server.Theorems.Partition
import Gavel.Storage.Lemmas.Versions

/-!
# When published analysis is whole

Publishing a version deletes the published rows under the keys the version has staged, one key at a
time. A window or a roll-up that had a row in an earlier version and has none in this one keeps the
earlier row; this module proves that this is all that can go wrong.
-/

namespace Gavel.Storage.ReadModel

open Gavel.Cluster (Millis)
open Gavel.Market

variable {m m' : ReadModel} {version : Nat} {source : Option Millis × Option Millis} {now : Millis}

/-- A market is among those a version has staged. -/
def StagesMarket (m : ReadModel) (version : Nat) (market : Text) : Prop :=
  m.current.holds version market = true

/-- A region's item is among the roll-ups a version has staged. -/
def StagesItem (m : ReadModel) (version : Nat) (region : Text) (item : ItemId) : Prop :=
  ∃ track realm, m.rollups.holds version (region, item, track, realm) = true

/-- After a version is published, the published windows of each market it staged, and the published
roll-ups of each region and item it staged, are exactly those it staged. -/
structure Whole (before after : ReadModel) (version : Nat) : Prop where
  windows : ∀ key, before.StagesMarket version key.1 → ∀ u body,
    (⟨key, .published, u, body⟩ : Entry _ _) ∈ after.windows.rows ↔
      u = version ∧ (⟨key, .staging, version, body⟩ : Entry _ _) ∈ before.windows.rows
  rollups : ∀ key, before.StagesItem version key.1 key.2.1 → ∀ u body,
    (⟨key, .published, u, body⟩ : Entry _ _) ∈ after.rollups.rows ↔
      u = version ∧ (⟨key, .staging, version, body⟩ : Entry _ _) ∈ before.rollups.rows

/-- Nothing published for a market, or for a region and item, that a version has staged is without a
staged row of that version under its key. -/
structure Covers (m : ReadModel) (version : Nat) : Prop where
  windows : ∀ key, m.StagesMarket version key.1 → ∀ u body,
    (⟨key, .published, u, body⟩ : Entry _ _) ∈ m.windows.rows → m.windows.holds version key = true
  rollups : ∀ key, m.StagesItem version key.1 key.2.1 → ∀ u body,
    (⟨key, .published, u, body⟩ : Entry _ _) ∈ m.rollups.rows → m.rollups.holds version key = true

theorem whole_iff_covers (h : m.publish version source now = .ok m') :
    Whole m m' version ↔ m.Covers version := by
  obtain ⟨-, hwindows, hrollups⟩ := publish_tables h
  have hw := Staging.publish_exact_iff (t := m.windows) (v := version)
    fun key => m.StagesMarket version key.1
  have hr := Staging.publish_exact_iff (t := m.rollups) (v := version)
    fun key => m.StagesItem version key.1 key.2.1
  rw [← hwindows] at hw
  rw [← hrollups] at hr
  constructor
  · intro hwhole
    exact ⟨hw.mp hwhole.windows, hr.mp hwhole.rollups⟩
  · intro hcovers
    exact ⟨hw.mpr hcovers.windows, hr.mpr hcovers.rollups⟩

/-- Whatever the history, what a version publishes is whole exactly when it covers what was published
before it. -/
theorem publish_whole_iff (calls : List Call) (version : Nat)
    (source : Option Millis × Option Millis) (now : Millis) (m' : ReadModel)
    (h : (after calls).publish version source now = .ok m') :
    Whole (after calls) m' version ↔ (after calls).Covers version :=
  whole_iff_covers h

open Gavel.Server (hundred flasks)

/-- What a history of one observation is reduced to at a later instant. -/
def flaskAt (now : Millis) : Materialised :=
  commodity ⟨fun prices _ => prices.headD 0, fun _ _ => none⟩ (.ofCommodity .eu 7 1)
    [hundred 7 hourMs] Ladder.empty flasks [.days 1, .all] now

/-- A market published with two windows, and staged again when one of them has become empty. -/
def oneWindowLeft : List Call :=
  [.begin' 2 0, .stage 1 [flaskAt (2 * hourMs)], .publish 1 (none, none) 0, .begin' 2 0,
    .stage 2 [flaskAt (2 * dayMs)]]

/-- The window that has become empty keeps the figures of the earlier version. -/
theorem stale_window : ∃ m', (after oneWindowLeft).publish 2 (none, none) 0 = .ok m' ∧
    ¬ Whole (after oneWindowLeft) m' 2 := by
  refine ⟨_, rfl, ?_⟩
  rw [whole_iff_covers rfl]
  intro hcovers
  have hrows : (("c:eu:7:1".toList, "1d".toList), Mark.published, 1) ∈
      (after oneWindowLeft).windows.rows.map fun e => (e.key, e.mark, e.version) := by decide
  obtain ⟨⟨key, mark, u, body⟩, hmem, heq⟩ := List.mem_map.mp hrows
  obtain ⟨rfl, rfl, rfl⟩ : key = _ ∧ mark = _ ∧ u = _ := by simpa using heq
  have hstages : (after oneWindowLeft).StagesMarket 2 "c:eu:7:1".toList := by
    unfold StagesMarket
    decide
  have hholds := hcovers.windows _ hstages _ _ hmem
  have hnot : ¬ (after oneWindowLeft).windows.holds 2 ("c:eu:7:1".toList, "1d".toList) = true := by
    decide
  exact hnot hholds

/-- A market published with two windows, and staged again an hour later with both. -/
def bothWindows : List Call :=
  [.begin' 2 0, .stage 1 [flaskAt (2 * hourMs)], .publish 1 (none, none) 0, .begin' 2 0,
    .stage 2 [flaskAt (3 * hourMs)]]

/-- A version that has a row under every key of the one before it is whole. -/
theorem second_version_whole :
    ((after bothWindows).windows.rows.map fun e => (e.mark, e.version)) =
        [(.published, 1), (.published, 1), (.staging, 2), (.staging, 2)] ∧
      ∃ m', (after bothWindows).publish 2 (none, none) 0 = .ok m' ∧ Whole (after bothWindows) m' 2 := by
  refine ⟨by decide, _, rfl, ?_⟩
  rw [publish_whole_iff _ _ _ _ _ rfl]
  have hwindows : (after bothWindows).windows.rows.all
      (fun e => (after bothWindows).windows.holds 2 e.key) = true := by decide
  constructor
  · intro key _ u body hmem
    exact List.all_eq_true.mp hwindows _ hmem
  · intro key _ u body hmem
    cases hmem

end Gavel.Storage.ReadModel
