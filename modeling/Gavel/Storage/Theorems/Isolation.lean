import Gavel.Storage.Theorems.Publication

/-!
# What candidates have to do with each other

The three tables of the read model go through the same operations. What is published changes only when
a candidate is published; what a candidate publishes is what it staged, unless another version has
staged under one of its keys after it.
-/

namespace Gavel.Storage.ReadModel

open Gavel.Cluster (Millis)
open Gavel.Market
open Staging (Written Op Follows SamePublished Exact Owns)

variable {κ β : Type} [DecidableEq κ] {m m' : ReadModel} {c : Call} {v : Nat}
  {source : Option Millis × Option Millis} {now : Millis}

/-! ## One table -/

/-- What a call does to a table, given what it writes there. -/
def opOf (writes : Call → List (Written κ β)) (m : ReadModel) (c : Call) : Op κ β :=
  match c with
  | .begin' _ _ => .clear
  | .publish v _ _ => if m.stateOf v = some .staging then .publish v else .write []
  | .abandon v _ => .drop v
  | .stage v markets => .write (writes (.stage v markets))
  | .stageRollups v rollups => .write (writes (.stageRollups v rollups))

/-- One of the tables, with what each call writes to it. -/
structure View (κ β : Type) [DecidableEq κ] where
  table : ReadModel → Staging κ β
  writes : Call → List (Written κ β)
  empty : table .empty = .empty
  step : ∀ m c, table (m.step c) = (table m).run (opOf writes m c)

/-- What was written since a version was opened, after one more call. -/
def View.logged (V : View κ β) (log : List (Written κ β)) (c : Call) : List (Written κ β) :=
  match c with
  | .begin' _ _ => []
  | .publish _ _ _ | .abandon _ _ => log
  | .stage v markets => log ++ V.writes (.stage v markets)
  | .stageRollups v rollups => log ++ V.writes (.stageRollups v rollups)

/-- What was written since a version was opened last. A candidate is always that version. -/
def View.log (V : View κ β) (calls : List Call) : List (Written κ β) := calls.foldl V.logged []

theorem publish_error (hv : m.stateOf v ≠ some .staging) : m.step (.publish v source now) = m := by
  simp only [ReadModel.step]
  split
  · rename_i m' heq
    exact absurd (publish_ok_iff.mp ⟨m', heq⟩) hv
  · rfl

theorem publish_step (h : m.publish v source now = .ok m') : m.step (.publish v source now) = m' := by
  simp only [ReadModel.step, h]

/-! ## The three tables -/

/-- What a call writes to the table of markets. -/
def currentWrites : Call → List (Written Text MarketState)
  | .stage v markets => markets.map fun row => (v, row.state.key.display, row.state)
  | _ => []

/-- What a call writes to the table of windows. -/
def windowWrites : Call → List (Written (Text × Text) MarketWindow)
  | .stage v markets =>
      markets.flatMap fun row => row.windows.map fun w => (v, (w.key.display, w.window.key), w)
  | _ => []

/-- What a call writes to the table of roll-ups. -/
def rollupWrites : Call → List (Written RollupKey MarketRollup)
  | .stageRollups v rollups =>
      if rollups.any fun r => !rolledUp r.kind then [] else rollups.map fun r => (v, rollupKey r, r)
  | _ => []

theorem stage_run (v : Nat) (markets : List Materialised) (m : ReadModel) :
    (markets.foldl (stageOne v) m).current = m.current.run (.write (currentWrites (.stage v markets))) ∧
      (markets.foldl (stageOne v) m).windows =
        m.windows.run (.write (windowWrites (.stage v markets))) ∧
      (markets.foldl (stageOne v) m).rollups = m.rollups := by
  induction markets generalizing m with
  | nil => exact ⟨rfl, rfl, rfl⟩
  | cons row markets ih =>
      obtain ⟨hcurrent, hwindows, hrollups⟩ := ih (stageOne v m row)
      refine ⟨hcurrent, ?_, hrollups⟩
      rw [List.foldl_cons, hwindows]
      simp only [windowWrites, Staging.run, List.flatMap_cons, List.foldl_append, stageOne,
        List.foldl_map]

theorem step_run (m : ReadModel) (c : Call) :
    (m.step c).current = m.current.run (opOf currentWrites m c) ∧
      (m.step c).windows = m.windows.run (opOf windowWrites m c) ∧
      (m.step c).rollups = m.rollups.run (opOf rollupWrites m c) := by
  cases c with
  | begin' algorithm now => exact ⟨rfl, rfl, rfl⟩
  | stage v markets =>
      simp only [ReadModel.step, stage]
      split
      · rename_i hempty
        rw [List.isEmpty_iff.mp hempty]
        exact ⟨rfl, rfl, rfl⟩
      · exact stage_run v markets m
  | stageRollups v rollups =>
      simp only [ReadModel.step, stageRollups]
      by_cases hany : (rollups.any fun r => !rolledUp r.kind) = true
      · have hwrites : rollupWrites (.stageRollups v rollups) = [] := if_pos hany
        rw [if_pos hany]
        refine ⟨rfl, rfl, ?_⟩
        rw [opOf, hwrites]
        rfl
      · have hwrites : rollupWrites (.stageRollups v rollups) =
            rollups.map fun r => (v, rollupKey r, r) := if_neg hany
        rw [if_neg hany]
        refine ⟨rfl, rfl, ?_⟩
        rw [opOf, hwrites, Staging.run, List.foldl_map]
  | publish v source now =>
      simp only [opOf]
      split
      · rename_i hv
        obtain ⟨m', hok⟩ := (@publish_ok_iff m v source now).mpr hv
        rw [publish_step hok]
        exact publish_tables hok
      · rename_i hv
        rw [publish_error hv]
        exact ⟨rfl, rfl, rfl⟩
  | abandon v note => exact ⟨rfl, rfl, rfl⟩

def currentView : View Text MarketState := ⟨(·.current), currentWrites, rfl, fun m c => (step_run m c).1⟩

def windowView : View (Text × Text) MarketWindow :=
  ⟨(·.windows), windowWrites, rfl, fun m c => (step_run m c).2.1⟩

def rollupView : View RollupKey MarketRollup :=
  ⟨(·.rollups), rollupWrites, rfl, fun m c => (step_run m c).2.2⟩

/-! ## Along a history -/

theorem after_concat (calls : List Call) (c : Call) :
    after (calls ++ [c]) = (after calls).step c := by
  simp [after, Run.final]

/-- A version that is a candidate after a call was one before it, or is the one that was opened. -/
theorem candidate_before (h : Orderly m.versions) (hv : (m.step c).stateOf v = some .staging) :
    (∃ algorithm now, c = .begin' algorithm now) ∨ (m.stateOf v = some .staging ∧
      (∀ note, c ≠ .abandon v note) ∧ ∀ source now, c ≠ .publish v source now) := by
  obtain ⟨x, hx, rfl, hs⟩ := stateOf_some hv
  have ht := turned m c
  generalize hvs : (m.step c).versions = vs at ht hx
  cases ht with
  | opened algorithm now => exact .inl ⟨algorithm, now, rfl⟩
  | @kept c ha hp f hf hstate =>
      obtain ⟨y, hy, rfl⟩ := List.mem_map.mp hx
      rw [hstate] at hs
      have hbefore := stateOf_mem h hy
      rw [hs, ← hf y] at hbefore
      refine .inr ⟨hbefore, ha _, ?_⟩
      rintro source now rfl
      exact hp _ source now rfl hbefore
  | published n source now hn =>
      obtain ⟨y, hy, rfl⟩ := List.mem_map.mp hx
      by_cases hyn : y.version = n
      · rw [altered, if_pos hyn] at hs
        cases hs
      · rw [altered, if_neg hyn] at hs ⊢
        refine .inr ⟨by rw [stateOf_mem h hy, hs], by simp, ?_⟩
        rintro source' now' heq
        cases heq
        exact hyn rfl
  | abandoned n note =>
      obtain ⟨y, hy, rfl⟩ := List.mem_map.mp hx
      by_cases hyn : y.version = n
      · rw [altered, if_pos hyn] at hs
        cases hs
      · rw [altered, if_neg hyn] at hs ⊢
        refine .inr ⟨by rw [stateOf_mem h hy, hs], ?_, by simp⟩
        rintro note' heq
        cases heq
        exact hyn rfl

variable (V : View κ β)

theorem View.log_concat (calls : List Call) (c : Call) :
    V.log (calls ++ [c]) = V.logged (V.log calls) c := by
  simp [View.log]

/-- What a table holds of a candidate is what the candidate wrote last. -/
theorem View.follows (calls : List Call) (hv : (after calls).stateOf v = some .staging) :
    Follows (V.table (after calls)) (V.log calls) v := by
  induction calls using List.reverseRecOn with
  | nil => cases hv
  | append_singleton calls c ih =>
      rw [after_concat] at hv ⊢
      rw [V.step, View.log_concat]
      rcases candidate_before (orderly_after_calls calls) hv with ⟨algorithm, now, rfl⟩ | ⟨hbefore, ha, hp⟩
      · exact Follows.clear
      · have ih := ih hbefore
        cases c with
        | begin' algorithm now => exact Follows.clear
        | publish n source now =>
            have hn : (after calls).stateOf n ≠ some .staging := by
              intro hn
              have heq := candidate_unique (orderly_after_calls calls) hbefore hn
              exact hp source now (by rw [heq])
            simp only [opOf, if_neg hn]
            exact ih
        | abandon n note =>
            have hne : n ≠ v := by
              rintro rfl
              exact ha note rfl
            exact ih.drop hne
        | stage n markets => exact ih.write _
        | stageRollups n rollups => exact ih.write _

/-- A version that has left staging does not come back. -/
theorem settled_step (h : Orderly m.versions) (c : Call) {n : Nat} {s : VersionState}
    (hn : m.stateOf n = some s) (hs : s ≠ .staging) :
    ∃ s', (m.step c).stateOf n = some s' ∧ s' ≠ .staging := by
  obtain ⟨x, hx, rfl, rfl⟩ := stateOf_some hn
  suffices hmem : ∃ y ∈ (m.step c).versions, y.version = x.version ∧ y.state ≠ .staging by
    obtain ⟨y, hy, hversion, hstate⟩ := hmem
    exact ⟨y.state, hversion ▸ stateOf_mem (orderly_step h c) hy, hstate⟩
  have ht := turned m c
  generalize (m.step c).versions = vs at ht ⊢
  cases ht with
  | opened algorithm now =>
      exact ⟨orphaned x, List.mem_append_left _ (List.mem_map_of_mem hx), orphaned_version x,
        orphaned_state x⟩
  | @kept c ha hp f hf hstate =>
      exact ⟨f x, List.mem_map_of_mem hx, hf x, by rw [hstate]; exact hs⟩
  | published v source now hv =>
      refine ⟨altered v (promoted source now) x, List.mem_map_of_mem hx, altered_version ?_ x, ?_⟩
      · exact fun _ => rfl
      · exact fun hstaging => hs (altered_staging (fun _ => by simp [promoted]) hstaging)
  | abandoned v note =>
      refine ⟨altered v (fun x => { x with state := .failed, note := some note }) x,
        List.mem_map_of_mem hx, altered_version ?_ x, ?_⟩
      · exact fun _ => rfl
      · exact fun hstaging => hs (altered_staging (fun _ => by simp) hstaging)

/-- What is published is of versions that have left staging. -/
theorem View.published_settled (calls : List Call) {e : Entry κ β}
    (he : e ∈ (V.table (after calls)).rows) (hmark : e.mark = .published) :
    ∃ s, (after calls).stateOf e.version = some s ∧ s ≠ .staging := by
  induction calls using List.reverseRecOn generalizing e with
  | nil =>
      rw [after, Run.final, List.foldl_nil, V.empty] at he
      cases he
  | append_singleton calls c ih =>
      rw [after_concat] at he ⊢
      have hold : e ∈ (V.table (after calls)).rows →
          ∃ s, ((after calls).step c).stateOf e.version = some s ∧ s ≠ .staging := by
        intro he
        obtain ⟨s, hs, hne⟩ := ih he hmark
        exact settled_step (orderly_after_calls calls) c hs hne
      rw [V.step] at he
      by_cases hop : ∃ v, opOf V.writes (after calls) c = .publish v
      · obtain ⟨v, hop⟩ := hop
        rw [hop] at he
        obtain ⟨key, mark, version, body⟩ := e
        subst hmark
        rcases Staging.mem_publish_iff.mp he with ⟨rfl, -⟩ | ⟨he, -⟩
        · cases c with
          | publish n source now =>
              simp only [opOf] at hop
              split at hop
              · rename_i hn
                obtain rfl := Op.publish.inj hop
                exact ⟨.published, stateOf_published hn, by simp⟩
              · cases hop
          | _ => cases hop
        · exact hold he
      · have hsame := Staging.samePublished_run (t := V.table (after calls)) fun v heq => hop ⟨v, heq⟩
        exact hold ((hsame e hmark).mp he)

/-! ## Isolation -/

/-- What a call may do to candidates and to what is published, given the history before it. -/
structure Isolated (calls : List Call) (c : Call) : Prop where
  /-- Only a `publish` that succeeds changes what is published. -/
  kept : (∀ v source now m', c = .publish v source now → (after calls).publish v source now ≠ .ok m') →
    SamePublished (after calls).current ((after calls).step c).current ∧
      SamePublished (after calls).windows ((after calls).step c).windows ∧
      SamePublished (after calls).rollups ((after calls).step c).rollups
  /-- A `publish` that fails changes nothing. -/
  refused : ∀ v source now e, c = .publish v source now →
    (after calls).publish v source now = .error e → (after calls).step c = after calls
  /-- There is at most one candidate. -/
  single : ∀ v n, ((after calls).step c).stateOf v = some .staging →
    ((after calls).step c).stateOf n = some .staging → v = n
  /-- A `publish` that succeeds publishes what was staged last under its version. -/
  exact : ∀ v source now m', c = .publish v source now → (after calls).publish v source now = .ok m' →
    Exact (after calls).current m'.current (currentView.log calls) v ∧
      Exact (after calls).windows m'.windows (windowView.log calls) v ∧
      Exact (after calls).rollups m'.rollups (rollupView.log calls) v

/-- A call that publishes no candidate of whose keys another version has staged one after it. -/
def OwnsKeys (calls : List Call) (c : Call) : Prop :=
  ∀ v source now, c = .publish v source now → (after calls).stateOf v = some .staging →
    Owns (currentView.log calls) v ∧ Owns (windowView.log calls) v ∧ Owns (rollupView.log calls) v

theorem View.samePublished (hop : ∀ v, opOf V.writes m c ≠ .publish v) :
    SamePublished (V.table m) (V.table (m.step c)) := by
  rw [V.step]
  exact Staging.samePublished_run hop

theorem View.exact_iff (calls : List Call) (hv : (after calls).stateOf v = some .staging)
    (htable : V.table m' = (V.table (after calls)).publish v) :
    Exact (V.table (after calls)) (V.table m') (V.log calls) v ↔ Owns (V.log calls) v := by
  rw [htable]
  apply Staging.exact_publish_iff (V.follows calls hv)
  intro e he hmark heq
  obtain ⟨s, hs, hne⟩ := V.published_settled calls he hmark
  rw [heq, hv] at hs
  exact hne (Option.some.inj hs).symm

omit [DecidableEq κ] in
theorem opOf_ne_publish (writes : Call → List (Written κ β))
    (h : ∀ v source now m', c = .publish v source now → m.publish v source now ≠ .ok m') (v : Nat) :
    opOf writes m c ≠ .publish v := by
  intro hop
  cases c with
  | publish n source now =>
      simp only [opOf] at hop
      split at hop
      · rename_i hn
        obtain ⟨m', hok⟩ := (@publish_ok_iff m n source now).mpr hn
        exact h n source now m' rfl hok
      · cases hop
  | _ => cases hop

/-- After every history and for every call, candidates are isolated exactly when the call publishes no
candidate one of whose keys another version has staged after it. -/
theorem isolated_iff (calls : List Call) (c : Call) : Isolated calls c ↔ OwnsKeys calls c := by
  have hexact : ∀ v source now m', (after calls).publish v source now = .ok m' →
      ((Exact (after calls).current m'.current (currentView.log calls) v ∧
        Exact (after calls).windows m'.windows (windowView.log calls) v ∧
        Exact (after calls).rollups m'.rollups (rollupView.log calls) v) ↔
      (Owns (currentView.log calls) v ∧ Owns (windowView.log calls) v ∧
        Owns (rollupView.log calls) v)) := by
    intro v source now m' hok
    have hv := publish_ok_iff.mp ⟨m', hok⟩
    obtain ⟨hcurrent, hwindows, hrollups⟩ := publish_tables hok
    exact and_congr (currentView.exact_iff calls hv hcurrent)
      (and_congr (windowView.exact_iff calls hv hwindows) (rollupView.exact_iff calls hv hrollups))
  constructor
  · intro h v source now hc hv
    obtain ⟨m', hok⟩ := (@publish_ok_iff (after calls) v source now).mpr hv
    exact (hexact v source now m' hok).mp (h.exact v source now m' hc hok)
  · intro howns
    refine ⟨?_, ?_, ?_, ?_⟩
    · intro hnot
      exact ⟨currentView.samePublished (opOf_ne_publish _ hnot),
        windowView.samePublished (opOf_ne_publish _ hnot),
        rollupView.samePublished (opOf_ne_publish _ hnot)⟩
    · intro v source now e hc herror
      rw [hc]
      apply publish_error
      intro hv
      obtain ⟨m', hok⟩ := (@publish_ok_iff (after calls) v source now).mpr hv
      rw [herror] at hok
      cases hok
    · exact fun v n hv hn => candidate_unique (orderly_step (orderly_after_calls calls) c) hv hn
    · intro v source now m' hc hok
      exact (hexact v source now m' hok).mpr (howns v source now hc (publish_ok_iff.mp ⟨m', hok⟩))

/-- A superseded candidate stages a market after the candidate that superseded it. -/
def stagedLate : List Call :=
  [.begin' 2 0, .begin' 2 0, .stage 2 [flaskAt (2 * hourMs)], .stage 1 [flaskAt (2 * hourMs)]]

/-- The live candidate has lost its market to the dead one. -/
theorem superseded_takes_over : ¬ Isolated stagedLate (.publish 2 (none, none) 0) := by
  intro h
  have hok : ∃ m', (after stagedLate).publish 2 (none, none) 0 = .ok m' := ⟨_, rfl⟩
  obtain ⟨m', hok⟩ := hok
  have hreplaced := (h.exact 2 (none, none) 0 m' rfl hok).1.replaced "c:eu:7:1".toList
    (flaskAt (2 * hourMs)).state rfl 2 (flaskAt (2 * hourMs)).state
  have hmem := hreplaced.mpr ⟨rfl, rfl⟩
  obtain rfl := Except.ok.inj hok
  have hnone : (after (stagedLate ++ [.publish 2 (none, none) 0])).current.rows.all
      (·.mark = .staging) = true := by decide
  cases of_decide_eq_true (List.all_eq_true.mp hnone _ hmem)

end Gavel.Storage.ReadModel
