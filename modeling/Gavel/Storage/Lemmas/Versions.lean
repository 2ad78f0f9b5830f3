import Gavel.Storage.ReadModel
import Mathlib.Data.List.Induction
import Mathlib.Data.List.Nodup

/-!
# Analysis versions

Versions are numbered in the order they were opened and only the last of them can be a candidate. Each
call is inverted once, by what it makes of the versions.
-/

namespace Gavel.Storage.ReadModel

open Gavel.Cluster (Millis)
open Gavel.Market

variable {m m' : ReadModel} {c : Call} {v n : Nat} {x y : AnalysisVersion}
  {source : Option Millis × Option Millis} {now : Millis} {s : VersionState}
  {vs : List AnalysisVersion} {f : AnalysisVersion → AnalysisVersion}

/-- The state of the version with a number. -/
def stateOf (m : ReadModel) (n : Nat) : Option VersionState :=
  (m.versions.find? (·.version = n)).map AnalysisVersion.state

/-- A version that becomes the published one. -/
def promoted (source : Option Millis × Option Millis) (now : Millis) (x : AnalysisVersion) :
    AnalysisVersion :=
  { x with
    state := .published
    publishedAt := some now
    sourceFrom := source.1
    sourceUntil := source.2 }

/-- Change the versions that have a number. -/
def altered (v : Nat) (f : AnalysisVersion → AnalysisVersion) (x : AnalysisVersion) :
    AnalysisVersion := if x.version = v then f x else x

/-! ## Inversion -/

/-- What a call makes of the versions. -/
inductive Turned (m : ReadModel) : Call → List AnalysisVersion → Prop where
  | opened (algorithm : Nat) (now : Millis) : Turned m (.begin' algorithm now)
      (m.versions.map orphaned ++
        [⟨m.versions.length + 1, .staging, algorithm, now, none, none, none, 0, none⟩])
  | kept (c : Call) (ha : ∀ v note, c ≠ .abandon v note)
      (hp : ∀ v source now, c = .publish v source now → m.stateOf v ≠ some .staging)
      {f : AnalysisVersion → AnalysisVersion} (hf : ∀ x, (f x).version = x.version)
      (hs : ∀ x, (f x).state = x.state) : Turned m c (m.versions.map f)
  | published (v : Nat) (source : Option Millis × Option Millis) (now : Millis)
      (hv : m.stateOf v = some .staging) :
      Turned m (.publish v source now) (m.versions.map (altered v (promoted source now)))
  | abandoned (v : Nat) (note : Text) : Turned m (.abandon v note)
      (m.versions.map (altered v fun x => { x with state := .failed, note := some note }))

/-- A version is published exactly while it is a candidate. -/
theorem publish_ok_iff : (∃ m', m.publish v source now = .ok m') ↔ m.stateOf v = some .staging := by
  simp only [publish, stateOf]
  cases m.versions.find? (·.version = v) with
  | none => simp
  | some x =>
      by_cases hx : x.state = .staging
      · simp [hx]
      · simp [hx]

theorem publish_tables (h : m.publish v source now = .ok m') :
    m'.current = m.current.publish v ∧ m'.windows = m.windows.publish v ∧
      m'.rollups = m.rollups.publish v := by
  simp only [publish] at h
  split at h
  · cases h
  · split at h
    · cases h
    · obtain rfl := Except.ok.inj h
      exact ⟨rfl, rfl, rfl⟩

theorem turned (m : ReadModel) (c : Call) : Turned m c (m.step c).versions := by
  cases c with
  | begin' algorithm now => exact .opened algorithm now
  | stage v markets =>
      simp only [step, stage]
      split
      · have hkept := Turned.kept (m := m) (.stage v markets) (by simp) (by simp) (f := id) (by simp) (by simp)
        rwa [List.map_id] at hkept
      · have hversions : ∀ (l : List Materialised) (t : ReadModel),
            (l.foldl (stageOne v) t).versions = t.versions := by
          intro l
          induction l with
          | nil => exact fun t => rfl
          | cons row l ih => exact fun t => ih (stageOne v t row)
        have hkept := Turned.kept (m := m) (.stage v markets) (by simp) (by simp)
          (f := altered v fun x => { x with markets := x.markets + markets.length })
          (fun x => by unfold altered; split <;> rfl) (fun x => by unfold altered; split <;> rfl)
        simp only [alterVersion, hversions]
        exact hkept
  | stageRollups v rollups =>
      have hkept := Turned.kept (m := m) (.stageRollups v rollups) (by simp) (by simp) (f := id)
        (by simp) (by simp)
      rw [List.map_id] at hkept
      simp only [step, stageRollups]
      split
      · rename_i heq
        split at heq
        · cases heq
        · cases heq
          exact hkept
      · exact hkept
  | publish v source now =>
      by_cases hv : m.stateOf v = some .staging
      · have hpublished := Turned.published (m := m) v source now hv
        simp only [step, publish]
        simp only [stateOf, Option.map_eq_some_iff] at hv
        obtain ⟨x, hx, hstate⟩ := hv
        simp only [hx, hstate]
        exact hpublished
      · have hkept := Turned.kept (m := m) (.publish v source now) (by simp)
          (by rintro _ _ _ ⟨⟩; exact hv) (f := id) (by simp) (by simp)
        rw [List.map_id] at hkept
        simp only [step]
        split
        · rename_i m' heq
          exact absurd (publish_ok_iff.mp ⟨m', heq⟩) hv
        · exact hkept
  | abandon v note => exact .abandoned v note

/-! ## The order of versions -/

/-- Versions are numbered from one in their order, and all but the last have left staging. -/
structure Orderly (vs : List AnalysisVersion) : Prop where
  numbered : vs.map AnalysisVersion.version = List.range' 1 vs.length
  settled : ∀ x ∈ vs.dropLast, x.state ≠ .staging

namespace Orderly

theorem nil : Orderly [] := ⟨rfl, by simp⟩

theorem eq_of_version (h : Orderly vs) (hx : x ∈ vs) (hy : y ∈ vs) (heq : x.version = y.version) :
    x = y := by
  refine List.inj_on_of_nodup_map ?_ hx hy heq
  rw [h.numbered]
  exact List.nodup_range'

theorem find (h : Orderly vs) (hx : x ∈ vs) : vs.find? (·.version = x.version) = some x := by
  cases hfind : vs.find? (·.version = x.version) with
  | none =>
      have hnot := List.find?_eq_none.mp hfind x hx
      simp at hnot
  | some y =>
      have hy := List.mem_of_find?_eq_some hfind
      have heq := List.find?_some hfind
      rw [h.eq_of_version hy hx (by simpa using heq)]

theorem candidate (h : Orderly vs) (hx : x ∈ vs) (hs : x.state = .staging) :
    ∃ init, vs = init ++ [x] ∧ x.version = vs.length ∧ ∀ y ∈ init, y.version ≠ x.version := by
  have hne : vs ≠ [] := List.ne_nil_of_mem hx
  have hsplit := List.dropLast_append_getLast hne
  rw [← hsplit] at hx
  rcases List.mem_append.mp hx with hx | hx
  · exact absurd hs (h.settled x hx)
  · obtain rfl := List.mem_singleton.mp hx
    have hnum := h.numbered
    rw [← hsplit, List.map_append, List.length_append, List.length_singleton,
      List.range'_concat] at hnum
    obtain ⟨hinit, hlast⟩ := List.append_inj' hnum rfl
    have hlast := List.head_eq_of_cons_eq hlast
    refine ⟨vs.dropLast, hsplit.symm, ?_, ?_⟩
    · rw [hlast]
      conv_rhs => rw [← hsplit, List.length_append, List.length_singleton]
      omega
    · intro y hy heq
      have hmem : y.version ∈ vs.dropLast.map AnalysisVersion.version := List.mem_map_of_mem hy
      rw [hinit, List.mem_range'_1, heq, hlast] at hmem
      omega

/-- Versions change without their numbers, and none becomes a candidate. -/
theorem map (h : Orderly vs) (hf : ∀ x, (f x).version = x.version)
    (hs : ∀ x, (f x).state = .staging → x.state = .staging) : Orderly (vs.map f) := by
  refine ⟨?_, ?_⟩
  · rw [List.length_map, ← h.numbered, List.map_map]
    exact List.map_congr_left fun x _ => hf x
  · intro y hy hstaging
    rw [← List.map_dropLast] at hy
    obtain ⟨x, hx, rfl⟩ := List.mem_map.mp hy
    exact h.settled x hx (hs x hstaging)

end Orderly

theorem altered_version (hf : ∀ x, (f x).version = x.version) (x : AnalysisVersion) :
    (altered v f x).version = x.version := by
  unfold altered
  split
  · exact hf x
  · rfl

theorem altered_staging (hf : ∀ x, (f x).state ≠ .staging)
    (h : (altered v f x).state = .staging) : x.state = .staging := by
  unfold altered at h
  split at h
  · exact absurd h (hf x)
  · exact h

theorem orphaned_version (x : AnalysisVersion) : (orphaned x).version = x.version := by
  unfold orphaned
  split <;> rfl

theorem orphaned_state (x : AnalysisVersion) : (orphaned x).state ≠ .staging := by
  unfold orphaned
  split
  · simp
  · assumption

theorem Turned.orderly (h : Orderly m.versions) (ht : Turned m c vs) : Orderly vs := by
  cases ht with
  | opened algorithm now =>
      have hold := h.map orphaned_version fun x hx => absurd hx (orphaned_state x)
      refine ⟨?_, ?_⟩
      · have hnum := hold.numbered
        rw [List.length_map] at hnum
        rw [List.map_append, hnum, List.length_append, List.length_map, List.length_singleton,
          List.range'_concat]
        simp only [List.map_cons, List.map_nil]
        rw [Nat.one_mul, Nat.add_comm]
      · rw [List.dropLast_concat]
        intro y hy
        obtain ⟨x, -, rfl⟩ := List.mem_map.mp hy
        exact orphaned_state x
  | kept c ha hp hf hs => exact h.map hf fun x hx => (hs x).symm.trans hx
  | published v source now hv =>
      exact h.map (altered_version fun _ => rfl) fun x => altered_staging fun _ => by simp [promoted]
  | abandoned v note =>
      exact h.map (altered_version fun _ => rfl) fun x => altered_staging fun _ => by simp

theorem orderly_step (h : Orderly m.versions) (c : Call) : Orderly (m.step c).versions :=
  (turned m c).orderly h

theorem orderly_after_calls (calls : List Call) : Orderly (after calls).versions :=
  Run.invariant_final (I := fun m : ReadModel => Orderly m.versions) (fun _ c h => orderly_step h c)
    calls Orderly.nil

/-! ## The state of one version -/

theorem stateOf_some (h : m.stateOf n = some s) : ∃ x ∈ m.versions, x.version = n ∧ x.state = s := by
  obtain ⟨x, hx, hs⟩ := Option.map_eq_some_iff.mp h
  have hversion := List.find?_some hx
  exact ⟨x, List.mem_of_find?_eq_some hx, by simpa using hversion, hs⟩

theorem stateOf_mem (h : Orderly m.versions) (hx : x ∈ m.versions) :
    m.stateOf x.version = some x.state := by
  rw [stateOf, h.find hx, Option.map_some]

theorem candidate_unique (h : Orderly m.versions) (hv : m.stateOf v = some .staging)
    (hn : m.stateOf n = some .staging) : v = n := by
  obtain ⟨x, hx, rfl, hxs⟩ := stateOf_some hv
  obtain ⟨y, hy, rfl, hys⟩ := stateOf_some hn
  obtain ⟨-, -, hxv, -⟩ := h.candidate hx hxs
  obtain ⟨-, -, hyv, -⟩ := h.candidate hy hys
  rw [hxv, hyv]

theorem find_map (hf : ∀ x, (f x).version = x.version) :
    (vs.map f).find? (·.version = n) = (vs.find? (·.version = n)).map f := by
  rw [List.find?_map]
  congr 2
  funext x
  simp only [Function.comp_apply, hf x]

theorem altered_state (hx : x.version ≠ v) : (altered v f x).state = x.state := by
  rw [altered, if_neg hx]

theorem stateOf_step (hf : ∀ x, (f x).version = x.version) (hm : (m.step c).versions = m.versions.map f) :
    (m.step c).stateOf n = (m.versions.find? (·.version = n)).map fun x => (f x).state := by
  rw [stateOf, hm, find_map hf, Option.map_map]
  rfl

theorem stateOf_altered (hm : (m.step c).versions = m.versions.map (altered v f))
    (hf : ∀ x, (f x).version = x.version) (hn : n ≠ v) :
    (m.step c).stateOf n = m.stateOf n := by
  rw [stateOf_step (altered_version hf) hm, stateOf]
  cases hx : m.versions.find? (·.version = n) with
  | none => rfl
  | some x =>
      have hversion := List.find?_some hx
      simp only [decide_eq_true_eq] at hversion
      simp only [Option.map_some, altered_state (by rw [hversion]; exact hn)]

theorem stateOf_altered_self (hm : (m.step c).versions = m.versions.map (altered v f))
    (hf : ∀ x, (f x).version = x.version) :
    (m.step c).stateOf v = (m.versions.find? (·.version = v)).map fun x => (f x).state := by
  rw [stateOf_step (altered_version hf) hm]
  cases hx : m.versions.find? (·.version = v) with
  | none => rfl
  | some x =>
      have hversion := List.find?_some hx
      simp only [decide_eq_true_eq] at hversion
      simp only [Option.map_some, altered, hversion, if_true]

theorem stateOf_published (hv : m.stateOf v = some .staging) :
    (m.step (.publish v source now)).stateOf v = some .published := by
  have hversions : (m.step (.publish v source now)).versions =
      m.versions.map (altered v (promoted source now)) := by
    have ht := turned m (.publish v source now)
    generalize (m.step (.publish v source now)).versions = vs at ht ⊢
    cases ht with
    | kept c ha hp hf hs => exact absurd hv (hp v source now rfl)
    | published => rfl
  obtain ⟨x, hx, -⟩ := Option.map_eq_some_iff.mp hv
  rw [stateOf_altered_self hversions fun _ => rfl, hx]
  rfl

end Gavel.Storage.ReadModel
