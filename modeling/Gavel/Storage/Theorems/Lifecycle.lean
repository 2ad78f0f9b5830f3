import Gavel.Storage.Lemmas.Versions

/-!
# The life of an analysis version

A version is opened as a candidate, then published or failed, and stays what it became. `abandon` does
not ask whether its version is a candidate: an abandoned version that was published has failed after
all, and what readers are told is published is then an older one.
-/

namespace Gavel.Storage.ReadModel

open Gavel.Cluster (Millis)
open Gavel.Market

variable {m : ReadModel} {c : Call} {v n : Nat} {x : AnalysisVersion} {vs : List AnalysisVersion}
  {f : AnalysisVersion → AnalysisVersion}

/-- How the state of a version may move. -/
inductive Advances : Option VersionState → Option VersionState → Prop where
  | same (s : Option VersionState) : Advances s s
  | opened : Advances none (some .staging)
  | published : Advances (some .staging) (some .published)
  | failed : Advances (some .staging) (some .failed)

/-- A call that moves every version as it may. -/
def Lawful (m : ReadModel) (c : Call) : Prop := ∀ n, Advances (m.stateOf n) ((m.step c).stateOf n)

/-- A call that does not abandon a published version. -/
def SparesPublished (m : ReadModel) : Call → Prop
  | .abandon v _ => m.stateOf v ≠ some .published
  | _ => True

/-- The tables, with the version of the most recent `publish` that succeeded. -/
structure Tracked where
  model : ReadModel
  last : Option Nat

namespace Tracked

def start : Tracked := ⟨empty, none⟩

def step (t : Tracked) (c : Call) : Tracked where
  model := t.model.step c
  last :=
    match c with
    | .publish v source now =>
        match t.model.publish v source now with
        | .ok _ => some v
        | .error _ => t.last
    | _ => t.last

end Tracked

/-- Over a history every version moves as it may, and `published` always names the version of the most
recent `publish` that succeeded. -/
structure Lifecycle (calls : List Call) : Prop where
  lawful : Run.AllSteps Tracked.step (fun t c => t.model.Lawful c) .start calls
  latest : ∀ t ∈ Run.visited Tracked.step .start calls,
    t.model.published.map AnalysisVersion.version = t.last

/-! ## One call -/

/-- Versions after a new one is opened: the last candidate has failed. -/
theorem advances_opened (algorithm : Nat) (now : Millis) (n : Nat) :
    Advances (m.stateOf n) ((m.step (.begin' algorithm now)).stateOf n) := by
  have hafter : (m.step (.begin' algorithm now)).versions = m.versions.map orphaned ++
      [⟨m.versions.length + 1, .staging, algorithm, now, none, none, none, 0, none⟩] := rfl
  rw [stateOf, stateOf, hafter, List.find?_append, find_map orphaned_version]
  cases hx : m.versions.find? (·.version = n) with
  | none =>
      by_cases hn : m.versions.length + 1 = n
      · simp only [Option.map_none, Option.none_or, List.find?_cons, hn, decide_true, Option.map_some]
        exact .opened
      · simp only [Option.map_none, Option.none_or, List.find?_cons, hn, decide_false, List.find?_nil]
        exact .same none
  | some x =>
      simp only [Option.map_some, Option.some_or]
      by_cases hs : x.state = .staging
      · rw [orphaned, if_pos hs, hs]
        exact .failed
      · rw [orphaned, if_neg hs]
        exact .same _

theorem lawful_iff (c : Call) : m.Lawful c ↔ m.SparesPublished c := by
  have ht := turned m c
  generalize hvs : (m.step c).versions = vs at ht
  cases ht with
  | opened algorithm now => exact iff_of_true (advances_opened algorithm now) trivial
  | @kept c ha hp f hf hs =>
      refine iff_of_true ?_ ?_
      · intro n
        rw [stateOf_step hf hvs, stateOf]
        simp only [hs]
        exact .same _
      · cases c with
        | abandon v note => exact absurd rfl (ha v note)
        | _ => trivial
  | published v source now hv =>
      refine iff_of_true ?_ trivial
      intro n
      by_cases hn : n = v
      · subst hn
        have hself := stateOf_altered_self hvs fun _ => rfl
        obtain ⟨x, hx, -⟩ := Option.map_eq_some_iff.mp hv
        rw [hx] at hself
        rw [hself, hv]
        exact .published
      · rw [stateOf_altered hvs (fun _ => rfl) hn]
        exact .same _
  | abandoned v note =>
      have hself := stateOf_altered_self hvs fun _ => rfl
      constructor
      · intro hlawful hp
        have hmove := hlawful v
        obtain ⟨x, hx, -⟩ := Option.map_eq_some_iff.mp hp
        rw [hself, hx, hp] at hmove
        cases hmove
      · intro hspares n
        by_cases hn : n = v
        · subst hn
          rw [hself, stateOf]
          simp only [SparesPublished, stateOf] at hspares
          cases hx : m.versions.find? (·.version = n) with
          | none => exact .same none
          | some x =>
              rw [hx] at hspares
              simp only [Option.map_some] at hspares ⊢
              cases hstate : x.state with
              | staging => exact .failed
              | published => exact absurd (congrArg some hstate) hspares
              | failed => exact .same _
        · rw [stateOf_altered hvs (fun _ => rfl) hn]
          exact .same _

/-! ## What is published -/

/-- The published versions, in their order. -/
def publishedVersions (vs : List AnalysisVersion) : List Nat :=
  (vs.filter (·.state = .published)).map AnalysisVersion.version

theorem published_version (m : ReadModel) :
    m.published.map AnalysisVersion.version = (publishedVersions m.versions).getLast? := by
  rw [published, publishedVersions, List.getLast?_map]

/-- Versions change without becoming published or ceasing to be. -/
theorem publishedVersions_map (hf : ∀ x, (f x).version = x.version)
    (hs : ∀ x ∈ vs, (f x).state = .published ↔ x.state = .published) :
    publishedVersions (vs.map f) = publishedVersions vs := by
  have hfilter : vs.filter ((fun x => decide (x.state = .published)) ∘ f) =
      vs.filter fun x => decide (x.state = .published) :=
    List.filter_congr fun x hx => decide_eq_decide.mpr (hs x hx)
  rw [publishedVersions, publishedVersions, List.filter_map, List.map_map, hfilter]
  exact List.map_congr_left fun x _ => hf x

theorem orphaned_published (x : AnalysisVersion) :
    (orphaned x).state = .published ↔ x.state = .published := by
  unfold orphaned
  split
  · rename_i hs
    simp [hs]
  · rfl

/-- A candidate that is published becomes the last of the published versions. -/
theorem publishedVersions_publish (h : Orderly m.versions) (hv : m.stateOf v = some .staging)
    (source : Option Millis × Option Millis) (now : Millis) :
    publishedVersions (m.versions.map (altered v (promoted source now))) =
      publishedVersions m.versions ++ [v] := by
  obtain ⟨x, hx, rfl, hs⟩ := stateOf_some hv
  obtain ⟨init, hsplit, -, hinit⟩ := h.candidate hx hs
  have hkeep : init.map (altered x.version (promoted source now)) = init := by
    conv_rhs => rw [← List.map_id init]
    apply List.map_congr_left
    intro y hy
    rw [altered, if_neg (hinit y hy)]
    rfl
  rw [hsplit, List.map_append, hkeep]
  simp [publishedVersions, altered, promoted, hs]

/-- The versions a call publishes. -/
def publishes (m : ReadModel) : Call → List Nat
  | .publish v _ _ => if m.stateOf v = some .staging then [v] else []
  | _ => []

theorem publishedVersions_step (h : Orderly m.versions) (c : Call) (hc : m.SparesPublished c) :
    publishedVersions (m.step c).versions = publishedVersions m.versions ++ m.publishes c := by
  have ht := turned m c
  generalize (m.step c).versions = vs at ht
  cases ht with
  | opened algorithm now =>
      rw [publishedVersions, List.filter_append, List.map_append]
      simp only [List.filter_cons, reduceCtorEq, decide_false, List.filter_nil]
      exact congrArg (· ++ []) (publishedVersions_map orphaned_version fun x _ => orphaned_published x)
  | kept c ha hp hf hs =>
      rw [publishedVersions_map hf fun x _ => by rw [hs]]
      cases c with
      | publish v source now =>
          rw [publishes, if_neg (hp v source now rfl), List.append_nil]
      | _ => simp only [publishes, List.append_nil]
  | published v source now hv =>
      rw [publishes, if_pos hv]
      exact publishedVersions_publish h hv source now
  | abandoned v note =>
      simp only [publishes, List.append_nil]
      refine publishedVersions_map (altered_version ?_) ?_
      · exact fun _ => rfl
      intro x hx
      unfold altered
      split
      · rename_i hversion
        have hstate := stateOf_mem h hx
        rw [hversion] at hstate
        have hnot : x.state ≠ .published := fun hp => hc (by rw [hstate, hp])
        simp [hnot]
      · rfl

/-- A call keeps `published` on the most recent success. -/
theorem Tracked.latest_step {t : Tracked} (h : Orderly t.model.versions)
    (hlast : t.model.published.map AnalysisVersion.version = t.last) (c : Call)
    (hc : t.model.SparesPublished c) :
    (t.step c).model.published.map AnalysisVersion.version = (t.step c).last := by
  rw [published_version] at hlast ⊢
  have hstep := publishedVersions_step h c hc
  change (publishedVersions (t.model.step c).versions).getLast? = _
  rw [hstep]
  cases c with
  | publish v source now =>
      simp only [Tracked.step, publishes]
      by_cases hv : t.model.stateOf v = some .staging
      · obtain ⟨m', hok⟩ := (@publish_ok_iff t.model v source now).mpr hv
        simp only [if_pos hv, hok, List.getLast?_concat]
      · rw [if_neg hv, List.append_nil, hlast]
        split
        · rename_i m' hok
          exact absurd (publish_ok_iff.mp ⟨m', hok⟩) hv
        · rfl
  | _ => simp only [publishes, List.append_nil, hlast, Tracked.step]

/-- A history keeps to the life of its versions, and `published` to the most recent success, exactly
when no published version is abandoned. -/
theorem lifecycle_iff (calls : List Call) : Lifecycle calls ↔
    Run.AllSteps Tracked.step (fun t c => t.model.SparesPublished c) .start calls := by
  have hiff : ∀ t calls, Run.AllSteps Tracked.step (fun t c => t.model.Lawful c) t calls ↔
      Run.AllSteps Tracked.step (fun t c => t.model.SparesPublished c) t calls := by
    intro t calls
    induction calls generalizing t with
    | nil => exact Iff.rfl
    | cons c calls ih => exact and_congr (lawful_iff c) (ih (t.step c))
  constructor
  · intro h
    exact (hiff _ _).mp h.lawful
  · intro h
    refine ⟨(hiff _ _).mpr h, ?_⟩
    have hinv := Run.invariant (I := fun t : Tracked => Orderly t.model.versions ∧
        t.model.published.map AnalysisVersion.version = t.last)
      (fun t c ht hc => ⟨orderly_step ht.1 c, Tracked.latest_step ht.1 ht.2 c hc⟩)
      ⟨Orderly.nil, rfl⟩ h
    exact fun t ht => (hinv t ht).2

/-- Two versions are published, then the second is abandoned. -/
def abandonedTooLate : List Call :=
  [.begin' 2 0, .publish 1 (none, none) 1, .begin' 2 2, .publish 2 (none, none) 3,
    .abandon 2 "late".toList]

/-- The version that was published last has failed, and the one before it is what is published. -/
theorem published_version_fails : ¬ Lifecycle abandonedTooLate := by
  intro h
  obtain ⟨-, -, -, -, hlawful, -⟩ := h.lawful
  have hmove : Advances (some .published) (some .failed) := hlawful 2
  cases hmove

end Gavel.Storage.ReadModel
