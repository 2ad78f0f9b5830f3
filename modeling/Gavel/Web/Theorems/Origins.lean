import Gavel.Lib.Run
import Gavel.Web.Throttle

/-!
# Origins do not lock each other out

Every attempt is charged to the process before its origin is consulted, also one the origin's own limit
then refuses. While no attempt beyond an origin's limit is charged to the process, a refusal is the
origin's own doing or the process has admitted all it may.
-/

namespace Gavel.Web

open Gavel.Cluster (Millis)

/-- An attempt and its answer. -/
structure Attempt where
  origin : IpAddr
  at' : Millis
  admitted : Bool
  deriving DecidableEq

/-- The gate and what was asked of it so far. -/
structure Traffic where
  gate : AuthGate
  log : List Attempt

namespace Traffic

def start : Traffic := ⟨.default, []⟩

def step (s : Traffic) (a : IpAddr × Millis) : Traffic :=
  let taken := s.gate.take a.1 a.2
  ⟨taken.2, s.log ++ [⟨a.1, a.2, taken.1⟩]⟩

/-- The attempts an origin made since an instant. -/
def made (s : Traffic) (origin : IpAddr) (since : Millis) : Nat :=
  s.log.countP fun a => decide (a.origin = origin) && decide (since ≤ a.at')

/-- The attempts that were admitted since an instant. -/
def admitted (s : Traffic) (since : Millis) : Nat :=
  s.log.countP fun a => a.admitted && decide (since ≤ a.at')

/-- The origin already made all attempts of its current window. -/
def OriginSpent (s : Traffic) (origin : IpAddr) (now : Millis) : Prop :=
  ∃ w, s.gate.origins.get? origin = some w ∧ w.isOpen now = true ∧
    maxOriginAttempts ≤ s.made origin w.started

/-- All attempts of the current global window were admitted already. -/
def GlobalSpent (s : Traffic) (now : Millis) : Prop :=
  ∃ w, s.gate.global = some w ∧ w.isOpen now = true ∧ maxGlobalAttempts ≤ s.admitted w.started

/-- The attempt is refused only if its origin, or the process, has spent what it has. -/
def Fair (s : Traffic) (a : IpAddr × Millis) : Prop :=
  (s.gate.take a.1 a.2).1 = false → s.OriginSpent a.1 a.2 ∨ s.GlobalSpent a.2

/-- However many attempts one other origin made, and nobody else, the attempt is admitted. -/
def Independent (s : Traffic) (a : IpAddr × Millis) : Prop :=
  ∀ o, o ≠ a.1 → (∀ b ∈ s.log, b.origin = o) → (s.gate.take a.1 a.2).1 = true

/-- The clock does not go back. -/
def OnTime (s : Traffic) (a : IpAddr × Millis) : Prop := ∀ b ∈ s.log, b.at' ≤ a.2

/-- No attempt of an origin beyond its own limit is charged to a global window that has room. -/
def Spares (s : Traffic) (a : IpAddr × Millis) : Prop :=
  (AuthGate.takeWindow s.gate.global a.2 maxGlobalAttempts).1 = true →
    ∀ w, s.gate.origins.get? a.1 = some w → w.isOpen a.2 = true → w.attempts < maxOriginAttempts

variable {s : Traffic} {a : IpAddr × Millis} {w : AttemptWindow} {o : IpAddr} {since : Millis}

/-! ## Counting -/

theorem made_step : (s.step a).made o since =
    s.made o since + if a.1 = o ∧ since ≤ a.2 then 1 else 0 := by
  simp [made, step, List.countP_append, List.countP_singleton]

theorem admitted_step : (s.step a).admitted since =
    s.admitted since + if (s.gate.take a.1 a.2).1 = true ∧ since ≤ a.2 then 1 else 0 := by
  simp [admitted, step, List.countP_append, List.countP_singleton]

/-- Windows count what the log shows, and began with an attempt. -/
structure Counted (s : Traffic) : Prop where
  global : ∀ w, s.gate.global = some w →
    (∃ b ∈ s.log, w.started ≤ b.at') ∧ min w.attempts maxGlobalAttempts ≤ s.admitted w.started
  origins : ∀ o w, s.gate.origins.get? o = some w →
    (∃ b ∈ s.log, w.started ≤ b.at') ∧ w.attempts ≤ s.made o w.started

/-! ## One attempt -/

/-- What becomes of a window: a new one, or one more attempt in the old one. -/
theorem takeWindow_cases (cell : Option AttemptWindow) (now : Millis) (maximum : Nat) :
    AuthGate.takeWindow cell now maximum = (true, ⟨now, 1⟩) ∨
    ∃ w, cell = some w ∧ w.isOpen now = true ∧
      AuthGate.takeWindow cell now maximum =
        (decide (satAdd32 w.attempts 1 ≤ maximum), ⟨w.started, satAdd32 w.attempts 1⟩) := by
  cases cell with
  | none => exact .inl rfl
  | some w =>
      by_cases h : w.isOpen now = true
      · exact .inr ⟨w, rfl, h, by simp [AuthGate.takeWindow, h]⟩
      · exact .inl (by simp [AuthGate.takeWindow, h])

/-- The window an origin's attempt is counted in, with the attempt. -/
def charged (g : AuthGate) (o : IpAddr) (now : Millis) : AttemptWindow :=
  let window := ((g.origins.retain fun _ window => window.isOpen now).get? o).getD ⟨now, 0⟩
  { window with attempts := satAdd32 window.attempts 1 }

theorem take_refused {g : AuthGate} {now : Millis}
    (h : (AuthGate.takeWindow g.global now maxGlobalAttempts).1 = false) :
    g.take o now =
      (false, { g with global := some (AuthGate.takeWindow g.global now maxGlobalAttempts).2 }) := by
  simp [AuthGate.take, h]

theorem take_passed {g : AuthGate} {now : Millis}
    (h : (AuthGate.takeWindow g.global now maxGlobalAttempts).1 = true) :
    g.take o now = (decide ((charged g o now).attempts ≤ maxOriginAttempts),
      { g with
        global := some (AuthGate.takeWindow g.global now maxGlobalAttempts).2
        origins := (g.origins.retain fun _ window => window.isOpen now).put o (charged g o now) }) := by
  simp only [AuthGate.take, h, if_true]
  rfl

theorem charged_open {g : AuthGate} {now : Millis} (hw : g.origins.get? o = some w)
    (hopen : w.isOpen now = true) : charged g o now = ⟨w.started, satAdd32 w.attempts 1⟩ := by
  have hkept : (g.origins.retain fun _ window => window.isOpen now).get? o = some w := by
    rw [Dict.get?_retain, Option.filter_eq_some_iff]
    exact ⟨hw, hopen⟩
  simp [charged, hkept]

theorem charged_new {g : AuthGate} {now : Millis}
    (h : ∀ w, g.origins.get? o = some w → w.isOpen now = false) : charged g o now = ⟨now, 1⟩ := by
  have hkept : (g.origins.retain fun _ window => window.isOpen now).get? o = none := by
    rw [Dict.get?_retain, Option.filter_eq_none_iff]
    intro w hw
    simp [h w hw]
  simp [charged, hkept, satAdd32]

/-- The window of the origin is one that is open, or a new one. -/
theorem charged_cases (g : AuthGate) (o : IpAddr) (now : Millis) :
    (∀ w, g.origins.get? o = some w → w.isOpen now = false) ∨
      ∃ w, g.origins.get? o = some w ∧ w.isOpen now = true := by
  by_cases h : ∃ w, g.origins.get? o = some w ∧ w.isOpen now = true
  · exact .inr h
  · refine .inl fun w hw => ?_
    by_contra hopen
    exact h ⟨w, hw, by simpa using hopen⟩

/-- An attempt that is spared and not refused by the process is admitted. -/
theorem Spares.admitted (h : s.Spares a)
    (hpass : (AuthGate.takeWindow s.gate.global a.2 maxGlobalAttempts).1 = true) :
    (s.gate.take a.1 a.2).1 = true := by
  rw [take_passed hpass]
  rcases charged_cases s.gate a.1 a.2 with hnew | ⟨w, hw, hopen⟩
  · rw [charged_new hnew]
    rfl
  · have hroom := h hpass w hw hopen
    have hle : satAdd32 w.attempts 1 ≤ maxOriginAttempts := by
      unfold satAdd32
      omega
    simp [charged_open hw hopen, hle]

theorem Counted.origin_spent (h : s.Counted) (hpass : (AuthGate.takeWindow s.gate.global a.2
    maxGlobalAttempts).1 = true) (hrefused : (s.gate.take a.1 a.2).1 = false) : s.OriginSpent a.1 a.2 := by
  rw [take_passed hpass] at hrefused
  rcases charged_cases s.gate a.1 a.2 with hnew | ⟨w, hw, hopen⟩
  · rw [charged_new hnew] at hrefused
    cases hrefused
  · have hover : maxOriginAttempts < satAdd32 w.attempts 1 := by
      simpa [charged_open hw hopen] using hrefused
    refine ⟨w, hw, hopen, ?_⟩
    have hmade := (h.origins a.1 w hw).2
    unfold satAdd32 at hover
    omega

theorem Counted.global_spent (h : s.Counted) (hrefused : (AuthGate.takeWindow s.gate.global a.2
    maxGlobalAttempts).1 = false) : s.GlobalSpent a.2 := by
  rcases takeWindow_cases s.gate.global a.2 maxGlobalAttempts with hnew | ⟨w, hw, hopen, hold⟩
  · rw [hnew] at hrefused
    cases hrefused
  · have hover : maxGlobalAttempts < satAdd32 w.attempts 1 := by
      simpa [hold] using hrefused
    refine ⟨w, hw, hopen, ?_⟩
    have hadmitted := (h.global w hw).2
    unfold satAdd32 at hover
    omega

/-- Whoever is refused while the counts are right was refused fairly. -/
theorem Counted.fair (h : s.Counted) (a : IpAddr × Millis) : s.Fair a := by
  intro hrefused
  by_cases hpass : (AuthGate.takeWindow s.gate.global a.2 maxGlobalAttempts).1 = true
  · exact .inl (h.origin_spent hpass hrefused)
  · exact .inr (h.global_spent (by simpa using hpass))

theorem began_step (hbegan : ∃ b ∈ s.log, since ≤ b.at') : ∃ b ∈ (s.step a).log, since ≤ b.at' := by
  obtain ⟨b, hb, hle⟩ := hbegan
  exact ⟨b, List.mem_append_left _ hb, hle⟩

theorem began_now (s : Traffic) (a : IpAddr × Millis) : ∃ b ∈ (s.step a).log, a.2 ≤ b.at' :=
  ⟨_, List.mem_append_right _ (List.mem_singleton.mpr rfl), Nat.le_refl _⟩

theorem OnTime.since_le (h : s.OnTime a) (hbegan : ∃ b ∈ s.log, since ≤ b.at') : since ≤ a.2 := by
  obtain ⟨b, hb, hle⟩ := hbegan
  exact Nat.le_trans hle (h b hb)

theorem step_global (s : Traffic) (a : IpAddr × Millis) : (s.step a).gate.global =
    some (AuthGate.takeWindow s.gate.global a.2 maxGlobalAttempts).2 := by
  by_cases hpass : (AuthGate.takeWindow s.gate.global a.2 maxGlobalAttempts).1 = true
  · simp [step, take_passed hpass]
  · simp [step, take_refused (by simpa using hpass)]

theorem counted_global (h : s.Counted) (htime : s.OnTime a) (hspares : s.Spares a)
    (hw : (s.step a).gate.global = some w) :
    (∃ b ∈ (s.step a).log, w.started ≤ b.at') ∧
      min w.attempts maxGlobalAttempts ≤ (s.step a).admitted w.started := by
  rw [step_global] at hw
  rcases takeWindow_cases s.gate.global a.2 maxGlobalAttempts with hnew | ⟨v, hv, -, hold⟩
  · have hadmitted := hspares.admitted (by rw [hnew])
    rw [hnew] at hw
    cases hw
    refine ⟨began_now s a, ?_⟩
    rw [admitted_step, if_pos ⟨hadmitted, Nat.le_refl _⟩]
    exact Nat.le_trans (Nat.min_le_left _ _) (Nat.le_add_left 1 _)
  · obtain ⟨hbegan, hcount⟩ := h.global v hv
    have hstarted := htime.since_le hbegan
    rw [hold] at hw
    cases hw
    refine ⟨began_step hbegan, ?_⟩
    rw [admitted_step]
    by_cases hroom : satAdd32 v.attempts 1 ≤ maxGlobalAttempts
    · have hadmitted := hspares.admitted (by rw [hold]; exact decide_eq_true hroom)
      rw [if_pos ⟨hadmitted, hstarted⟩]
      simp only [satAdd32] at hroom ⊢
      omega
    · -- The window was full before, and so were the admissions.
      simp only [satAdd32, maxGlobalAttempts] at hroom hcount ⊢
      omega

theorem counted_origins (h : s.Counted) (htime : s.OnTime a)
    (hw : (s.step a).gate.origins.get? o = some w) :
    (∃ b ∈ (s.step a).log, w.started ≤ b.at') ∧ w.attempts ≤ (s.step a).made o w.started := by
  have hkept (hold : s.gate.origins.get? o = some w) :
      (∃ b ∈ (s.step a).log, w.started ≤ b.at') ∧ w.attempts ≤ (s.step a).made o w.started := by
    obtain ⟨hbegan, hcount⟩ := h.origins o w hold
    refine ⟨began_step hbegan, ?_⟩
    rw [made_step]
    omega
  by_cases hpass : (AuthGate.takeWindow s.gate.global a.2 maxGlobalAttempts).1 = true
  · simp only [step, take_passed hpass] at hw
    by_cases ho : o = a.1
    · subst o
      rw [Dict.get?_put_self] at hw
      rcases charged_cases s.gate a.1 a.2 with hnew | ⟨v, hv, hopen⟩
      · rw [charged_new hnew] at hw
        cases hw
        refine ⟨began_now s a, ?_⟩
        rw [made_step, if_pos ⟨rfl, Nat.le_refl _⟩]
        exact Nat.le_add_left 1 _
      · obtain ⟨hbegan, hcount⟩ := h.origins a.1 v hv
        rw [charged_open hv hopen] at hw
        cases hw
        refine ⟨began_step hbegan, ?_⟩
        rw [made_step, if_pos ⟨rfl, htime.since_le hbegan⟩]
        simp only [satAdd32]
        omega
    · rw [Dict.get?_put_ne ho, Dict.get?_retain, Option.filter_eq_some_iff] at hw
      exact hkept hw.1
  · simp only [step, take_refused (o := a.1) (by simpa using hpass)] at hw
    exact hkept hw

theorem step_counted (h : s.Counted) (htime : s.OnTime a) (hspares : s.Spares a) : (s.step a).Counted :=
  ⟨fun _ hw => counted_global h htime hspares hw, fun _ _ hw => counted_origins h htime hw⟩

/-! ## What one origin is admitted -/

/-- The attempts of an origin that were admitted since an instant. -/
def granted (s : Traffic) (o : IpAddr) (since : Millis) : Nat :=
  s.log.countP fun a => a.admitted && decide (a.origin = o) && decide (since ≤ a.at')

theorem granted_step : (s.step a).granted o since = s.granted o since +
    if (s.gate.take a.1 a.2).1 = true ∧ a.1 = o ∧ since ≤ a.2 then 1 else 0 := by
  simp [granted, step, List.countP_append, List.countP_singleton, and_assoc]

theorem granted_le {since' : Millis} (h : since ≤ since') : s.granted o since' ≤ s.granted o since := by
  refine List.countP_mono_left fun b _ hb => ?_
  simp only [Bool.and_eq_true, decide_eq_true_eq] at hb ⊢
  exact ⟨hb.1, Nat.le_trans h hb.2⟩

/-- The last window of an origin, open or over: what was granted in it, and that a window before it
adds its own share at most. -/
structure LastWindow (s : Traffic) (o : IpAddr) (p : Millis) : Prop where
  began : ∃ b ∈ s.log, p ≤ b.at'
  held : ∀ w, s.gate.origins.get? o = some w → w.started = p ∧ s.granted o p ≤ w.attempts
  closed : s.gate.origins.get? o = none → ∃ b ∈ s.log, p + windowMs ≤ b.at'
  share : s.granted o p ≤ maxOriginAttempts
  before : ∀ t, p < t + windowMs → s.granted o t ≤ maxOriginAttempts + s.granted o p
  after : s.granted o (p + windowMs) = 0

/-- An origin was granted nothing, or has a last window. -/
def Rationed (s : Traffic) (o : IpAddr) : Prop :=
  (s.gate.origins.get? o = none ∧ ∀ t, s.granted o t = 0) ∨ ∃ p, s.LastWindow o p

theorem sub_lt_iff (now started : Nat) {width : Nat} (h : 0 < width) :
    now - started < width ↔ now < started + width := by omega

theorem isOpen_iff {now : Millis} : w.isOpen now = true ↔ now < w.started + windowMs := by
  rw [AttemptWindow.isOpen, decide_eq_true_eq]
  exact sub_lt_iff now w.started (by decide)

theorem closed_iff {now : Millis} : w.isOpen now = false ↔ w.started + windowMs ≤ now := by
  rw [← Bool.not_eq_true, isOpen_iff, Nat.not_lt]

/-- The attempt is of another origin, or never reached it. -/
theorem LastWindow.passed_by {p : Millis} (h : s.LastWindow o p)
    (hsame : ∀ t, (s.step a).granted o t = s.granted o t)
    (hkept : (s.step a).gate.origins.get? o = s.gate.origins.get? o ∨
      (s.step a).gate.origins.get? o = (s.gate.origins.get? o).filter (·.isOpen a.2)) :
    (s.step a).LastWindow o p where
  began := began_step h.began
  held := by
    intro w hw
    have hold : s.gate.origins.get? o = some w := by
      rcases hkept with heq | heq
      · rwa [heq] at hw
      · rw [heq, Option.filter_eq_some_iff] at hw
        exact hw.1
    rw [hsame]
    exact h.held w hold
  closed := by
    intro hnone
    rcases hkept with heq | heq
    · rw [heq] at hnone
      exact began_step (h.closed hnone)
    · cases hw : s.gate.origins.get? o with
      | none => exact began_step (h.closed hw)
      | some w =>
          have hclosed : w.isOpen a.2 = false := by
            rw [heq, hw, Option.filter_eq_none_iff] at hnone
            simpa using hnone
          rw [← (h.held w hw).1]
          exact ⟨_, List.mem_append_right _ (List.mem_singleton.mpr rfl), closed_iff.mp hclosed⟩
  share := by rw [hsame]; exact h.share
  before := fun t ht => by rw [hsame, hsame]; exact h.before t ht
  after := by rw [hsame]; exact h.after

/-- An attempt adds one at most, to what is granted from an instant it is not before. -/
theorem granted_step_le (s : Traffic) (a : IpAddr × Millis) (o : IpAddr) (t : Millis) :
    (s.step a).granted o t ≤ s.granted o t + if t ≤ a.2 then 1 else 0 := by
  rw [granted_step]
  apply Nat.add_le_add_left
  by_cases ht : t ≤ a.2
  · rw [if_pos ht]
    split <;> omega
  · rw [if_neg ht, if_neg fun hall => ht hall.2.2]

/-- While no window of the origin is open, what was granted before lies in a window that is over. -/
theorem Rationed.rested (h : s.Rationed o) (htime : s.OnTime a)
    (hclosed : ∀ w, s.gate.origins.get? o = some w → w.isOpen a.2 = false) :
    s.granted o a.2 = 0 ∧ ∀ t, a.2 < t + windowMs → s.granted o t ≤ maxOriginAttempts := by
  rcases h with ⟨-, hzero⟩ | ⟨p, hp⟩
  · exact ⟨hzero _, fun t _ => by rw [hzero]; exact Nat.zero_le _⟩
  · have hover : p + windowMs ≤ a.2 := by
      cases hw : s.gate.origins.get? o with
      | none => exact htime.since_le (hp.closed hw)
      | some w =>
          rw [← (hp.held w hw).1]
          exact closed_iff.mp (hclosed w hw)
    refine ⟨Nat.le_zero.mp (hp.after ▸ granted_le hover), fun t ht => ?_⟩
    exact Nat.le_trans (granted_le (Nat.le_of_lt (Nat.lt_of_add_lt_add_right
      (Nat.lt_of_le_of_lt hover ht)))) hp.share

theorem Rationed.opened (h : s.Rationed o) (ho : a.1 = o) (htime : s.OnTime a)
    (hclosed : ∀ w, s.gate.origins.get? o = some w → w.isOpen a.2 = false)
    (hnew : (s.step a).gate.origins.get? o = some ⟨a.2, 1⟩) : (s.step a).LastWindow o a.2 := by
  have hold := h.rested htime hclosed
  have hnow : (s.step a).granted o a.2 ≤ 1 := by
    have hle := granted_step_le s a o a.2
    rw [hold.1, if_pos (Nat.le_refl _)] at hle
    exact hle
  refine ⟨began_now s a, ?_, ?_, Nat.le_trans hnow (by decide), fun t ht => ?_, ?_⟩
  · intro w hw
    rw [hnew] at hw
    cases hw
    exact ⟨rfl, hnow⟩
  · intro hnone
    rw [hnew] at hnone
    cases hnone
  · -- An attempt after the opening is the opening one; one before it is of the window before.
    have hstep := granted_step_le s a o t
    have hbefore := hold.2 t ht
    by_cases hle : t ≤ a.2
    · by_cases hin : (s.gate.take a.1 a.2).1 = true
      · have hcounted : 1 ≤ (s.step a).granted o a.2 := by
          rw [granted_step, if_pos ⟨hin, ho, Nat.le_refl _⟩]
          exact Nat.le_add_left 1 _
        rw [if_pos hle] at hstep
        omega
      · have hsame : (s.step a).granted o t = s.granted o t := by
          rw [granted_step, if_neg fun hall => hin hall.1]
          rfl
        omega
    · rw [if_neg hle] at hstep
      omega
  · have hstep := granted_step_le s a o (a.2 + windowMs)
    have hlater : ¬ a.2 + windowMs ≤ a.2 := Nat.not_le.mpr (Nat.lt_add_of_pos_right (by decide))
    have hnone := granted_le (s := s) (o := o) (Nat.le_add_right a.2 windowMs)
    rw [if_neg hlater] at hstep
    rw [hold.1] at hnone
    omega

theorem LastWindow.counted {p : Millis} (h : s.LastWindow o p) (ho : a.1 = o) (htime : s.OnTime a)
    (hw : s.gate.origins.get? o = some w) (hopen : w.isOpen a.2 = true)
    (hnew : (s.step a).gate.origins.get? o = some ⟨w.started, satAdd32 w.attempts 1⟩)
    (hanswer : (s.gate.take a.1 a.2).1 = decide (satAdd32 w.attempts 1 ≤ maxOriginAttempts)) :
    (s.step a).LastWindow o p := by
  obtain ⟨rfl, hheld⟩ := h.held w hw
  have hstarted := htime.since_le h.began
  have hlt := isOpen_iff.mp hopen
  have hshare := h.share
  have hafter := h.after
  by_cases hroom : satAdd32 w.attempts 1 ≤ maxOriginAttempts
  · have hin : (s.gate.take a.1 a.2).1 = true := by simpa [hanswer] using hroom
    have hgrant : (s.step a).granted o w.started = s.granted o w.started + 1 := by
      rw [granted_step, if_pos ⟨hin, ho, hstarted⟩]
    simp only [satAdd32, maxOriginAttempts] at hroom
    refine ⟨began_step h.began, ?_, ?_, ?_, fun t ht => ?_, ?_⟩
    · intro v hv
      rw [hnew] at hv
      cases hv
      refine ⟨rfl, ?_⟩
      simp only [hgrant, satAdd32]
      omega
    · intro hnone
      rw [hnew] at hnone
      cases hnone
    · rw [hgrant]
      simp only [maxOriginAttempts]
      omega
    · have hbefore := h.before t ht
      rw [hgrant, granted_step]
      split <;> omega
    · rw [granted_step, if_neg fun hall => Nat.not_le.mpr hlt hall.2.2]
      omega
  · have hsame (t : Millis) : (s.step a).granted o t = s.granted o t := by
      rw [granted_step, if_neg fun hall => by simp [hanswer, hroom] at hall]
      rfl
    refine ⟨began_step h.began, ?_, ?_, by rw [hsame]; exact hshare,
      fun t ht => by rw [hsame, hsame]; exact h.before t ht, by rw [hsame]; exact hafter⟩
    · intro v hv
      rw [hnew] at hv
      cases hv
      refine ⟨rfl, ?_⟩
      rw [hsame]
      simp only [satAdd32, maxOriginAttempts] at hroom hshare ⊢
      omega
    · intro hnone
      rw [hnew] at hnone
      cases hnone

theorem step_rationed (h : s.Rationed o) (htime : s.OnTime a) : (s.step a).Rationed o := by
  have hby (hsame : ∀ t, (s.step a).granted o t = s.granted o t)
      (hkept : (s.step a).gate.origins.get? o = s.gate.origins.get? o ∨
        (s.step a).gate.origins.get? o = (s.gate.origins.get? o).filter (·.isOpen a.2)) :
      (s.step a).Rationed o := by
    rcases h with ⟨hnone, hzero⟩ | ⟨p, hp⟩
    · refine .inl ⟨?_, fun t => by rw [hsame, hzero]⟩
      rcases hkept with heq | heq <;> rw [heq, hnone]
      rfl
    · exact .inr ⟨p, hp.passed_by hsame hkept⟩
  by_cases hpass : (AuthGate.takeWindow s.gate.global a.2 maxGlobalAttempts).1 = true
  · have hpassed := take_passed (o := a.1) hpass
    by_cases ho : a.1 = o
    · have hput : (s.step a).gate.origins.get? o = some (charged s.gate o a.2) := by
        simp only [step, hpassed]
        rw [ho, Dict.get?_put_self]
      rcases charged_cases s.gate o a.2 with hnew | ⟨w, hw, hopen⟩
      · rw [charged_new hnew] at hput
        exact .inr ⟨a.2, h.opened ho htime hnew hput⟩
      · rcases h with ⟨hnone, -⟩ | ⟨p, hp⟩
        · rw [hnone] at hw
          cases hw
        · have hcharged := charged_open hw hopen
          rw [hcharged] at hput
          refine .inr ⟨p, hp.counted ho htime hw hopen hput ?_⟩
          rw [hpassed, ho, hcharged]
    · refine hby (fun t => ?_) (.inr ?_)
      · rw [granted_step, if_neg fun hall => ho hall.2.1]
        rfl
      · simp only [step, hpassed]
        rw [Dict.get?_put_ne (Ne.symm ho), Dict.get?_retain]
  · have hrefused := take_refused (o := a.1) (by simpa using hpass)
    refine hby (fun t => ?_) (.inl ?_)
    · rw [granted_step, if_neg fun hall => by simp [hrefused] at hall]
      rfl
    · simp only [step, hrefused]

/-- Of the attempts of one origin a global window admits two windows' worth at most. -/
theorem Rationed.granted_le {now : Millis} (h : s.Rationed o) (hlog : ∀ b ∈ s.log, b.at' ≤ now)
    (hopen : w.isOpen now = true) : s.granted o w.started ≤ 2 * maxOriginAttempts := by
  rcases h with ⟨-, hzero⟩ | ⟨p, hp⟩
  · rw [hzero]
    exact Nat.zero_le _
  · obtain ⟨b, hb, hle⟩ := hp.began
    have hlt : p < w.started + windowMs :=
      Nat.lt_of_le_of_lt (Nat.le_trans hle (hlog b hb)) (isOpen_iff.mp hopen)
    have hshare := hp.share
    have hbefore := hp.before w.started hlt
    omega

/-- One other origin alone spends neither the process's share nor this origin's. -/
theorem Counted.independent (h : s.Counted) (hrations : ∀ o, s.Rationed o) (htime : s.OnTime a) :
    s.Independent a := by
  intro o ho hall
  by_contra hrefused
  rcases h.fair a (by simpa using hrefused) with ⟨w, -, -, hmade⟩ | ⟨w, -, hopen, hadmitted⟩
  · have hzero : s.made a.1 w.started = 0 := by
      refine List.countP_eq_zero.mpr fun b hb hcount => ?_
      simp only [Bool.and_eq_true, decide_eq_true_eq] at hcount
      exact ho ((hall b hb).symm.trans hcount.1)
    rw [hzero] at hmade
    exact absurd hmade (by decide)
  · have hsame : s.admitted w.started = s.granted o w.started := by
      refine List.countP_congr fun b hb => ?_
      simp [hall b hb]
    have hle := (hrations o).granted_le htime hopen
    rw [hsame] at hadmitted
    exact absurd (Nat.le_trans hadmitted hle) (by decide)

/-! ## Runs -/

theorem start_counted : start.Counted := by
  constructor
  · intro w hw
    cases hw
  · intro o w hw
    cases hw

theorem onTime_of_pairwise {attempts : List (IpAddr × Millis)} (s : Traffic)
    (hlog : ∀ b ∈ s.log, ∀ a ∈ attempts, b.at' ≤ a.2)
    (hclock : (attempts.map Prod.snd).Pairwise (· ≤ ·)) : Run.AllSteps step OnTime s attempts := by
  induction attempts generalizing s with
  | nil => trivial
  | cons a attempts ih =>
      obtain ⟨hfirst, hrest⟩ := List.pairwise_cons.mp hclock
      refine ⟨fun b hb => hlog b hb a List.mem_cons_self, ih (s.step a) (fun b hb c hc => ?_) hrest⟩
      rcases List.mem_append.mp hb with hb | hb
      · exact hlog b hb c (List.mem_cons_of_mem _ hc)
      · obtain rfl := List.mem_singleton.mp hb
        exact hfirst c.2 (List.mem_map_of_mem hc)

theorem start_rationed (o : IpAddr) : start.Rationed o := .inl ⟨rfl, fun _ => rfl⟩

/-- In a run of attempts on a clock that does not go back, none of which charges the process for an
origin that is over its own limit, every refusal is fair and one origin alone causes none of another's. -/
theorem no_origin_locked_out (attempts : List (IpAddr × Millis))
    (hclock : (attempts.map Prod.snd).Pairwise (· ≤ ·))
    (hspares : Run.AllSteps step Spares start attempts) :
    Run.AllSteps step (fun s a => s.Fair a ∧ s.Independent a) start attempts := by
  have htime : Run.AllSteps step OnTime start attempts :=
    onTime_of_pairwise start (fun b hb => by cases hb) hclock
  refine Run.allSteps_of_invariant (I := fun s => s.Counted ∧ ∀ o, s.Rationed o) ?_ ?_
    ⟨start_counted, start_rationed⟩ (htime.and hspares)
  · exact fun s a h hc => ⟨step_counted h.1 hc.1 hc.2, fun o => step_rationed (h.2 o) hc.1⟩
  · exact fun s a h hc => ⟨h.1.fair a, h.1.independent h.2 hc.1⟩

/-- Two origins take turns. -/
theorem turns_are_fair :
    Run.AllSteps step (fun s a => s.Fair a ∧ s.Independent a) start
      [(.v4 1, 0), (.v4 2, 5), (.v4 1, 5)] := by
  refine no_origin_locked_out _ (by decide) ⟨?_, ?_, ?_, trivial⟩
  · intro _ w hw
    cases hw
  · exact fun _ w hw => absurd hw (by decide +revert)
  · intro _
    change ∀ w ∈ (step (step start (.v4 1, 0)) (.v4 2, 5)).gate.origins.get? (.v4 1),
      w.isOpen 5 = true → w.attempts < maxOriginAttempts
    decide

/-- One origin makes a hundred attempts at once; then another makes its first. -/
def floodAttempts : List (IpAddr × Millis) := List.replicate 100 (.v4 1, 0) ++ [(.v4 2, 0)]

set_option maxRecDepth 20000 in
theorem one_origin_locks_out_another :
    ¬ Run.AllSteps step (fun s a => s.Fair a ∧ s.Independent a) start floodAttempts := by
  intro h
  have hlast := (Run.AllSteps.of_append h).1.2 (.v4 1) (by decide) (by decide)
  exact absurd hlast (by decide)

end Traffic

end Gavel.Web
