import Gavel.Lib.Windows
import Gavel.Web.Lemmas.Failures
import Gavel.Web.Theorems.Origins
import Mathlib.Data.List.Perm.Subperm

/-!
# Windows bound the rate

The process, every origin and registration each admit at most two windows' worth in any interval of a
window's length, since the windows they count in are apart. A username's failures are counted in a bucket
that is extended by each of them, so any interval holds no more than one bucket allows.
-/

namespace Gavel.Web

open Gavel.Cluster (Millis)
open Gavel.Windows (Apart)
open Traffic (isOpen_iff closed_iff)

/-!
## What a window admits over time

A window that counts attempts is watched together with the attempts it admitted, each with the instant
and the start of its window. The windows are apart, and none admits more than its maximum.
-/

/-- An attempt that was admitted: its instant, and when its window began. -/
structure Admission where
  at' : Nat
  started : Nat

/-- The instant at which a window is over. -/
def AttemptWindow.reopens (w : AttemptWindow) : Millis := w.started + windowMs

/-- What is known of a window and of the attempts admitted so far, at an instant. -/
structure Metered (cell : Option AttemptWindow) (log : List Admission) (clock maximum : Nat) : Prop where
  apart : Apart log Admission.at' Admission.started windowMs maximum
  ended : cell = none → ∀ a ∈ log, a.started + windowMs ≤ clock
  started : ∀ w, cell = some w → w.started ≤ clock
  last : ∀ w, cell = some w → ∀ a ∈ log, a.started = w.started ∨ a.started + windowMs ≤ w.started
  count : ∀ w, cell = some w → log.countP (fun a => decide (a.started = w.started)) ≤ w.attempts

section

variable {cell : Option AttemptWindow} {w : AttemptWindow} {log : List Admission} {clock now maximum : Nat}

theorem metered_none (clock maximum : Nat) : Metered none [] clock maximum where
  apart := Windows.apart_nil _ _ _ _
  ended _ _ ha := absurd ha List.not_mem_nil
  started _ hw := by cases hw
  last _ hw := by cases hw
  count _ hw := by cases hw

theorem takeWindow_open (hw : cell = some w) (hopen : w.isOpen now = true) :
    AuthGate.takeWindow cell now maximum =
      (decide (satAdd32 w.attempts 1 ≤ maximum), ⟨w.started, satAdd32 w.attempts 1⟩) := by
  simp [AuthGate.takeWindow, hw, hopen]

theorem takeWindow_over (h : ∀ w, cell = some w → w.isOpen now = false) :
    AuthGate.takeWindow cell now maximum = (true, ⟨now, 1⟩) := by
  cases cell with
  | none => rfl
  | some w => simp [AuthGate.takeWindow, h w rfl]

theorem open_or_over (cell : Option AttemptWindow) (now : Millis) :
    (∃ w, cell = some w ∧ w.isOpen now = true) ∨ ∀ w, cell = some w → w.isOpen now = false := by
  by_cases h : ∃ w, cell = some w ∧ w.isOpen now = true
  · exact .inl h
  · refine .inr fun w hw => ?_
    by_contra hopen
    exact h ⟨w, hw, by simpa using hopen⟩

/-! ## Steps -/

/-- Once no window is open, all that was admitted was admitted in windows that are over. -/
theorem Metered.all_over (h : Metered cell log clock maximum) (hclock : clock ≤ now)
    (hover : ∀ w, cell = some w → w.isOpen now = false) : ∀ a ∈ log, a.started + windowMs ≤ now := by
  intro a ha
  cases hcell : cell with
  | none => exact Nat.le_trans (h.ended hcell a ha) hclock
  | some w =>
      rcases h.last w hcell a ha with hsame | hbefore
      · rw [hsame]
        exact closed_iff.mp (hover w hcell)
      · exact Nat.le_trans (Nat.le_trans hbefore (h.started w hcell)) hclock

/-- Time passes, and a window that is over may be dropped. -/
theorem Metered.wait (h : Metered cell log clock maximum) (hclock : clock ≤ now) {cell' : Option AttemptWindow}
    (hcell : cell' = cell ∨ cell' = cell.filter (·.isOpen now)) : Metered cell' log now maximum := by
  have hold : ∀ w, cell' = some w → cell = some w := by
    intro w hw
    rcases hcell with rfl | rfl
    · exact hw
    · exact (Option.filter_eq_some_iff.mp hw).1
  refine ⟨h.apart, ?_, ?_, ?_, ?_⟩
  · intro hnone
    refine h.all_over hclock fun w hw => ?_
    rcases hcell with rfl | rfl
    · rw [hw] at hnone
      cases hnone
    · rw [hw, Option.filter_eq_none_iff] at hnone
      simpa using hnone
  · exact fun w hw => Nat.le_trans (h.started w (hold w hw)) hclock
  · exact fun w hw => h.last w (hold w hw)
  · exact fun w hw => h.count w (hold w hw)

/-- An attempt is counted in the window, or opens a new one. -/
theorem Metered.take (h : Metered cell log clock maximum) (hclock : clock ≤ now) (hpos : 0 < maximum)
    (hmaximum : maximum < 2 ^ 32 - 1) :
    Metered (some (AuthGate.takeWindow cell now maximum).2)
      (if (AuthGate.takeWindow cell now maximum).1 = true then
        log ++ [⟨now, (AuthGate.takeWindow cell now maximum).2.started⟩] else log) now maximum := by
  rcases open_or_over cell now with ⟨w, hw, hopen⟩ | hover
  · have hstarted := Nat.le_trans (h.started w hw) hclock
    have hcount := h.count w hw
    simp only [takeWindow_open hw hopen, decide_eq_true_eq]
    by_cases hroom : satAdd32 w.attempts 1 ≤ maximum
    · have hattempts : satAdd32 w.attempts 1 = w.attempts + 1 := by
        simp only [satAdd32] at hroom ⊢
        omega
      rw [if_pos hroom]
      rw [hattempts] at hroom ⊢
      refine ⟨h.apart.append ⟨hstarted, isOpen_iff.mp hopen⟩ (h.last w hw) ?_, ?_, ?_, ?_, ?_⟩
      · exact Nat.lt_of_le_of_lt hcount hroom
      · rintro ⟨⟩
      · rintro _ ⟨⟩
        exact hstarted
      · rintro _ ⟨⟩ a ha
        rcases List.mem_append.mp ha with ha | ha
        · exact h.last w hw a ha
        · rw [List.mem_singleton.mp ha]
          exact .inl rfl
      · rintro _ ⟨⟩
        rw [List.countP_append, List.countP_singleton]
        simp only [decide_true, if_true]
        exact Nat.succ_le_succ hcount
    · rw [if_neg hroom]
      refine ⟨h.apart, ?_, ?_, ?_, ?_⟩
      · rintro ⟨⟩
      · rintro _ ⟨⟩
        exact hstarted
      · rintro _ ⟨⟩
        exact h.last w hw
      · -- A count that no longer grows is beyond the maximum.
        rintro _ ⟨⟩
        have hmost := h.apart.most w.started
        simp only [satAdd32] at hroom ⊢
        omega
  · have hpast := h.all_over hclock hover
    have hfresh : log.countP (fun a => decide (a.started = now)) = 0 := by
      refine List.countP_eq_zero.mpr fun a ha heq => ?_
      have hle := hpast a ha
      rw [of_decide_eq_true heq] at hle
      exact absurd hle (Nat.not_le.mpr (Nat.lt_add_of_pos_right (by decide)))
    simp only [takeWindow_over hover, if_true]
    refine ⟨h.apart.append ⟨Nat.le_refl _, Nat.lt_add_of_pos_right (by decide)⟩
      (fun a ha => .inr (hpast a ha)) ?_, ?_, ?_, ?_, ?_⟩
    · rw [hfresh]
      exact hpos
    · rintro ⟨⟩
    · rintro _ ⟨⟩
      exact Nat.le_refl _
    · rintro _ ⟨⟩ a ha
      rcases List.mem_append.mp ha with ha | ha
      · exact .inr (hpast a ha)
      · rw [List.mem_singleton.mp ha]
        exact .inl rfl
    · rintro _ ⟨⟩
      rw [List.countP_append, hfresh, List.countP_singleton]
      simp

/-! ## Refusals -/

/-- A window that refuses an attempt answers every later one as if the attempt had not been made. -/
theorem refused_leaves (hmaximum : maximum < 2 ^ 32 - 1)
    (h : (AuthGate.takeWindow cell now maximum).1 = false) :
    ∃ w, cell = some w ∧ w.isOpen now = true ∧
      (AuthGate.takeWindow cell now maximum).2.reopens = w.reopens ∧
      ∀ later, (AuthGate.takeWindow (some (AuthGate.takeWindow cell now maximum).2) later maximum).1 =
        (AuthGate.takeWindow cell later maximum).1 := by
  rcases open_or_over cell now with ⟨w, hw, hopen⟩ | hover
  · refine ⟨w, hw, hopen, ?_⟩
    simp only [takeWindow_open hw hopen] at h ⊢
    refine ⟨rfl, fun later => ?_⟩
    have hspent : ¬ satAdd32 w.attempts 1 ≤ maximum := of_decide_eq_false h
    have hagain : ¬ satAdd32 (satAdd32 w.attempts 1) 1 ≤ maximum := by
      simp only [satAdd32] at hspent ⊢
      omega
    cases hlater : w.isOpen later with
    | true =>
        rw [takeWindow_open (w := ⟨w.started, satAdd32 w.attempts 1⟩) rfl hlater, takeWindow_open hw hlater]
        exact (decide_eq_false hagain).trans (decide_eq_false hspent).symm
    | false =>
        rw [takeWindow_over (by rintro _ ⟨⟩; exact hlater),
          takeWindow_over (by
            intro v hv
            rw [hw] at hv
            cases hv
            exact hlater)]
  · rw [takeWindow_over hover] at h
    cases h

/-- No attempt moves the end of a window that is open. -/
theorem takeWindow_reopens (hw : cell = some w) (hopen : w.isOpen now = true) :
    (AuthGate.takeWindow cell now maximum).2.reopens = w.reopens := by
  rw [takeWindow_open hw hopen]
  rfl

end

open Gavel.Windows (spans)
open LoginThrottle (key)

/-! ## The gate -/

namespace Traffic

/-- What was admitted in any interval of a window's length, both ends included, is bounded in total and
for each origin, and so is the number of origins that are remembered. -/
structure Rated (s : Traffic) : Prop where
  total : ∀ since, s.log.countP (fun a => a.admitted && spans windowMs since a.at') ≤ 2 * maxGlobalAttempts
  origin : ∀ o since, s.log.countP (fun a => a.admitted && decide (a.origin = o) &&
    spans windowMs since a.at') ≤ 2 * maxOriginAttempts
  tracked : s.gate.origins.rows.length ≤ 2 * maxGlobalAttempts

variable {s : Traffic} {a : IpAddr × Millis} {clock : Nat} {o : IpAddr}

/-- What the process let pass, each attempt with its window: all that was admitted, and every attempt that
began an origin's window. -/
structure Passed (s : Traffic) (clock : Nat) (passed : List (IpAddr × Admission)) : Prop where
  metered : Metered s.gate.global (passed.map Prod.snd) clock maxGlobalAttempts
  admitted : ∀ p : Nat → Bool, s.log.countP (fun a => a.admitted && p a.at') ≤
    passed.countP fun e => p e.2.at'
  began : ∀ o w, s.gate.origins.get? o = some w → ∃ e ∈ passed, e.1 = o ∧ e.2.at' = w.started

/-- What an origin was granted, each attempt with its window. -/
structure Granted (s : Traffic) (clock : Nat) (o : IpAddr) (granted : List Admission) : Prop where
  metered : Metered (s.gate.origins.get? o) granted clock maxOriginAttempts
  admitted : ∀ p : Nat → Bool, s.log.countP (fun a => a.admitted && decide (a.origin = o) && p a.at') ≤
    granted.countP fun e => p e.at'

structure Watched (clock : Nat) (s : Traffic) : Prop where
  process : ∃ passed, s.Passed clock passed
  origin : ∀ o, ∃ granted, s.Granted clock o granted
  tracked : s.gate.origins.rows.length ≤ 2 * maxGlobalAttempts

theorem new_watched (maxHashes : Nat) : Watched 0 ⟨.new maxHashes, []⟩ where
  process := ⟨[], metered_none _ _, fun _ => Nat.zero_le _, fun _ _ hw => by cases hw⟩
  origin := fun _ => ⟨[], metered_none _ _, fun _ => Nat.zero_le _⟩
  tracked := Nat.zero_le _

theorem Watched.rated (h : s.Watched clock) : s.Rated where
  total := by
    intro since
    obtain ⟨passed, hpassed⟩ := h.process
    have hbound := hpassed.metered.apart.countP_le since
    rw [List.countP_map] at hbound
    exact Nat.le_trans (hpassed.admitted (spans windowMs since)) hbound
  origin := by
    intro o since
    obtain ⟨granted, hgranted⟩ := h.origin o
    exact Nat.le_trans (hgranted.admitted (spans windowMs since)) (hgranted.metered.apart.countP_le since)
  tracked := h.tracked

/-! ### One attempt -/

/-- An origin's attempt is counted in a window as the process's is. -/
theorem charged_eq (g : AuthGate) (o : IpAddr) (now : Millis) :
    AuthGate.takeWindow (g.origins.get? o) now maxOriginAttempts =
      (decide ((charged g o now).attempts ≤ maxOriginAttempts), charged g o now) := by
  rcases open_or_over (g.origins.get? o) now with ⟨w, hw, hopen⟩ | hover
  · rw [takeWindow_open hw hopen, charged_open hw hopen]
  · rw [takeWindow_over hover, charged_new hover]
    rfl

theorem origins_refused (h : (AuthGate.takeWindow s.gate.global a.2 maxGlobalAttempts).1 = false) :
    (s.step a).gate.origins = s.gate.origins := by
  simp only [step, take_refused (o := a.1) h]

theorem origins_own (h : (AuthGate.takeWindow s.gate.global a.2 maxGlobalAttempts).1 = true) :
    (s.step a).gate.origins.get? a.1 =
      some (AuthGate.takeWindow (s.gate.origins.get? a.1) a.2 maxOriginAttempts).2 := by
  rw [charged_eq]
  simp only [step, take_passed h]
  exact Dict.get?_put_self

theorem origins_other (h : (AuthGate.takeWindow s.gate.global a.2 maxGlobalAttempts).1 = true)
    (ho : o ≠ a.1) :
    (s.step a).gate.origins.get? o = (s.gate.origins.get? o).filter (·.isOpen a.2) := by
  simp only [step, take_passed h]
  rw [Dict.get?_put_ne ho, Dict.get?_retain]

/-- An attempt is admitted if the process lets it pass and its origin has room. -/
theorem admitted_iff : (s.gate.take a.1 a.2).1 =
    ((AuthGate.takeWindow s.gate.global a.2 maxGlobalAttempts).1 &&
      (AuthGate.takeWindow (s.gate.origins.get? a.1) a.2 maxOriginAttempts).1) := by
  cases h : (AuthGate.takeWindow s.gate.global a.2 maxGlobalAttempts).1 with
  | false => rw [take_refused h, Bool.false_and]
  | true => rw [take_passed h, charged_eq, Bool.true_and]

theorem log_step (s : Traffic) (a : IpAddr × Millis) :
    (s.step a).log = s.log ++ [⟨a.1, a.2, (s.gate.take a.1 a.2).1⟩] := rfl

/-- The process counts an attempt, and what it lets pass is noted. -/
theorem Passed.step {passed : List (IpAddr × Admission)} (h : s.Passed clock passed) (hclock : clock ≤ a.2) :
    ∃ passed, (s.step a).Passed a.2 passed := by
  have htaken := h.metered.take hclock (by decide) (by decide)
  cases hpass : (AuthGate.takeWindow s.gate.global a.2 maxGlobalAttempts).1 with
  | false =>
      rw [hpass, if_neg Bool.false_ne_true] at htaken
      refine ⟨passed, ⟨by rw [step_global]; exact htaken, fun p => ?_, fun o w hw => ?_⟩⟩
      · have hrefused : (s.gate.take a.1 a.2).1 = false := by rw [admitted_iff, hpass, Bool.false_and]
        rw [log_step, List.countP_append, List.countP_singleton, hrefused]
        exact h.admitted p
      · rw [origins_refused hpass] at hw
        exact h.began o w hw
  | true =>
      rw [hpass, if_pos rfl] at htaken
      refine ⟨passed ++ [(a.1, ⟨a.2, (AuthGate.takeWindow s.gate.global a.2 maxGlobalAttempts).2.started⟩)],
        ⟨by rw [step_global, List.map_append]; exact htaken, fun p => ?_, fun o w hw => ?_⟩⟩
      · have hbefore := h.admitted p
        rw [log_step, List.countP_append, List.countP_append, List.countP_singleton, List.countP_singleton]
        refine Nat.add_le_add hbefore ?_
        cases hp : p a.2 with
        | false => simp
        | true =>
            rw [if_pos rfl]
            split
            · exact Nat.le_refl 1
            · exact Nat.zero_le 1
      · by_cases ho : o = a.1
        · subst ho
          rw [origins_own hpass] at hw
          cases hw
          rcases open_or_over (s.gate.origins.get? a.1) a.2 with ⟨v, hv, hopen⟩ | hover
          · obtain ⟨e, he, heo, hstarted⟩ := h.began a.1 v hv
            rw [takeWindow_open hv hopen]
            exact ⟨e, List.mem_append_left _ he, heo, hstarted⟩
          · rw [takeWindow_over hover]
            exact ⟨_, List.mem_append_right _ (List.mem_singleton.mpr rfl), rfl, rfl⟩
        · rw [origins_other hpass ho, Option.filter_eq_some_iff] at hw
          obtain ⟨e, he, heo, hstarted⟩ := h.began o w hw.1
          exact ⟨e, List.mem_append_left _ he, heo, hstarted⟩

/-- An origin's window counts its attempts and is swept by those of others. -/
theorem Granted.step {granted : List Admission} (h : s.Granted clock o granted) (hclock : clock ≤ a.2) :
    ∃ granted, (s.step a).Granted a.2 o granted := by
  have hby (hmetered : Metered ((s.step a).gate.origins.get? o) granted a.2 maxOriginAttempts)
      (hnot : ((s.gate.take a.1 a.2).1 && decide (a.1 = o)) = false) :
      ∃ granted, (s.step a).Granted a.2 o granted := by
    refine ⟨granted, hmetered, fun p => ?_⟩
    rw [log_step, List.countP_append, List.countP_singleton, hnot]
    exact h.admitted p
  cases hpass : (AuthGate.takeWindow s.gate.global a.2 maxGlobalAttempts).1 with
  | false =>
      refine hby (h.metered.wait hclock (.inl (by rw [origins_refused hpass]))) ?_
      rw [admitted_iff, hpass]
      rfl
  | true =>
      by_cases ho : o = a.1
      · subst ho
        have htaken := h.metered.take hclock (by decide) (by decide)
        have hanswer : (s.gate.take a.1 a.2).1 =
            (AuthGate.takeWindow (s.gate.origins.get? a.1) a.2 maxOriginAttempts).1 := by
          rw [admitted_iff, hpass, Bool.true_and]
        rw [← hanswer, ← origins_own hpass] at htaken
        cases hadmitted : (s.gate.take a.1 a.2).1 with
        | false =>
            rw [hadmitted, if_neg Bool.false_ne_true] at htaken
            exact hby htaken (by rw [hadmitted]; rfl)
        | true =>
            rw [hadmitted, if_pos rfl] at htaken
            refine ⟨_, htaken, fun p => ?_⟩
            rw [log_step, List.countP_append, List.countP_append, List.countP_singleton,
              List.countP_singleton, hadmitted, decide_eq_true rfl]
            exact Nat.add_le_add (h.admitted p) (Nat.le_refl _)
      · refine hby (h.metered.wait hclock (.inr (origins_other hpass ho))) ?_
        rw [decide_eq_false (Ne.symm ho), Bool.and_false]

/-- The origins that are remembered each began their window with an attempt the process let pass in the
last window's length. -/
theorem tracked_le {passed : List (IpAddr × Admission)} (h : s.Passed clock passed)
    (hrecent : ∀ o w, s.gate.origins.get? o = some w → w.started ≤ clock ∧ w.isOpen clock = true) :
    s.gate.origins.rows.length ≤ 2 * maxGlobalAttempts := by
  obtain ⟨since, hsince⟩ : ∃ since, since = clock + 1 - windowMs := ⟨_, rfl⟩
  have hbound := h.metered.apart.countP_le since
  rw [List.countP_map] at hbound
  have hsub : s.gate.origins.rows.map Prod.fst ⊆
      (passed.filter fun e => spans windowMs since e.2.at').map Prod.fst := by
    intro o ho
    obtain ⟨row, hrow, rfl⟩ := List.mem_map.mp ho
    have hget : s.gate.origins.get? row.1 = some row.2 := Dict.get?_eq_some_iff.mpr hrow
    obtain ⟨e, he, heo, hat⟩ := h.began row.1 row.2 hget
    obtain ⟨hle, hopen⟩ := hrecent row.1 row.2 hget
    have hlt : clock < row.2.started + windowMs := isOpen_iff.mp hopen
    refine List.mem_map.mpr ⟨e, List.mem_filter.mpr ⟨he, ?_⟩, heo⟩
    rw [Windows.spans_iff, hat]
    constructor
    · rw [hsince]
      exact Nat.sub_le_of_le_add hlt
    · have hend : clock + 1 ≤ since + windowMs := Nat.sub_le_iff_le_add.mp (Nat.le_of_eq hsince.symm)
      exact Nat.le_trans hle (Nat.le_of_succ_le hend)
  have hnodup : (s.gate.origins.rows.map Prod.fst).Nodup := List.pairwise_map.mpr s.gate.origins.unique
  have hlen := (List.subperm_of_subset hnodup hsub).length_le
  rw [List.length_map, List.length_map, ← List.countP_eq_length_filter] at hlen
  exact Nat.le_trans hlen hbound

theorem Watched.step (h : s.Watched clock) (hclock : clock ≤ a.2) : (s.step a).Watched a.2 := by
  obtain ⟨passed, hpassed⟩ := h.process
  obtain ⟨passed', hpassed'⟩ := hpassed.step hclock
  have horigin : ∀ o, ∃ granted, (s.step a).Granted a.2 o granted := by
    intro o
    obtain ⟨granted, hgranted⟩ := h.origin o
    exact hgranted.step hclock
  refine ⟨⟨passed', hpassed'⟩, horigin, ?_⟩
  cases hpass : (AuthGate.takeWindow s.gate.global a.2 maxGlobalAttempts).1 with
  | false =>
      rw [origins_refused hpass]
      exact h.tracked
  | true =>
      refine tracked_le hpassed' fun o w hw => ?_
      obtain ⟨granted, hgranted⟩ := horigin o
      refine ⟨hgranted.metered.started w hw, ?_⟩
      by_cases ho : o = a.1
      · subst ho
        rw [origins_own hpass] at hw
        cases hw
        rcases open_or_over (s.gate.origins.get? a.1) a.2 with ⟨v, hv, hopen⟩ | hover
        · rw [takeWindow_open hv hopen]
          exact hopen
        · rw [takeWindow_over hover, isOpen_iff]
          exact Nat.lt_add_of_pos_right (by decide)
      · rw [origins_other hpass ho, Option.filter_eq_some_iff] at hw
        exact hw.2

theorem rated_run (maxHashes : Nat) {attempts : List (IpAddr × Millis)}
    (hclock : (attempts.map Prod.snd).Pairwise (· ≤ ·)) :
    ∀ s ∈ Run.visited Traffic.step ⟨.new maxHashes, []⟩ attempts, s.Rated := by
  intro s hs
  obtain ⟨clock, hwatched⟩ := Run.invariant_clocked Prod.snd Watched
    (fun _ _ _ h hle => h.step hle) (new_watched maxHashes) (fun _ _ => Nat.zero_le _) hclock s hs
  exact hwatched.rated

end Traffic

/-! ## Registration -/

/-- The throttle, and the attempts so far with their answers. -/
structure SignUps where
  throttle : SignUpThrottle
  log : List (Millis × Bool)

namespace SignUps

def start : SignUps := ⟨.new, []⟩

def step (s : SignUps) (now : Millis) : SignUps :=
  let taken := s.throttle.take now
  ⟨taken.2, s.log ++ [(now, taken.1)]⟩

/-- What was admitted in any interval of a window's length is bounded. -/
def Bounded (s : SignUps) : Prop :=
  ∀ since, s.log.countP (fun a => a.2 && spans windowMs since a.1) ≤ 2 * maxSignUps

theorem take_eq (t : SignUpThrottle) (now : Millis) : t.take now =
    ((AuthGate.takeWindow t.window now maxSignUps).1,
      ⟨some (AuthGate.takeWindow t.window now maxSignUps).2⟩) := by
  rcases open_or_over t.window now with ⟨w, hw, hopen⟩ | hover
  · rw [takeWindow_open hw hopen]
    simp [SignUpThrottle.take, hw, hopen]
  · rw [takeWindow_over hover]
    cases hw : t.window with
    | none => simp [SignUpThrottle.take, hw]
    | some w => simp [SignUpThrottle.take, hw, hover w hw]

/-- What was granted, each attempt with its window. -/
def Watched (clock : Nat) (s : SignUps) : Prop :=
  ∃ granted, Metered s.throttle.window granted clock maxSignUps ∧
    ∀ p : Nat → Bool, s.log.countP (fun a => a.2 && p a.1) ≤ granted.countP fun e => p e.at'

theorem Watched.step {clock : Nat} {s : SignUps} {now : Millis} (h : s.Watched clock) (hclock : clock ≤ now) :
    (s.step now).Watched now := by
  obtain ⟨granted, hmetered, hcount⟩ := h
  have htaken := hmetered.take hclock (by decide) (by decide)
  have hwindow : (s.step now).throttle.window =
      some (AuthGate.takeWindow s.throttle.window now maxSignUps).2 := by
    simp only [SignUps.step, take_eq]
  have hlog : (s.step now).log =
      s.log ++ [(now, (AuthGate.takeWindow s.throttle.window now maxSignUps).1)] := by
    simp only [SignUps.step, take_eq]
  rw [← hwindow] at htaken
  refine ⟨_, htaken, fun p => ?_⟩
  rw [hlog, List.countP_append, List.countP_singleton]
  cases hadmitted : (AuthGate.takeWindow s.throttle.window now maxSignUps).1 with
  | false => exact hcount p
  | true =>
      rw [if_pos rfl, List.countP_append, List.countP_singleton]
      exact Nat.add_le_add (hcount p) (Nat.le_refl _)

theorem bounded_run {times : List Millis} (hclock : times.Pairwise (· ≤ ·)) :
    ∀ s ∈ Run.visited step start times, s.Bounded := by
  intro s hs since
  obtain ⟨clock, granted, hmetered, hcount⟩ := Run.invariant_clocked id Watched
    (fun _ _ _ h hle => h.step hle) ⟨[], metered_none 0 _, fun _ => Nat.zero_le _⟩
    (fun _ _ => Nat.zero_le _) (by rwa [List.map_id]) s hs
  exact Nat.le_trans (hcount (spans windowMs since)) (hmetered.apart.countP_le since)

end SignUps

namespace Guessing

theorem bounded_run {guesses : List (Text × Millis)} (hclock : (guesses.map Prod.snd).Pairwise (· ≤ ·)) :
    ∀ s ∈ Run.visited step start guesses, s.Bounded := by
  intro s hs username
  obtain ⟨clock, htold⟩ := Run.invariant_clocked Prod.snd
    (fun clock s => Told s (key username) clock) (fun _ _ _ h hle => h.step hle) (start_told _)
    (fun _ _ => Nat.zero_le _) hclock s hs
  exact htold.bounded

end Guessing

/-! ## Refusals -/

/-- The window that refuses an attempt is open, is over when it would have been, and answers every later
attempt as if this one had not been made. -/
def Unmoved (before after : Option AttemptWindow) (now : Millis) (maximum : Nat) : Prop :=
  ∃ w w', before = some w ∧ now < w.reopens ∧ after = some w' ∧ w'.reopens = w.reopens ∧
    ∀ later, (AuthGate.takeWindow after later maximum).1 = (AuthGate.takeWindow before later maximum).1

/-- A window that is open is over when it would have been. -/
def KeepsEnd (before after : Option AttemptWindow) (now : Millis) : Prop :=
  ∀ w ∈ before, now < w.reopens → ∃ w' ∈ after, w'.reopens = w.reopens

theorem unmoved_of_refused {cell : Option AttemptWindow} {now : Millis} {maximum : Nat}
    (hmaximum : maximum < 2 ^ 32 - 1) (h : (AuthGate.takeWindow cell now maximum).1 = false) :
    Unmoved cell (some (AuthGate.takeWindow cell now maximum).2) now maximum := by
  obtain ⟨w, hw, hopen, hend, hlater⟩ := refused_leaves hmaximum h
  exact ⟨w, _, hw, Traffic.isOpen_iff.mp hopen, rfl, hend, hlater⟩

theorem keepsEnd_takeWindow (cell : Option AttemptWindow) (now : Millis) (maximum : Nat) :
    KeepsEnd cell (some (AuthGate.takeWindow cell now maximum).2) now := by
  intro w hw hopen
  exact ⟨_, rfl, takeWindow_reopens hw (Traffic.isOpen_iff.mpr hopen)⟩

/-- No window is moved by a refused attempt, and the one that refuses it answers as before. -/
structure AuthGate.Undelayed (g : AuthGate) (o : IpAddr) (now : Millis) : Prop where
  refusing : Unmoved g.global (g.take o now).2.global now maxGlobalAttempts ∨
    Unmoved (g.origins.get? o) ((g.take o now).2.origins.get? o) now maxOriginAttempts
  global : KeepsEnd g.global (g.take o now).2.global now
  origins : ∀ o', KeepsEnd (g.origins.get? o') ((g.take o now).2.origins.get? o') now

theorem undelayed_of_refused {g : AuthGate} {o : IpAddr} {now : Millis} (h : (g.take o now).1 = false) :
    g.Undelayed o now := by
  -- The gate as a state whose next attempt is this one.
  let s : Traffic := ⟨g, []⟩
  have hglobal : (g.take o now).2.global = some (AuthGate.takeWindow g.global now maxGlobalAttempts).2 :=
    Traffic.step_global s (o, now)
  have hkeeps : KeepsEnd g.global (g.take o now).2.global now := by
    rw [hglobal]
    exact keepsEnd_takeWindow _ _ _
  cases hpass : (AuthGate.takeWindow g.global now maxGlobalAttempts).1 with
  | false =>
      have hsame : (g.take o now).2.origins = g.origins :=
        Traffic.origins_refused (s := s) (a := (o, now)) hpass
      refine ⟨.inl ?_, hkeeps, fun o' w hw _ => ⟨w, by rw [hsame]; exact hw, rfl⟩⟩
      rw [hglobal]
      exact unmoved_of_refused (by decide) hpass
  | true =>
      have hown : (g.take o now).2.origins.get? o =
          some (AuthGate.takeWindow (g.origins.get? o) now maxOriginAttempts).2 :=
        Traffic.origins_own (s := s) (a := (o, now)) hpass
      have hrefused : (AuthGate.takeWindow (g.origins.get? o) now maxOriginAttempts).1 = false := by
        have hiff : (g.take o now).1 = _ := Traffic.admitted_iff (s := s) (a := (o, now))
        rw [h, show s.gate = g from rfl, hpass, Bool.true_and] at hiff
        exact hiff.symm
      refine ⟨.inr ?_, hkeeps, fun o' => ?_⟩
      · rw [hown]
        exact unmoved_of_refused (by decide) hrefused
      · by_cases ho : o' = o
        · subst ho
          rw [hown]
          exact keepsEnd_takeWindow _ _ _
        · have hother : (g.take o now).2.origins.get? o' = (g.origins.get? o').filter (·.isOpen now) :=
            Traffic.origins_other (s := s) (a := (o, now)) hpass ho
          intro w hw hopen
          refine ⟨w, ?_, rfl⟩
          rw [hother]
          exact Option.filter_eq_some_iff.mpr ⟨hw, Traffic.isOpen_iff.mpr hopen⟩

/-! ## All of them -/

/-- On clocks that do not go back, the gate's, registration's and every username's attempts are bounded in
any interval of a window's length, whatever a username is answered depends on its own attempts alone, and
a refused attempt delays no window. -/
theorem throttles_bound_the_rate (maxHashes : Nat) (attempts : List (IpAddr × Millis)) (times : List Millis)
    (guesses : List (Text × Millis)) (hattempts : (attempts.map Prod.snd).Pairwise (· ≤ ·))
    (htimes : times.Pairwise (· ≤ ·)) (hguesses : (guesses.map Prod.snd).Pairwise (· ≤ ·)) :
    (∀ s ∈ Run.visited Traffic.step ⟨.new maxHashes, []⟩ attempts, s.Rated) ∧
      (∀ s ∈ Run.visited SignUps.step .start times, s.Bounded) ∧
      (∀ s ∈ Run.visited Guessing.step .start guesses, s.Bounded) ∧
      (∀ k, (Run.final Guessing.step .start guesses).log.filter (fun g => g.key = k) =
        (Run.final Guessing.step .start (guesses.filter fun a => key a.1 = k)).log) ∧
      (∀ g : AuthGate, ∀ o now, (g.take o now).1 = false → g.Undelayed o now) ∧
      (∀ t : SignUpThrottle, ∀ now, (t.take now).1 = false →
        Unmoved t.window (t.take now).2.window now maxSignUps) ∧
      ∀ t : LoginThrottle, ∀ username now, (t.allows username now).1 = false →
        (t.allows username now).2 = t := by
  refine ⟨Traffic.rated_run maxHashes hattempts, SignUps.bounded_run htimes,
    Guessing.bounded_run hguesses, fun k => ?_, fun g o now => undelayed_of_refused, ?_, ?_⟩
  · exact Guessing.Follows.run ⟨.inl rfl, rfl⟩ (fun _ _ => Nat.zero_le _) hguesses
  · intro t now h
    rw [SignUps.take_eq] at h ⊢
    exact unmoved_of_refused (by decide) h
  · intro t username now h
    exact Guessing.refused_unchanged (s := ⟨t, []⟩) (a := (username, now)) h

/-- Two origins, two registrations and two usernames. -/
theorem throttles_bound_two_each :
    (∀ s ∈ Run.visited Traffic.step ⟨.default, []⟩ [(.v4 1, 0), (.v4 2, 5)], s.Rated) ∧
      (∀ s ∈ Run.visited SignUps.step .start [0, 300000], s.Bounded) ∧
      ∀ s ∈ Run.visited Guessing.step .start [("alice".toList, 0), ("bob".toList, 7)], s.Bounded := by
  have hbound := throttles_bound_the_rate maxArgon2Concurrency [(.v4 1, 0), (.v4 2, 5)] [0, 300000]
    [("alice".toList, 0), ("bob".toList, 7)] (by decide) (by decide) (by decide)
  exact ⟨hbound.1, hbound.2.1, hbound.2.2.1⟩

end Gavel.Web
