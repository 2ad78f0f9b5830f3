import Gavel.Web.Theorems.Guesses

/-!
# Failures of one username

Attempts with a wrong password, each let through and recorded before the next begins. A bucket counts the
failures since the last gap of a window, and what it held when it was swept is out of reach.
-/

namespace Gavel.Web

open Gavel.Cluster (Millis)

/-- An attempt with a wrong password: the bucket it belongs to, and whether it was let through. -/
structure Guess where
  key : Text
  at' : Millis
  allowed : Bool
  deriving DecidableEq

/-- The throttle, and what was asked of it so far. -/
structure Guessing where
  throttle : LoginThrottle
  log : List Guess

namespace Guessing

open LoginThrottle (key)

def start : Guessing := ⟨.new, []⟩

/-- `allows`, and then `failed` for an attempt that is let through. -/
def step (s : Guessing) (a : Text × Millis) : Guessing :=
  let answer := s.throttle.allows a.1 a.2
  ⟨if answer.1 then answer.2.failed a.1 a.2 else answer.2, s.log ++ [⟨key a.1, a.2, answer.1⟩]⟩

/-- A failure of a username. -/
def isFailure (k : Text) (g : Guess) : Bool := g.allowed && decide (g.key = k)

/-- No half-open window holds more failures of a username than are allowed. -/
def Bounded (s : Guessing) : Prop :=
  ∀ username since, s.log.countP (fun g => isFailure (key username) g && within since g.at') ≤ maxFailures

variable {s s' : Guessing} {a : Text × Millis} {k : Text} {b : Bucket} {clock : Nat}

/-! ## One attempt -/

theorem log_step (s : Guessing) (a : Text × Millis) :
    (s.step a).log = s.log ++ [⟨key a.1, a.2, (s.throttle.allows a.1 a.2).1⟩] := rfl

theorem counting_or_over (t : LoginThrottle) (k : Text) (now : Millis) :
    (∃ b, t.buckets.get? k = some b ∧ b.expired now = false) ∨
      ∀ b, t.buckets.get? k = some b → b.expired now = true := by
  by_cases h : ∃ b, t.buckets.get? k = some b ∧ b.expired now = false
  · exact .inl h
  · refine .inr fun b hb => ?_
    by_contra hexpired
    exact h ⟨b, hb, by simpa using hexpired⟩

theorem allows_counting (hb : s.throttle.buckets.get? (key a.1) = some b) (hopen : b.expired a.2 = false) :
    s.throttle.allows a.1 a.2 = (decide (b.failures < maxFailures), s.throttle) := by
  simp [LoginThrottle.allows, LoginThrottle.bucket, hb, hopen]

theorem allows_over (h : ∀ b, s.throttle.buckets.get? (key a.1) = some b → b.expired a.2 = true) :
    (s.throttle.allows a.1 a.2).1 = true := by
  cases hb : s.throttle.buckets.get? (key a.1) with
  | none => simp [LoginThrottle.allows, LoginThrottle.bucket, hb]
  | some b => simp [LoginThrottle.allows, LoginThrottle.bucket, hb, h b hb]

/-- What `failed` leaves of a bucket that is another's. -/
theorem failed_other {t : LoginThrottle} {username : Text} {now : Millis} (hk : k ≠ key username) :
    (t.failed username now).buckets.get? k = (t.buckets.get? k).filter (!·.expired now) := by
  rw [LoginThrottle.failed, Dict.get?_put_ne hk, Dict.get?_retain]

theorem failed_self (t : LoginThrottle) (username : Text) (now : Millis) :
    (t.failed username now).buckets.get? (key username) =
      some ⟨satAdd32 (((t.buckets.get? (key username)).filter (!·.expired now)).getD ⟨0, now⟩).failures 1,
        now⟩ := by
  rw [LoginThrottle.failed, Dict.get?_put_self, Dict.get?_retain]

theorem refused_unchanged (h : (s.throttle.allows a.1 a.2).1 = false) :
    (s.throttle.allows a.1 a.2).2 = s.throttle := by
  rcases counting_or_over s.throttle (key a.1) a.2 with ⟨b, hb, hopen⟩ | hover
  · rw [allows_counting hb hopen]
  · rw [allows_over hover] at h
    cases h

theorem step_refused (h : (s.throttle.allows a.1 a.2).1 = false) : (s.step a).throttle = s.throttle := by
  simp only [step, h, Bool.false_eq_true, if_false]
  exact refused_unchanged h

theorem step_counting (hb : s.throttle.buckets.get? (key a.1) = some b) (hopen : b.expired a.2 = false)
    (hfew : b.failures < maxFailures) :
    (s.step a).throttle.buckets.get? (key a.1) = some ⟨b.failures + 1, a.2⟩ := by
  have hsat : satAdd32 b.failures 1 = b.failures + 1 := by
    simp only [satAdd32, maxFailures] at hfew ⊢
    omega
  simp only [step, allows_counting hb hopen, decide_eq_true hfew, if_true]
  rw [failed_self, hb, Option.filter_some, if_pos (by simp [hopen]), Option.getD_some, hsat]

theorem step_over (h : ∀ b, s.throttle.buckets.get? (key a.1) = some b → b.expired a.2 = true) :
    (s.step a).throttle.buckets.get? (key a.1) = some ⟨1, a.2⟩ := by
  have hnone : ((s.throttle.allows a.1 a.2).2.buckets.get? (key a.1)).filter (!·.expired a.2) = none := by
    rw [Option.filter_eq_none_iff]
    intro b hb
    rw [h b (SignIns.allows_kept hb)]
    simp
  simp only [step, allows_over h, if_true]
  rw [failed_self, hnone]
  rfl

/-- An attempt leaves another's bucket, unless that is over. -/
theorem step_other (hk : k ≠ key a.1) :
    (s.step a).throttle.buckets.get? k = s.throttle.buckets.get? k ∨
      (s.step a).throttle.buckets.get? k = (s.throttle.buckets.get? k).filter (!·.expired a.2) := by
  cases h : (s.throttle.allows a.1 a.2).1 with
  | false => exact .inl (by rw [step_refused h])
  | true =>
      right
      have hsame : (s.throttle.allows a.1 a.2).2.buckets.get? k = s.throttle.buckets.get? k := by
        simp only [LoginThrottle.allows]
        split
        · split
          · exact Dict.get?_erase_ne hk
          · rfl
        · rfl
      simp only [step, h, if_true]
      rw [failed_other hk, hsame]

/-! ## What a bucket knows -/

/-- The failures of a username since an instant. -/
def since (s : Guessing) (k : Text) (from' : Nat) : Nat :=
  s.log.countP fun g => isFailure k g && decide (from' ≤ g.at')

/-- The failures of a username are within their bound; a bucket holds all that share a window with its
last, and where there is none they are over. -/
structure Told (s : Guessing) (k : Text) (clock : Nat) : Prop where
  ended : s.throttle.buckets.get? k = none → ∀ g ∈ s.log, isFailure k g = true → g.at' + windowMs ≤ clock
  last : ∀ b, s.throttle.buckets.get? k = some b →
    b.last ≤ clock ∧ ∀ g ∈ s.log, isFailure k g = true → g.at' ≤ b.last
  recent : ∀ b, s.throttle.buckets.get? k = some b →
    ∀ from', b.last < from' + windowMs → s.since k from' ≤ b.failures
  bounded : ∀ from', s.log.countP (fun g => isFailure k g && within from' g.at') ≤ maxFailures

theorem start_told (k : Text) : start.Told k 0 where
  ended _ _ hg := absurd hg List.not_mem_nil
  last _ hb := by cases hb
  recent _ hb := by cases hb
  bounded _ := Nat.zero_le _

theorem Told.quiet (h : s.Told k clock) (hclock : clock ≤ a.2)
    (hnot : isFailure k ⟨key a.1, a.2, (s.throttle.allows a.1 a.2).1⟩ = false)
    (hkept : (s.step a).throttle.buckets.get? k = s.throttle.buckets.get? k ∨
      (s.step a).throttle.buckets.get? k = (s.throttle.buckets.get? k).filter (!·.expired a.2)) :
    (s.step a).Told k a.2 := by
  have hmem : ∀ g ∈ (s.step a).log, isFailure k g = true → g ∈ s.log := by
    intro g hg hfail
    rcases List.mem_append.mp hg with hg | hg
    · exact hg
    · rw [List.mem_singleton.mp hg, hnot] at hfail
      cases hfail
  have hcount (p : Guess → Bool) : (s.step a).log.countP (fun g => isFailure k g && p g) =
      s.log.countP fun g => isFailure k g && p g := by
    rw [log_step, List.countP_append, List.countP_singleton, hnot]
    rfl
  have hold : ∀ b, (s.step a).throttle.buckets.get? k = some b → s.throttle.buckets.get? k = some b := by
    intro b hb
    rcases hkept with heq | heq
    · rwa [heq] at hb
    · rw [heq, Option.filter_eq_some_iff] at hb
      exact hb.1
  refine ⟨?_, ?_, ?_, ?_⟩
  · intro hnone g hg hfail
    cases hb : s.throttle.buckets.get? k with
    | none => exact Nat.le_trans (h.ended hb g (hmem g hg hfail) hfail) hclock
    | some b =>
        have hexpired : b.expired a.2 = true := by
          rcases hkept with heq | heq
          · rw [heq, hb] at hnone
            cases hnone
          · rw [heq, hb, Option.filter_eq_none_iff] at hnone
            simpa using hnone
        have hle := (h.last b hb).2 g (hmem g hg hfail) hfail
        exact Nat.le_trans (Nat.add_le_add_right hle _) (Bucket.expired_iff.mp hexpired)
  · intro b hb
    obtain ⟨hle, hall⟩ := h.last b (hold b hb)
    exact ⟨Nat.le_trans hle hclock, fun g hg hfail => hall g (hmem g hg hfail) hfail⟩
  · intro b hb from' hlast
    rw [since, hcount]
    exact h.recent b (hold b hb) from' hlast
  · intro from'
    rw [hcount]
    exact h.bounded from'

/-- The attempt records a failure, after some failures of which the bucket knows all that matter. -/
theorem Told.failure {before : Nat} (h : s.Told k clock) (hk : key a.1 = k)
    (hallowed : (s.throttle.allows a.1 a.2).1 = true) (hfew : before < maxFailures)
    (hbucket : (s.step a).throttle.buckets.get? k = some ⟨before + 1, a.2⟩)
    (hpast : ∀ g ∈ s.log, isFailure k g = true → g.at' ≤ a.2)
    (hknown : ∀ from', a.2 < from' + windowMs → s.since k from' ≤ before) : (s.step a).Told k a.2 := by
  have hcount (p : Guess → Bool) : (s.step a).log.countP (fun g => isFailure k g && p g) =
      s.log.countP (fun g => isFailure k g && p g) + if p ⟨key a.1, a.2, true⟩ = true then 1 else 0 := by
    rw [log_step, hallowed, List.countP_append, List.countP_singleton]
    simp [isFailure, hk]
  refine ⟨?_, ?_, ?_, ?_⟩
  · intro hnone
    rw [hbucket] at hnone
    cases hnone
  · intro b hb
    rw [hbucket] at hb
    cases hb
    refine ⟨Nat.le_refl _, fun g hg hfail => ?_⟩
    rcases List.mem_append.mp hg with hg | hg
    · exact hpast g hg hfail
    · rw [List.mem_singleton.mp hg]
  · intro b hb from' hlast
    rw [hbucket] at hb
    cases hb
    have hbefore := hknown from' hlast
    rw [since, hcount]
    refine Nat.add_le_add hbefore ?_
    split
    · exact Nat.le_refl 1
    · exact Nat.zero_le 1
  · intro from'
    rw [hcount]
    by_cases hin : within from' a.2 = true
    · -- What shares the window with the failure is what the bucket knew, and the failure itself.
      have hlt : a.2 < from' + windowMs := by
        simp only [within, Bool.and_eq_true, decide_eq_true_eq] at hin
        exact hin.2
      have hle : s.log.countP (fun g => isFailure k g && within from' g.at') ≤ s.since k from' := by
        refine List.countP_mono_left fun g _ hg => ?_
        simp only [within, Bool.and_eq_true, decide_eq_true_eq] at hg ⊢
        exact ⟨hg.1, hg.2.1⟩
      rw [if_pos hin]
      exact Nat.le_trans (Nat.succ_le_succ (Nat.le_trans hle (hknown from' hlt))) hfew
    · rw [if_neg hin]
      exact h.bounded from'

theorem Told.step (h : s.Told k clock) (hclock : clock ≤ a.2) : (s.step a).Told k a.2 := by
  by_cases hk : key a.1 = k
  · subst hk
    rcases counting_or_over s.throttle (key a.1) a.2 with ⟨b, hb, hopen⟩ | hover
    · obtain ⟨hle, hall⟩ := h.last b hb
      by_cases hfew : b.failures < maxFailures
      · refine h.failure rfl ?_ hfew (step_counting hb hopen hfew)
          (fun g hg hfail => Nat.le_trans (hall g hg hfail) (Nat.le_trans hle hclock)) ?_
        · rw [allows_counting hb hopen]
          exact decide_eq_true hfew
        · exact fun from' hlt => h.recent b hb from'
            (Nat.lt_of_le_of_lt (Nat.le_trans hle hclock) hlt)
      · have hrefused : (s.throttle.allows a.1 a.2).1 = false := by
          rw [allows_counting hb hopen]
          exact decide_eq_false hfew
        refine h.quiet hclock ?_ (.inl (by rw [step_refused hrefused]))
        rw [hrefused]
        rfl
    · have hpast : ∀ g ∈ s.log, isFailure (key a.1) g = true → g.at' + windowMs ≤ a.2 := by
        intro g hg hfail
        cases hb : s.throttle.buckets.get? (key a.1) with
        | none => exact Nat.le_trans (h.ended hb g hg hfail) hclock
        | some b =>
            exact Nat.le_trans (Nat.add_le_add_right ((h.last b hb).2 g hg hfail) _)
              (Bucket.expired_iff.mp (hover b hb))
      refine h.failure rfl (allows_over hover) (by decide) (step_over hover)
        (fun g hg hfail => Nat.le_trans (Nat.le_add_right _ _) (hpast g hg hfail)) ?_
      intro from' hlt
      refine Nat.le_of_eq (List.countP_eq_zero.mpr fun g hg hcount => ?_)
      simp only [Bool.and_eq_true, decide_eq_true_eq] at hcount
      have hgone := Nat.lt_of_le_of_lt (hpast g hg hcount.1) hlt
      exact Nat.not_lt.mpr hcount.2 (Nat.lt_of_add_lt_add_right hgone)
  · refine h.quiet hclock ?_ (step_other (Ne.symm hk))
    simp [isFailure, hk]

/-! ## One username at a time -/

/-- Two buckets answer alike from an instant on: they are the same, or one was swept and the other is
over. -/
def Alike (clock : Nat) (swept whole : Option Bucket) : Prop :=
  swept = whole ∨ swept = none ∧ ∀ b ∈ whole, b.expired clock = true

/-- Of a run with everyone's attempts and one with those of a username alone. -/
structure Follows (k : Text) (clock : Nat) (s s' : Guessing) : Prop where
  bucket : Alike clock (s.throttle.buckets.get? k) (s'.throttle.buckets.get? k)
  log : s.log.filter (fun g => g.key = k) = s'.log

theorem expired_later {now : Nat} (h : b.expired clock = true) (hclock : clock ≤ now) :
    b.expired now = true :=
  Bucket.expired_iff.mpr (Nat.le_trans (Bucket.expired_iff.mp h) hclock)

theorem Follows.other (h : Follows k clock s s') (hclock : clock ≤ a.2) (hk : key a.1 ≠ k) :
    Follows k a.2 (s.step a) s' where
  bucket := by
    rcases h.bucket with heq | ⟨hnone, hover⟩
    · rcases step_other (s := s) (a := a) (Ne.symm hk) with hsame | hswept
      · exact .inl (hsame.trans heq)
      · rw [heq] at hswept
        cases hb : s'.throttle.buckets.get? k with
        | none => exact .inl (by rw [hswept, hb]; rfl)
        | some b =>
            cases hexpired : b.expired a.2 with
            | false => exact .inl (by rw [hswept, hb, Option.filter_some, if_pos (by simp [hexpired])])
            | true =>
                refine .inr ⟨by rw [hswept, hb, Option.filter_some, if_neg (by simp [hexpired])], ?_⟩
                rintro _ ⟨⟩
                exact hexpired
    · refine .inr ⟨?_, fun b hb => expired_later (hover b hb) hclock⟩
      rcases step_other (s := s) (a := a) (Ne.symm hk) with hsame | hswept
      · exact hsame.trans hnone
      · rw [hswept, hnone]
        rfl
  log := by
    rw [log_step, List.filter_append, h.log, List.filter_singleton, decide_eq_false hk]
    exact List.append_nil _

theorem Follows.own (h : Follows k clock s s') (hclock : clock ≤ a.2) (hk : key a.1 = k) :
    Follows k a.2 (s.step a) (s'.step a) := by
  subst hk
  have hanswer : (s.throttle.allows a.1 a.2).1 = (s'.throttle.allows a.1 a.2).1 ∧
      (s.step a).throttle.buckets.get? (key a.1) = (s'.step a).throttle.buckets.get? (key a.1) := by
    have hover' (hover : ∀ b, s.throttle.buckets.get? (key a.1) = some b → b.expired a.2 = true) :
        ∀ b, s'.throttle.buckets.get? (key a.1) = some b → b.expired a.2 = true := by
      intro b hb
      rcases h.bucket with heq | ⟨-, hgone⟩
      · exact hover b (heq.trans hb)
      · exact expired_later (hgone b hb) hclock
    rcases counting_or_over s.throttle (key a.1) a.2 with ⟨b, hb, hopen⟩ | hover
    · have hb' : s'.throttle.buckets.get? (key a.1) = some b := by
        rcases h.bucket with heq | ⟨hnone, -⟩
        · rw [← heq, hb]
        · rw [hnone] at hb
          cases hb
      have hsame : (s.throttle.allows a.1 a.2).1 = (s'.throttle.allows a.1 a.2).1 := by
        rw [allows_counting hb hopen, allows_counting hb' hopen]
      refine ⟨hsame, ?_⟩
      by_cases hfew : b.failures < maxFailures
      · rw [step_counting hb hopen hfew, step_counting hb' hopen hfew]
      · have hrefused : (s.throttle.allows a.1 a.2).1 = false := by
          rw [allows_counting hb hopen]
          exact decide_eq_false hfew
        rw [step_refused hrefused, step_refused (hsame ▸ hrefused), hb, hb']
    · rw [allows_over hover, allows_over (hover' hover), step_over hover, step_over (hover' hover)]
      exact ⟨rfl, rfl⟩
  refine ⟨.inl hanswer.2, ?_⟩
  rw [log_step, log_step, List.filter_append, h.log, List.filter_singleton, decide_eq_true rfl, hanswer.1]
  rfl

/-- What a username is answered does not depend on the attempts at others. -/
theorem Follows.run (h : Follows k clock s s') {attempts : List (Text × Millis)}
    (hfrom : ∀ a ∈ attempts, clock ≤ a.2) (hclock : (attempts.map Prod.snd).Pairwise (· ≤ ·)) :
    (Run.final step s attempts).log.filter (fun g => g.key = k) =
      (Run.final step s' (attempts.filter fun a => key a.1 = k)).log := by
  induction attempts generalizing s s' clock with
  | nil => exact h.log
  | cons a attempts ih =>
      obtain ⟨hfirst, hrest⟩ := List.pairwise_cons.mp hclock
      have hnow := hfrom a List.mem_cons_self
      have hafter : ∀ b ∈ attempts, a.2 ≤ b.2 := fun b hb => hfirst b.2 (List.mem_map_of_mem hb)
      by_cases hk : key a.1 = k
      · rw [List.filter_cons_of_pos (by simpa using hk)]
        exact ih (h.own hnow hk) hafter hrest
      · rw [List.filter_cons_of_neg (by simpa using hk)]
        exact ih (h.other hnow hk) hafter hrest

end Guessing

end Gavel.Web
