import Gavel.Lib.Run
import Gavel.Lib.Slots
import Gavel.Web.Login

/-!
# How many passwords of one user are tried

The throttle is asked when a request arrives and told after the hash. While no request begins to hash on
an answer that is out of date, and failures are recorded in the order of the arrivals, a window holds the
failures the throttle allows and what the permits let through beside them.
-/

namespace Gavel.Web

open Gavel.Cluster (Millis)

/-- An instant lies in the window that begins at another. -/
def within (since at' : Nat) : Bool := decide (since ≤ at') && decide (at' < since + windowMs)

theorem not_within {since x y : Nat} (hxy : x + windowMs ≤ y) (hy : within since y = true) :
    within since x = false := by
  simp only [within, Bool.and_eq_true, decide_eq_true_eq, Bool.and_eq_false_iff, decide_eq_false_iff_not] at *
  omega

theorem le_sub_iff (now last : Nat) {width : Nat} (h : 0 < width) :
    width ≤ now - last ↔ last + width ≤ now := by omega

theorem Bucket.expired_iff {b : Bucket} {now : Millis} : b.expired now = true ↔ b.last + windowMs ≤ now := by
  rw [Bucket.expired, decide_eq_true_eq]
  exact le_sub_iff now b.last (by decide)

namespace Request

variable {r : Request} {k : Text} {since : Millis} {t : LoginThrottle} {now : Millis}

/-- A guess that counts against its username in the window from an instant on. -/
def counts (k : Text) (since : Millis) (r : Request) : Bool :=
  decide (r.key = k) && r.guessed && !r.forgiven && within since r.arrived

/-- A guess that counts, or may once it is verified. -/
def live (k : Text) (since : Millis) (r : Request) : Bool :=
  decide (r.key = k) && (r.guessed && !r.forgiven || r.hashes) && within since r.arrived

/-- A recorded failure that is still part of the throttle's count. -/
def held (k : Text) (r : Request) : Bool :=
  decide (r.key = k) && decide (r.phase = .failed) && !r.forgiven && !r.lapsed

end Request

namespace SignIns

open Request

/-- Of the passwords of one user that came within one window since the last sign-in, no more were
rejected than failures are allowed and permits exist. -/
def Bounded (s : SignIns) : Prop :=
  ∀ username since, s.requests.countP (counts (LoginThrottle.key username) since) ≤
    maxFailures - 1 + maxArgon2Concurrency

/-- The clock does not go back; a password is hashed only if its throttle would still let it through,
with all that was recorded since it arrived and with no rejection of the same user still to be recorded;
a failure is not recorded after that of a later arrival. -/
def InOrder (s : SignIns) : SignInStep → Prop
  | .arrive _ _ now => s.clock ≤ now
  | .tryHash i => ∀ r ∈ s.requests[i]?, r.waits = true →
      (s.throttle.allows r.username r.arrived).1 = true ∧ r.lapsed = false ∧
        ∀ q ∈ s.requests, q.key = r.key → q.phase = .rejected → q.forgiven = true
  | .settle i _ => ∀ r ∈ s.requests[i]?, r.phase = .rejected →
      ∀ b ∈ s.throttle.bucket r.username, b.last ≤ r.arrived
  | _ => True

instance InOrder.decidable (s : SignIns) : (a : SignInStep) → Decidable (s.InOrder a)
  | .arrive _ _ now => inferInstanceAs (Decidable (s.clock ≤ now))
  | .tryHash i => inferInstanceAs (Decidable (∀ r ∈ s.requests[i]?, r.waits = true →
      (s.throttle.allows r.username r.arrived).1 = true ∧ r.lapsed = false ∧
        ∀ q ∈ s.requests, q.key = r.key → q.phase = .rejected → q.forgiven = true))
  | .settle i _ => inferInstanceAs (Decidable (∀ r ∈ s.requests[i]?, r.phase = .rejected →
      ∀ b ∈ s.throttle.bucket r.username, b.last ≤ r.arrived))
  | .take _ | .lookup _ _ | .verify _ _ => .isTrue trivial

/-! ## What a step does -/

/-- The steps that are taken. -/
inductive Move (s : SignIns) : SignInStep → SignIns → Prop
  | stays (a) : Move s a s
  | arrive (u o now) : Move s (.arrive u o now) (s.arrive u o now)
  | take {i r} (hr : s.requests[i]? = some r) (hp : r.phase = .allowed) : Move s (.take i) (s.take i r)
  | lookup {i r} (answer) (hr : s.requests[i]? = some r) (hp : r.phase = .taken) :
      Move s (.lookup i answer) (s.lookup i r answer)
  | tryHash {i r known} (hr : s.requests[i]? = some r) (hp : r.phase = .found known) :
      Move s (.tryHash i) (s.tryHash i r known)
  | verify {i r known} (answer) (hr : s.requests[i]? = some r) (hp : r.phase = .hashing known) :
      Move s (.verify i answer) (s.verify i r known answer)
  | startSession {i r} (stored) (hr : s.requests[i]? = some r) (hp : r.phase = .accepted) :
      Move s (.settle i stored) (s.startSession i r stored)
  | recordFailure {i r} (stored) (hr : s.requests[i]? = some r) (hp : r.phase = .rejected) :
      Move s (.settle i stored) (s.recordFailure i r)

theorem step_move (s : SignIns) (a : SignInStep) : Move s a (s.step a) := by
  cases a with
  | arrive u o now => exact .arrive u o now
  | take i =>
      simp only [step]
      split
      · rename_i r hr
        split
        · exact .take hr ‹_›
        · exact .stays _
      · exact .stays _
  | lookup i answer =>
      simp only [step]
      split
      · rename_i r hr
        split
        · exact .lookup answer hr ‹_›
        · exact .stays _
      · exact .stays _
  | tryHash i =>
      simp only [step]
      split
      · rename_i r hr
        split
        · exact .tryHash hr ‹_›
        · exact .stays _
      · exact .stays _
  | verify i answer =>
      simp only [step]
      split
      · rename_i r hr
        split
        · exact .verify answer hr ‹_›
        · exact .stays _
      · exact .stays _
  | settle i stored =>
      simp only [step]
      split
      · rename_i r hr
        split
        · exact .startSession stored hr ‹_›
        · exact .recordFailure stored hr ‹_›
        · exact .stays _
      · exact .stays _

variable {s : SignIns} {i : Nat} {r : Request} {k : Text} {since : Millis}

/-! ## The invariant -/

/-- Permits are accounted for; the throttle counts the failures that are not forgiven and have not
lapsed, and its last failure is the latest of them; what lapsed is out of reach of every request whose
throttle's answer is up to date; and every window is within its bound. -/
structure Sound (s : SignIns) : Prop where
  permits : s.gate.hashes + s.requests.countP hashes = maxArgon2Concurrency
  arrived : ∀ r ∈ s.requests, r.arrived ≤ s.clock
  count : ∀ k b, s.throttle.buckets.get? k = some b → b.failures < maxFailures →
    s.requests.countP (held k) ≤ b.failures
  last : ∀ k, ∀ r ∈ s.requests, held k r = true →
    ∃ b, s.throttle.buckets.get? k = some b ∧ r.arrived ≤ b.last
  old : ∀ r ∈ s.requests, r.phase = .failed → r.forgiven = false → r.lapsed = true →
    r.arrived + windowMs ≤ s.clock ∧
      ∀ q ∈ s.requests, q.key = r.key → q.waits = true → q.lapsed = false → r.arrived + windowMs ≤ q.arrived
  live : ∀ k since, s.requests.countP (live k since) ≤ maxFailures - 1 + maxArgon2Concurrency

theorem start_sound : start.Sound where
  permits := rfl
  arrived := fun _ hr => absurd hr List.not_mem_nil
  count := fun _ _ _ _ => Nat.zero_le _
  last := fun _ _ hr => absurd hr List.not_mem_nil
  old := fun _ hr => absurd hr List.not_mem_nil
  live := fun _ _ => Nat.zero_le _

theorem Sound.bounded (h : s.Sound) : s.Bounded := by
  intro username since
  refine Nat.le_trans (List.countP_mono_left fun r _ hr => ?_) (h.live (LoginThrottle.key username) since)
  simp only [counts, Bool.and_eq_true] at hr
  simp only [Request.live, hr.1.1.1, hr.1.1.2, hr.1.2, hr.2, Bool.and_self, Bool.true_or]

/-! ## A request gets to another phase -/

theorem Sound.advance (h : s.Sound) (gate : AuthGate) (phase : Phase) (hr : s.requests[i]? = some r)
    (hgate : gate.hashes + (hashes { r with phase }).toNat = s.gate.hashes + r.hashes.toNat)
    (hwaits : waits { r with phase } = true → r.waits = true) (hnew : phase ≠ .failed)
    (hlive : ∀ k since, (s.requests.set i { r with phase }).countP (Request.live k since) ≤
      maxFailures - 1 + maxArgon2Concurrency) :
    Sound { s.advance i r phase with gate } where
  permits := by
    have hset := Slots.countP_set (p := hashes) (b := { r with phase }) hr
    have hpermits := h.permits
    change gate.hashes + (s.requests.set i { r with phase }).countP hashes = _
    omega
  arrived := by
    intro q hq
    rcases List.mem_or_eq_of_mem_set hq with hq | rfl
    · exact h.arrived q hq
    · exact h.arrived r (List.mem_of_getElem? hr)
  count := by
    intro k b hb hfew
    exact Nat.le_trans (Slots.countP_set_le hr (by simp [held, hnew])) (h.count k b hb hfew)
  last := by
    intro k q hq hheld
    rcases List.mem_or_eq_of_mem_set hq with hq | rfl
    · exact h.last k q hq hheld
    · simp [held, hnew] at hheld
  old := by
    intro q hq hfailed hkept hlapsed
    rcases List.mem_or_eq_of_mem_set hq with hq | rfl
    · obtain ⟨hclock, hout⟩ := h.old q hq hfailed hkept hlapsed
      refine ⟨hclock, fun p hp hkey hwait hfresh => ?_⟩
      rcases List.mem_or_eq_of_mem_set hp with hp | rfl
      · exact hout p hp hkey hwait hfresh
      · exact hout r (List.mem_of_getElem? hr) hkey (hwaits hwait) hfresh
    · exact absurd hfailed hnew
  live := hlive

/-- What was not being verified and is not after the step counts no more than before. -/
theorem Sound.live_set (h : s.Sound) {phase : Phase} (hr : s.requests[i]? = some r)
    (hle : guessed { r with phase } = true ∨ hashes { r with phase } = true → r.hashes = true) (k : Text)
    (since : Millis) : (s.requests.set i { r with phase }).countP (Request.live k since) ≤
      maxFailures - 1 + maxArgon2Concurrency := by
  refine Nat.le_trans (Slots.countP_set_le hr fun hlive => ?_) (h.live k since)
  simp only [Request.live, Bool.and_eq_true, Bool.or_eq_true] at hlive ⊢
  refine ⟨⟨hlive.1.1, .inr (hle ?_)⟩, hlive.2⟩
  rcases hlive.1.2 with hguess | hhash
  · exact .inl hguess.1
  · exact .inr hhash

theorem take_hashes (g : AuthGate) (o : IpAddr) (now : Millis) : (g.take o now).2.hashes = g.hashes := by
  simp only [AuthGate.take]
  split <;> rfl

theorem Sound.take (h : s.Sound) (hr : s.requests[i]? = some r) (hp : r.phase = .allowed) :
    (s.take i r).Sound := by
  have hhashes := take_hashes s.gate r.origin r.arrived
  simp only [SignIns.take]
  generalize s.gate.take r.origin r.arrived = taken at hhashes
  obtain ⟨taken, gate⟩ := taken
  cases taken with
  | true =>
      exact h.advance gate .taken hr (by simpa [hashes, hp] using hhashes) (by simp [waits, hp]) (by simp)
        (h.live_set hr (by simp [guessed, hashes]))
  | false =>
      exact h.advance gate .refused hr (by simpa [hashes, hp] using hhashes) (by simp [waits]) (by simp)
        (h.live_set hr (by simp [guessed, hashes]))

theorem Sound.lookup (h : s.Sound) (answer : Option Bool) (hr : s.requests[i]? = some r)
    (hp : r.phase = .taken) : (s.lookup i r answer).Sound := by
  refine h.advance s.gate _ hr ?_ (by simp [waits, hp]) (by cases answer <;> simp) (h.live_set hr ?_)
  · cases answer <;> simp [hashes, hp]
  · cases answer <;> simp [hashes, guessed]

theorem Sound.verify (h : s.Sound) {known : Bool} (answer : Option Bool) (hr : s.requests[i]? = some r)
    (hp : r.phase = .hashing known) : (s.verify i r known answer).Sound := by
  have hhash : r.hashes = true := by simp [hashes, hp]
  refine h.advance _ _ hr ?_ ?_ ?_ (h.live_set hr fun _ => hhash)
  · rw [hhash]
    cases answer with
    | none => simp [hashes, AuthGate.release]
    | some verified => cases verified <;> cases known <;> simp [hashes, AuthGate.release]
  · cases answer with
    | none => simp [waits]
    | some verified => cases verified <;> cases known <;> simp [waits]
  · cases answer with
    | none => simp
    | some verified => cases verified <;> cases known <;> simp

/-! ## A password begins to be hashed -/

/-- A throttle that lets a request through holds few failures that share a window with it. -/
theorem Sound.held_in_reach (h : s.Sound) {username : Text} {now : Millis}
    (hallows : (s.throttle.allows username now).1 = true) (hwithin : within since now = true) :
    s.requests.countP (fun q => held (LoginThrottle.key username) q && within since q.arrived) ≤
      maxFailures - 1 := by
  have hnone (hout : ∀ q ∈ s.requests, held (LoginThrottle.key username) q = true →
      within since q.arrived = false) :
      s.requests.countP (fun q => held (LoginThrottle.key username) q && within since q.arrived) ≤
        maxFailures - 1 := by
    rw [List.countP_eq_zero.mpr fun q hq hboth => by
      simp only [Bool.and_eq_true] at hboth
      simp [hout q hq hboth.1] at hboth]
    exact Nat.zero_le _
  cases hb : s.throttle.bucket username with
  | none =>
      refine hnone fun q hq hheld => ?_
      obtain ⟨b, hb', -⟩ := h.last _ q hq hheld
      rw [LoginThrottle.bucket, hb'] at hb
      cases hb
  | some b =>
      by_cases hexp : b.expired now = true
      · refine hnone fun q hq hheld => ?_
        obtain ⟨b', hb', hle⟩ := h.last _ q hq hheld
        obtain rfl : b' = b := Option.some.inj (hb'.symm.trans hb)
        exact not_within (Nat.le_trans (Nat.add_le_add_right hle _) (Bucket.expired_iff.mp hexp)) hwithin
      · have hfew : b.failures < maxFailures := by
          simpa [LoginThrottle.allows, hb, hexp] using hallows
        refine Nat.le_trans (List.countP_mono_left fun q _ hq => ?_)
          (Nat.le_trans (h.count _ b hb hfew) (Nat.le_pred_of_lt hfew))
        simp only [Bool.and_eq_true] at hq
        exact hq.1

theorem Sound.live_tryHash (h : s.Sound) {known : Bool} (hr : s.requests[i]? = some r)
    (hp : r.phase = .found known) (hpermit : 0 < s.gate.hashes) (horder : s.InOrder (.tryHash i)) (k : Text)
    (since : Millis) : (s.requests.set i { r with phase := .hashing known }).countP (Request.live k since) ≤
      maxFailures - 1 + maxArgon2Concurrency := by
  by_cases hin : r.key = k ∧ within since r.arrived = true
  · obtain ⟨rfl, hwithin⟩ := hin
    obtain ⟨hallows, hfresh, hrecorded⟩ := horder r hr (by simp [waits, hp])
    have hmem := List.mem_of_getElem? hr
    -- What counts in the window of the request is held by the throttle, or is being hashed.
    have hsplit := Slots.countP_le_add (l := s.requests.set i { r with phase := .hashing known })
      (p := Request.live r.key since) (q := fun q => held r.key q && within since q.arrived) (r := hashes)
      (by
        intro q hq hlive
        simp only [Request.live, Bool.and_eq_true, Bool.or_eq_true, decide_eq_true_eq] at hlive
        obtain ⟨⟨hkey, hguess | hhash⟩, hqin⟩ := hlive
        · rcases List.mem_or_eq_of_mem_set hq with hq | rfl
          · obtain ⟨hguess, hkept⟩ := hguess
            have hkept' : q.forgiven = false := by simpa using hkept
            have hfailed : q.phase = .failed := by
              cases hphase : q.phase with
              | rejected =>
                  rw [hrecorded q hq hkey hphase] at hkept'
                  cases hkept'
              | failed => rfl
              | _ => simp [guessed, hphase] at hguess
            have hcounted : q.lapsed = false := by
              by_contra hlapsed
              have hout := (h.old q hq hfailed hkept' (by simpa using hlapsed)).2 r hmem hkey.symm
                (by simp [waits, hp]) hfresh
              rw [not_within hout hwithin] at hqin
              cases hqin
            exact .inl (by simp [held, hkey, hfailed, hkept', hcounted, hqin])
          · simp [guessed] at hguess
        · exact .inr hhash)
    have hheld : (s.requests.set i { r with phase := .hashing known }).countP
        (fun q => held r.key q && within since q.arrived) ≤ maxFailures - 1 :=
      Nat.le_trans (Slots.countP_set_le hr (by simp [held])) (h.held_in_reach hallows hwithin)
    have hhashes := Slots.countP_set (p := hashes) (b := { r with phase := .hashing known }) hr
    have hpermits := h.permits
    simp only [hashes, hp, Bool.toNat_true, Bool.toNat_false] at hhashes
    omega
  · refine Nat.le_trans (Slots.countP_set_le hr fun hlive => ?_) (h.live k since)
    simp only [Request.live, Bool.and_eq_true, decide_eq_true_eq] at hlive
    exact absurd ⟨hlive.1.1, hlive.2⟩ hin

theorem Sound.tryHash (h : s.Sound) {known : Bool} (hr : s.requests[i]? = some r)
    (hp : r.phase = .found known) (horder : s.InOrder (.tryHash i)) : (s.tryHash i r known).Sound := by
  by_cases hpermit : 0 < s.gate.hashes
  · simp only [SignIns.tryHash, AuthGate.tryHash, hpermit, if_true]
    refine h.advance _ _ hr ?_ (by simp [waits]) (by simp) (h.live_tryHash hr hp hpermit horder)
    simp only [hashes, hp, Bool.toNat_true, Bool.toNat_false]
    omega
  · simp only [SignIns.tryHash, AuthGate.tryHash, hpermit, if_false]
    exact h.advance s.gate .refused hr (by simp [hashes, hp]) (by simp [waits]) (by simp)
      (h.live_set hr (by simp [guessed, hashes]))

/-! ## Time passes -/

/-- What is held after time passed was held before, in a bucket that has not expired. -/
theorem held_age {t : LoginThrottle} {now : Millis} (hheld : held k (age t now r) = true) :
    held k r = true ∧ ∀ b, t.buckets.get? k = some b → b.expired now = false := by
  have hall : (decide (r.key = k) && decide (r.phase = .failed) && !r.forgiven &&
      !(r.lapsed || (t.bucket r.username).any (·.expired now))) = true := hheld
  simp only [Bool.and_eq_true, decide_eq_true_eq, Bool.not_eq_true', Bool.or_eq_false_iff] at hall
  obtain ⟨⟨⟨hkey, hphase⟩, hkept⟩, hlapsed, hopen⟩ := hall
  refine ⟨by simp [held, hkey, hphase, hkept, hlapsed], fun b hb => ?_⟩
  have hbucket : t.bucket r.username = some b := by
    rw [LoginThrottle.bucket, ← hb, ← hkey]
    rfl
  simpa [hbucket] using hopen

/-- What lapses now was recorded at least a window ago, and its bucket has expired. -/
theorem Sound.lapses (h : s.Sound) {now : Millis} (hr : r ∈ s.requests) (hheld : held r.key r = true)
    (hlapsed : (age s.throttle now r).lapsed = true) :
    r.arrived + windowMs ≤ now ∧
      ∃ b, s.throttle.buckets.get? r.key = some b ∧ b.expired now = true := by
  obtain ⟨b, hb, hle⟩ := h.last r.key r hr hheld
  have hbefore : r.lapsed = false := by
    simp only [held, Bool.and_eq_true, Bool.not_eq_true'] at hheld
    exact hheld.2
  have hexpired : b.expired now = true := by
    have hbucket : s.throttle.bucket r.username = some b := hb
    simpa [age, hbefore, hbucket] using hlapsed
  exact ⟨Nat.le_trans (Nat.add_le_add_right hle windowMs) (Bucket.expired_iff.mp hexpired), b, hb, hexpired⟩

theorem Sound.aged (h : s.Sound) (now : Millis) {clock : Millis} {t : LoginThrottle} (hnow : now ≤ clock)
    (hclock : s.clock ≤ clock)
    (hkept : ∀ k b, t.buckets.get? k = some b → s.throttle.buckets.get? k = some b)
    (hopen : ∀ k b, s.throttle.buckets.get? k = some b → b.expired now = false →
      t.buckets.get? k = some b) :
    Sound { s with throttle := t, clock, requests := s.requests.map (.age s.throttle now) } where
  permits := by
    rw [List.countP_map]
    exact h.permits
  arrived := by
    intro q hq
    obtain ⟨r, hr, rfl⟩ := List.mem_map.mp hq
    exact Nat.le_trans (h.arrived r hr) hclock
  count := by
    intro k b hb hfew
    rw [List.countP_map]
    exact Nat.le_trans (List.countP_mono_left fun r _ hheld => (held_age hheld).1)
      (h.count k b (hkept k b hb) hfew)
  last := by
    intro k q hq hheld
    obtain ⟨r, hr, rfl⟩ := List.mem_map.mp hq
    obtain ⟨hheld, hlive⟩ := held_age hheld
    obtain ⟨b, hb, hle⟩ := h.last k r hr hheld
    exact ⟨b, hopen k b hb (hlive b hb), hle⟩
  old := by
    intro q hq hfailed hforgiven hlapsed
    obtain ⟨r, hr, rfl⟩ := List.mem_map.mp hq
    cases hbefore : r.lapsed with
    | true =>
        obtain ⟨hold, hout⟩ := h.old r hr hfailed hforgiven hbefore
        refine ⟨Nat.le_trans hold hclock, fun p hp hkey hwait hfresh => ?_⟩
        obtain ⟨q, hq, rfl⟩ := List.mem_map.mp hp
        simp only [age, Bool.or_eq_false_iff] at hfresh
        exact hout q hq hkey hwait hfresh.1
    | false =>
        -- It lapses now: so does what the throttle answered to every request of its user.
        have hheld : held r.key r = true := by
          have hphase : r.phase = .failed := hfailed
          have hkept : r.forgiven = false := hforgiven
          simp [held, hbefore, hphase, hkept]
        obtain ⟨hout, b, hb, hexpired⟩ := h.lapses hr hheld hlapsed
        refine ⟨Nat.le_trans hout hnow, fun p hp hkey hwait hfresh => ?_⟩
        obtain ⟨q, hq, rfl⟩ := List.mem_map.mp hp
        have hbucket : s.throttle.bucket q.username = some b := by
          rw [← hb, ← show q.key = r.key from hkey]
          rfl
        simp [age, hbucket, hexpired] at hfresh
  live := by
    intro k since
    rw [List.countP_map]
    exact h.live k since

theorem Sound.joined (h : s.Sound) (hclock : r.arrived = s.clock) (hidle : r.hashes = false)
    (hfresh : r.guessed = false) : Sound { s with requests := s.requests ++ [r] } where
  permits := by
    rw [List.countP_append, List.countP_singleton, hidle]
    exact h.permits
  arrived := by
    intro q hq
    rcases List.mem_append.mp hq with hq | hq
    · exact h.arrived q hq
    · rw [List.mem_singleton.mp hq]
      exact Nat.le_of_eq hclock
  count := by
    intro k b hb hfew
    have hheld : held k r = false := by
      cases hphase : r.phase <;> simp_all [held, guessed]
    rw [List.countP_append, List.countP_singleton, hheld]
    exact h.count k b hb hfew
  last := by
    intro k q hq hheld
    rcases List.mem_append.mp hq with hq | hq
    · exact h.last k q hq hheld
    · rw [List.mem_singleton.mp hq] at hheld
      cases hphase : r.phase <;> simp_all [held, guessed]
  old := by
    intro q hq hfailed hforgiven hlapsed
    rcases List.mem_append.mp hq with hq | hq
    · obtain ⟨hold, hout⟩ := h.old q hq hfailed hforgiven hlapsed
      refine ⟨hold, fun p hp hkey hwait hpfresh => ?_⟩
      rcases List.mem_append.mp hp with hp | hp
      · exact hout p hp hkey hwait hpfresh
      · rw [List.mem_singleton.mp hp, hclock]
        exact hold
    · rw [List.mem_singleton.mp hq] at hfailed
      simp [guessed, hfailed] at hfresh
  live := by
    intro k since
    rw [List.countP_append, List.countP_singleton]
    simpa [Request.live, hidle, hfresh] using h.live k since

/-! ## Arrivals and answers -/

theorem allows_kept {t : LoginThrottle} {username : Text} {now : Millis} {b : Bucket}
    (h : (t.allows username now).2.buckets.get? k = some b) : t.buckets.get? k = some b := by
  simp only [LoginThrottle.allows] at h
  split at h
  · split at h
    · rw [Dict.erase, Dict.get?_retain, Option.filter_eq_some_iff] at h
      exact h.1
    · exact h
  · exact h

theorem allows_open {t : LoginThrottle} (username : Text) {now : Millis} {b : Bucket}
    (h : t.buckets.get? k = some b) (hopen : b.expired now = false) :
    (t.allows username now).2.buckets.get? k = some b := by
  simp only [LoginThrottle.allows]
  split
  · rename_i b' hb'
    split
    · rename_i hexpired
      by_cases hk : k = LoginThrottle.key username
      · subst hk
        obtain rfl : b' = b := Option.some.inj (hb'.symm.trans h)
        rw [hexpired] at hopen
        cases hopen
      · rw [Dict.get?_erase_ne hk]
        exact h
    · exact h
  · exact h

theorem Sound.arrive (h : s.Sound) {username : Text} {origin : IpAddr} {now : Millis}
    (horder : s.InOrder (.arrive username origin now)) : (s.arrive username origin now).Sound := by
  have haged := h.aged now (Nat.le_refl now) horder (fun _ _ => allows_kept)
    (fun _ _ => allows_open username)
  simp only [SignIns.arrive]
  cases hallowed : (s.throttle.allows username now).1 with
  | true => exact haged.joined (r := ⟨username, origin, now, .allowed, false, false⟩) rfl rfl rfl
  | false => exact haged.joined (r := ⟨username, origin, now, .refused, false, false⟩) rfl rfl rfl

/-! ## A sign-in succeeds -/

/-- What is held after a user signed in was held before, against somebody else. -/
theorem held_forgive {j : Text} (hheld : held j (forgive k r) = true) : j ≠ k ∧ held j r = true := by
  have hall : (decide (r.key = j) && decide (r.phase = .failed) &&
      !(r.forgiven || (decide (r.key = k) && r.guessed)) && !r.lapsed) = true := hheld
  simp only [Bool.and_eq_true, decide_eq_true_eq, Bool.not_eq_true', Bool.or_eq_false_iff,
    Bool.and_eq_false_iff, decide_eq_false_iff_not] at hall
  obtain ⟨⟨⟨hkey, hphase⟩, hkept, hother⟩, hlapsed⟩ := hall
  refine ⟨?_, by simp [held, hkey, hphase, hkept, hlapsed]⟩
  rcases hother with hne | hguess
  · exact fun heq => hne (hkey.trans heq)
  · simp [guessed, hphase] at hguess

/-- A user's count is cleared, and the guesses made at it do not count any more. -/
theorem Sound.cleared (h : s.Sound) (k : Text) : Sound { s with
    throttle := ⟨s.throttle.buckets.erase k⟩, requests := s.requests.map (.forgive k) } where
  permits := by
    rw [List.countP_map]
    exact h.permits
  arrived := by
    intro q hq
    obtain ⟨r, hr, rfl⟩ := List.mem_map.mp hq
    exact h.arrived r hr
  count := by
    intro j b hb hfew
    by_cases hj : j = k
    · subst hj
      rw [Dict.get?_erase_self] at hb
      cases hb
    · rw [Dict.get?_erase_ne hj] at hb
      rw [List.countP_map]
      exact Nat.le_trans (List.countP_mono_left fun r _ hheld => (held_forgive hheld).2) (h.count j b hb hfew)
  last := by
    intro j q hq hheld
    obtain ⟨r, hr, rfl⟩ := List.mem_map.mp hq
    obtain ⟨hj, hheld⟩ := held_forgive hheld
    obtain ⟨b, hb, hle⟩ := h.last j r hr hheld
    exact ⟨b, by rwa [Dict.get?_erase_ne hj], hle⟩
  old := by
    intro q hq hfailed hforgiven hlapsed
    obtain ⟨r, hr, rfl⟩ := List.mem_map.mp hq
    simp only [forgive, Bool.or_eq_false_iff] at hforgiven
    obtain ⟨hold, hout⟩ := h.old r hr hfailed hforgiven.1 hlapsed
    refine ⟨hold, fun p hp hkey hwait hfresh => ?_⟩
    obtain ⟨q, hq, rfl⟩ := List.mem_map.mp hp
    exact hout q hq hkey hwait hfresh
  live := by
    intro j since
    rw [List.countP_map]
    refine Nat.le_trans (List.countP_mono_left fun r _ hlive => ?_) (h.live j since)
    simp only [Function.comp_apply, Request.live, forgive, Bool.and_eq_true, Bool.or_eq_true,
      Bool.not_eq_true', Bool.or_eq_false_iff] at hlive ⊢
    exact ⟨⟨hlive.1.1, hlive.1.2.imp (fun hguess => ⟨hguess.1, hguess.2.1⟩) id⟩, hlive.2⟩

theorem Sound.startSession (h : s.Sound) (stored : Bool) (hr : s.requests[i]? = some r)
    (hp : r.phase = .accepted) : (s.startSession i r stored).Sound := by
  have hadvanced (phase : Phase) (hphase : phase = .signedIn ∨ phase = .refused) :
      Sound (s.advance i r phase) := by
    refine h.advance s.gate phase hr ?_ ?_ ?_ (h.live_set hr ?_) <;>
      rcases hphase with rfl | rfl <;> simp [hashes, waits, guessed, hp]
  cases stored with
  | false => exact hadvanced .refused (.inr rfl)
  | true => exact (hadvanced .signedIn (.inl rfl)).cleared r.key

/-! ## A failure is recorded -/

/-- A throttle that counts few failures of a user counts all that are held. -/
theorem Sound.held_le (h : s.Sound) (k : Text) (now : Millis)
    (hfew : ((s.throttle.buckets.get? k).getD ⟨0, now⟩).failures < maxFailures) :
    s.requests.countP (held k) ≤ ((s.throttle.buckets.get? k).getD ⟨0, now⟩).failures := by
  cases hget : s.throttle.buckets.get? k with
  | none =>
      rw [List.countP_eq_zero.mpr fun q hq hheld => ?_]
      · exact Nat.zero_le _
      · obtain ⟨b, hb, -⟩ := h.last k q hq hheld
        rw [hget] at hb
        cases hb
  | some b =>
      rw [hget] at hfew
      exact h.count k b hget hfew

theorem Sound.recorded (h : s.Sound) (hr : s.requests[i]? = some r) (hp : r.phase = .rejected)
    (horder : ∀ b, s.throttle.buckets.get? r.key = some b → b.last ≤ r.arrived) : Sound { s with
      throttle := ⟨s.throttle.buckets.put r.key
        ⟨satAdd32 ((s.throttle.buckets.get? r.key).getD ⟨0, r.arrived⟩).failures 1, r.arrived⟩⟩
      requests := s.requests.set i { r with phase := .failed, lapsed := false } } where
  permits := by
    have hset := Slots.countP_set (p := hashes) (b := { r with phase := .failed, lapsed := false }) hr
    have hpermits := h.permits
    simp only [hashes, hp, Bool.toNat_false] at hset
    change s.gate.hashes + (s.requests.set i _).countP hashes = _
    omega
  arrived := by
    intro q hq
    rcases List.mem_or_eq_of_mem_set hq with hq | rfl
    · exact h.arrived q hq
    · exact h.arrived r (List.mem_of_getElem? hr)
  count := by
    intro k b hb hfew
    have hset := Slots.countP_set (p := held k) (b := { r with phase := .failed, lapsed := false }) hr
    by_cases hk : k = r.key
    · subst hk
      rw [Dict.get?_put_self] at hb
      cases hb
      have hone := Bool.toNat_le (held r.key { r with phase := .failed, lapsed := false })
      have hbefore := h.held_le r.key r.arrived (by
        simp only [satAdd32, maxFailures] at hfew ⊢
        omega)
      simp only [satAdd32, maxFailures] at hfew ⊢
      omega
    · rw [Dict.get?_put_ne hk] at hb
      have hother : held k { r with phase := .failed, lapsed := false } = false := by
        have hne : ¬ r.key = k := fun heq => hk heq.symm
        simp [held, show ({ r with phase := .failed, lapsed := false } : Request).key = r.key from rfl, hne]
      rw [hother] at hset
      exact Nat.le_trans (Nat.le_trans (Nat.le_add_right _ _) (Nat.le_of_eq hset)) (h.count k b hb hfew)
  last := by
    intro k q hq hheld
    have hkey : q.key = k := by
      simp only [held, Bool.and_eq_true, decide_eq_true_eq] at hheld
      exact hheld.1.1.1
    rcases List.mem_or_eq_of_mem_set hq with hq | rfl
    · obtain ⟨b, hb, hle⟩ := h.last k q hq hheld
      by_cases hk : k = r.key
      · subst hk
        exact ⟨_, Dict.get?_put_self, Nat.le_trans hle (horder b hb)⟩
      · exact ⟨b, by rwa [Dict.get?_put_ne hk], hle⟩
    · subst hkey
      exact ⟨_, Dict.get?_put_self, Nat.le_refl _⟩
  old := by
    intro q hq hfailed hforgiven hlapsed
    rcases List.mem_or_eq_of_mem_set hq with hq | rfl
    · obtain ⟨hold, hout⟩ := h.old q hq hfailed hforgiven hlapsed
      refine ⟨hold, fun p hpm hkey hwait hfresh => ?_⟩
      rcases List.mem_or_eq_of_mem_set hpm with hpm | rfl
      · exact hout p hpm hkey hwait hfresh
      · cases hwait
    · cases hlapsed
  live := by
    intro k since
    refine Nat.le_trans (Slots.countP_set_le hr fun hlive => ?_) (h.live k since)
    simp only [Request.live, guessed, hashes, hp] at hlive ⊢
    exact hlive

theorem Sound.recordFailure (h : s.Sound) (hr : s.requests[i]? = some r) (hp : r.phase = .rejected)
    (horder : ∀ b ∈ s.throttle.bucket r.username, b.last ≤ r.arrived) : (s.recordFailure i r).Sound := by
  have hkept (k : Text) (b : Bucket) : (s.throttle.buckets.retain fun _ bucket =>
      !bucket.expired r.arrived).get? k = some b ↔
        s.throttle.buckets.get? k = some b ∧ b.expired r.arrived = false := by
    rw [Dict.get?_retain, Option.filter_eq_some_iff, Bool.not_eq_true']
  have haged := h.aged r.arrived (h.arrived r (List.mem_of_getElem? hr)) (Nat.le_refl _)
    (fun k b hb => ((hkept k b).mp hb).1) (fun k b hb hopen => (hkept k b).mpr ⟨hb, hopen⟩)
  have hslot : (s.requests.map (.age s.throttle r.arrived))[i]? = some (r.age s.throttle r.arrived) := by
    rw [List.getElem?_map, hr]
    rfl
  exact haged.recorded (r := r.age s.throttle r.arrived) hslot hp fun b hb => horder b ((hkept _ b).mp hb).1

/-! ## Runs -/

theorem Sound.step (h : s.Sound) {a : SignInStep} (horder : s.InOrder a) : (s.step a).Sound := by
  have hmove := step_move s a
  generalize s.step a = s' at hmove
  cases hmove with
  | stays => exact h
  | arrive u o now => exact h.arrive horder
  | take hr hp => exact h.take hr hp
  | lookup answer hr hp => exact h.lookup answer hr hp
  | tryHash hr hp => exact h.tryHash hr hp horder
  | verify answer hr hp => exact h.verify answer hr hp
  | startSession stored hr hp => exact h.startSession stored hr hp
  | recordFailure stored hr hp => exact h.recordFailure hr hp (horder _ hr hp)

/-- While everything is in order, the guesses at a username stay bounded. -/
theorem guesses_bounded (steps : List SignInStep) (horder : Run.AllSteps step InOrder start steps) :
    ∀ s ∈ Run.visited step start steps, s.Bounded := fun s hs =>
  (Run.invariant (fun _ _ hsound hstep => hsound.step hstep) start_sound horder s hs).bounded

/-- A sign-in that gets as far as its hash. -/
def arriveSteps (i : Nat) (now : Millis) : List SignInStep :=
  [.arrive "alice".toList (.v4 1) now, .take i, .lookup i (some true)]

/-- Four sign-ins are hashed side by side, rejected and recorded in their order, and a fifth after them
has the right password. -/
def overlappingSteps : List SignInStep :=
  (List.range 4).flatMap (fun i => arriveSteps i i) ++ (List.range 4).map .tryHash ++
    (List.range 4).map (.verify · (some false)) ++ (List.range 4).map (.settle · true) ++
      arriveSteps 4 4 ++ [.tryHash 4, .verify 4 (some true), .settle 4 true]

theorem overlapping_guesses_bounded :
    (∀ s ∈ Run.visited step start overlappingSteps, s.Bounded) ∧
      (Run.final step start overlappingSteps).requests.map Request.phase =
        [.failed, .failed, .failed, .failed, .signedIn] := by
  have horder : Run.AllSteps step InOrder start overlappingSteps := by decide
  exact ⟨guesses_bounded _ horder, by decide⟩

/-- Twelve requests pass the throttle before the first of them is hashed; then one is hashed after the
other. -/
def crowdSteps : List SignInStep :=
  (List.range 12).flatMap (fun i => arriveSteps i 0) ++
    (List.range 12).flatMap fun i => [.tryHash i, .verify i (some false), .settle i true]

theorem crowd_guesses_twelve_times :
    ¬ ∀ s ∈ Run.visited step start crowdSteps, s.Bounded := by
  intro h
  have hlast := h _ (Run.final_mem_visited start crowdSteps) "alice".toList 0
  revert hlast
  decide +kernel

end SignIns

end Gavel.Web
