import Gavel.Cluster.Theorems.Framing
import Gavel.Cluster.Theorems.Slices

/-!
# When a worker wakes

The time a worker sleeps and what a poll does are computed apart from the same fields. Nothing is due
before the wake-up, something is at it, and a worker that names no wake-up has nothing to say.
-/

namespace Gavel.Cluster

/-- What is left of a computation: the candidates still to check, and the report of their count. -/
def Work.left : Work → Nat
  | .ready _ | .produced _ _ => 0
  | .primes _ _ stop cursor _ => stop - cursor + 1

/-- The end of a range is a 64-bit number. -/
def Work.InRange : Work → Prop
  | .ready _ | .produced _ _ => True
  | .primes _ _ stop _ _ => stop ≤ u64Max

/-- The numbers of an assigned task fit their fields. -/
def AgentCall.InRange : AgentCall → Prop
  | .handle (.assign _ wire) _ => wire.toTaskSpec.InRange
  | _ => True

def AgentCall.isHandle : AgentCall → Bool
  | .handle _ _ => true
  | .poll _ | .setFreeMemory _ => false

namespace Work

variable {work : Work}

theorem advance_of_left (h : work.left = 0) : work.advance = work := by
  cases work with
  | primes => simp [left] at h
  | ready | produced => rfl

theorem advance_left (hrange : work.InRange) (h : work.left ≠ 0) : work.advance.left < work.left := by
  cases work with
  | ready | produced => exact absurd rfl h
  | primes node start stop cursor found =>
      simp only [InRange] at hrange
      simp only [advance]
      split
      · exact Nat.succ_pos _
      · rename_i hnext
        simp only [satAdd, computeSlice] at hnext
        simp only [left, satAdd, computeSlice]
        omega

theorem advance_inRange (h : work.InRange) : work.advance.InRange := by
  cases work with
  | ready | produced => trivial
  | primes node start stop cursor found =>
      simp only [InRange] at h
      unfold advance
      dsimp only
      split
      · trivial
      · simpa only [InRange] using h

end Work

namespace Running

variable {r : Running} {now : Millis}

theorem isDue_iff : r.isDue now = true ↔ r.work.left = 0 ∧ r.readyAt ≤ now := by
  cases hw : r.work <;> simp [isDue, hw, Work.left]

theorem results_of_due (h : r.isDue now = true) : r.results ≠ [] := by
  unfold results
  split
  · simp
  · split <;> simp
  · simp_all [isDue]

end Running

namespace Agent

variable {a b : Agent} {now t : Millis} {w : Nat}

/-! ## What a poll does, and when -/

/-- Whether heartbeats are sent at all. -/
def beats (a : Agent) : Bool := a.joined && !a.heartbeatPaused

/-- A task that is held has been taken further: there is less left of it. -/
def Advances (a b : Agent) : Prop :=
  ∃ r s, a.running = some r ∧ b.running = some s ∧ s.id = r.id ∧ s.work.left < r.work.left

theorem beat_early (h : a.beats = true → t < a.nextHeartbeat) : a.beat t = ([], a) := by
  unfold beat
  split
  · split
    · rename_i hdue
      simp only [Bool.and_eq_true, decide_eq_true_eq] at hdue
      have hearly := h (by simpa [beats] using hdue.1)
      exact absurd hdue.2 (Nat.not_le.mpr hearly)
    · rfl
  · rfl

theorem beat_due (hid : a.id ≠ none) (hbeats : a.beats = true) (h : a.nextHeartbeat ≤ t) :
    sends (a.beat t).1 ≠ [] := by
  obtain ⟨node, hid⟩ := Option.ne_none_iff_exists'.mp hid
  simp only [beats] at hbeats
  simp [beat, hid, hbeats, h]

theorem finish_early (h : ∀ r, a.running = some r → r.isDue t = false) : a.finish t = ([], a) := by
  unfold finish
  cases hr : a.running with
  | none => rfl
  | some r => simp [h r hr]

theorem finish_due {r : Running} (hr : a.running = some r) (h : r.isDue t = true) :
    sends (a.finish t).1 ≠ [] := by
  simpa [finish, hr, h] using Running.results_of_due h

theorem finish_frame (a : Agent) (t : Millis) :
    (a.finish t).2 = { a with running := (a.finish t).2.running } := by
  unfold finish
  split
  · split <;> rfl
  · rfl

theorem beat_only (a : Agent) (t : Millis) :
    (a.beat t).2 = { a with nextHeartbeat := (a.beat t).2.nextHeartbeat } := by
  unfold beat
  split
  · split <;> rfl
  · rfl

theorem sends_poll (a : Agent) (t : Millis) :
    let advanced := { a with running := a.running.map Running.advanced }
    sends (a.poll t).1 =
      sends (advanced.finish t).1 ++ sends ((advanced.finish t).2.beat t).1 := by
  simp only [poll, sends_append, sends_wakeIn, List.append_nil]

/-- Nothing is due: no computation, no result, no heartbeat. -/
structure Quiet (a : Agent) (t : Millis) : Prop where
  idle : ∀ r, a.running = some r → r.work.left = 0
  unready : ∀ r, a.running = some r → t < r.readyAt
  unbeaten : a.beats = true → t < a.nextHeartbeat

theorem Quiet.poll (h : a.Quiet t) : sends (a.poll t).1 = [] ∧ (a.poll t).2 = a := by
  have hsame : a.running.map Running.advanced = a.running := by
    cases hr : a.running with
    | none => rfl
    | some r => simp [Running.advanced, Work.advance_of_left (h.idle r hr)]
  have hadv : { a with running := a.running.map Running.advanced } = a := by rw [hsame]
  have hfinish : a.finish t = ([], a) := by
    refine finish_early fun r hr => ?_
    rw [Bool.eq_false_iff, Ne, Running.isDue_iff]
    exact fun hdue => Nat.not_le.mpr (h.unready r hr) hdue.2
  have hbeat : a.beat t = ([], a) := beat_early h.unbeaten
  constructor
  · simp [sends_poll, hadv, hfinish, hbeat]
  · simp [Agent.poll, hadv, hfinish, hbeat]

/-! ## The wake-up -/

/-- What is left of the sleep on account of the next heartbeat. -/
def heartbeatWake (a : Agent) (now : Millis) : Option Nat :=
  if a.beats then some (a.nextHeartbeat - now) else none

/-- What is left of the sleep on account of the task. -/
def taskWake (a : Agent) (now : Millis) : Option Nat :=
  a.running.map fun r => if r.work.left = 0 then r.readyAt - now else 0

theorem nextWakeMs_eq (a : Agent) (now : Millis) :
    a.nextWakeMs now = Option.merge min (a.heartbeatWake now) (a.taskWake now) := by
  unfold nextWakeMs heartbeatWake taskWake beats
  cases a.joined && !a.heartbeatPaused <;> cases a.running with
  | none => rfl
  | some r =>
      obtain ⟨id, readyAt, work⟩ := r
      cases work <;> rfl

theorem nextWakeMs_none (h : a.nextWakeMs now = none) : a.beats = false ∧ a.running = none := by
  rw [nextWakeMs_eq, heartbeatWake, taskWake] at h
  cases hbeats : a.beats <;> cases hr : a.running <;> simp_all [Option.merge]

/-- A wake-up is one of its two parts, and no later than the other. -/
theorem nextWakeMs_some (h : a.nextWakeMs now = some w) :
    (a.heartbeatWake now = some w ∨ a.taskWake now = some w) ∧
      (∀ v, a.heartbeatWake now = some v → w ≤ v) ∧ ∀ v, a.taskWake now = some v → w ≤ v := by
  rw [nextWakeMs_eq] at h
  cases hheart : a.heartbeatWake now with
  | none =>
      cases htask : a.taskWake now with
      | none => simp [hheart, htask] at h
      | some v =>
          obtain rfl : v = w := by simpa [hheart, htask] using h
          simp
  | some u =>
      cases htask : a.taskWake now with
      | none =>
          obtain rfl : u = w := by simpa [hheart, htask] using h
          simp
      | some v =>
          obtain rfl : min u v = w := by simpa [hheart, htask] using h
          refine ⟨?_, ?_, ?_⟩
          · exact (min_choice u v).imp (congrArg some ·.symm) (congrArg some ·.symm)
          · rintro x ⟨⟩
            exact Nat.min_le_left _ _
          · rintro x ⟨⟩
            exact Nat.min_le_right _ _

theorem lt_of_asleep {now t w due : Nat} (hle : now ≤ t) (ht : t < now + w) (hw : w ≤ due - now) :
    t < due := by
  omega

/-- The sleep is a sleep: nothing is due before it ends. -/
theorem quiet_before_wake (h : a.nextWakeMs now = some w) (hle : now ≤ t) (ht : t < now + w) :
    a.Quiet t := by
  obtain ⟨-, hheart, htask⟩ := nextWakeMs_some h
  have hpos : w ≠ 0 := by
    rintro rfl
    exact Nat.not_lt.mpr hle ht
  have hidle : ∀ r, a.running = some r → r.work.left = 0 := by
    intro r hr
    by_contra hleft
    exact hpos (Nat.le_zero.mp (htask 0 (by simp [taskWake, hr, hleft])))
  refine ⟨hidle, fun r hr => ?_, fun hbeats => ?_⟩
  · exact lt_of_asleep hle ht (htask _ (by simp [taskWake, hr, hidle r hr]))
  · exact lt_of_asleep hle ht (hheart _ (by simp [heartbeatWake, hbeats]))

/-- A worker that names no wake-up has nothing due at any time. -/
theorem quiet_of_none (h : a.nextWakeMs now = none) (t : Millis) : a.Quiet t := by
  obtain ⟨hbeats, hr⟩ := nextWakeMs_none h
  exact ⟨by simp [hr], by simp [hr], by simp [hbeats]⟩

/-- What holds of a worker in every state: it was named when it was greeted, and the computation it
holds has an end it can reach. -/
structure Steady (a : Agent) : Prop where
  named : a.joined = true → a.id ≠ none
  within : ∀ r, a.running = some r → r.work.InRange

theorem sends_at_heartbeat (hs : a.Steady) (hbeats : a.beats = true) (h : a.nextHeartbeat ≤ t) :
    sends (a.poll t).1 ≠ [] := by
  have hjoined : a.joined = true := by
    simp only [beats, Bool.and_eq_true] at hbeats
    exact hbeats.1
  rw [sends_poll]
  apply List.append_ne_nil_of_right_ne_nil
  rw [finish_frame]
  exact beat_due (hs.named hjoined) hbeats h

/-- A task whose time has come is reported or taken further. -/
theorem acts_on_task {r : Running} (hs : a.Steady) (hr : a.running = some r)
    (h : r.work.left = 0 → r.readyAt ≤ t) :
    sends (a.poll t).1 ≠ [] ∨ a.Advances (a.poll t).2 := by
  have hadv : { a with running := a.running.map Running.advanced }.running = some r.advanced := by
    simp [hr]
  cases hdue : r.advanced.isDue t with
  | true =>
      left
      rw [sends_poll]
      exact List.append_ne_nil_of_left_ne_nil (finish_due hadv hdue) _
  | false =>
      have hleft : r.work.left ≠ 0 := by
        intro hzero
        have hsame : r.advanced = r := by simp [Running.advanced, Work.advance_of_left hzero]
        rw [hsame, Bool.eq_false_iff, Ne, Running.isDue_iff] at hdue
        exact hdue ⟨hzero, h hzero⟩
      have hpoll := poll_running hr 0 t
      simp only [hdue, Bool.false_eq_true, if_false] at hpoll
      exact .inr ⟨r, r.advanced, hr, hpoll.1, rfl, Work.advance_left (hs.within r hr) hleft⟩

theorem acts_at_wake (hs : a.Steady) (h : a.nextWakeMs now = some w) :
    sends (a.poll (now + w)).1 ≠ [] ∨ a.Advances (a.poll (now + w)).2 := by
  rcases (nextWakeMs_some h).1 with hheart | htask
  · unfold heartbeatWake at hheart
    split at hheart
    · rename_i hbeats
      cases hheart
      exact .inl (sends_at_heartbeat hs hbeats le_add_tsub)
    · cases hheart
  · obtain ⟨r, hr, hw⟩ := Option.map_eq_some_iff.mp htask
    refine acts_on_task hs hr fun hleft => ?_
    rw [if_pos hleft] at hw
    exact hw ▸ le_add_tsub

/-! ## Every state a worker reaches -/

theorem poll_frame (a : Agent) (t : Millis) :
    (a.poll t).2.joined = a.joined ∧ (a.poll t).2.id = a.id := by
  simp only [poll]
  rw [beat_only, finish_frame]
  exact ⟨rfl, rfl⟩

theorem Steady.poll (hs : a.Steady) (t : Millis) : (a.poll t).2.Steady := by
  obtain ⟨hjoined, hid⟩ := poll_frame a t
  refine ⟨fun h => ?_, fun s hs' => ?_⟩
  · rw [hid]
    exact hs.named (hjoined ▸ h)
  · cases hr : a.running with
    | none => simp [(poll_idle hr 0 t).1] at hs'
    | some r =>
        have hpoll := poll_running hr 0 t
        split at hpoll
        · simp [hpoll.1] at hs'
        · obtain rfl : r.advanced = s := by simpa [hpoll.1] using hs'
          exact Work.advance_inRange (hs.within r hr)

theorem startWork_inRange {node : NodeId} {wire : WireTaskSpec} {waitMs : Nat} {work : Work}
    (hwire : wire.toTaskSpec.InRange) (h : a.startWork node wire = some (waitMs, work)) :
    work.InRange := by
  unfold startWork at h
  split at h
  · rename_i hspec
    rw [hspec] at hwire
    cases h
    have := hwire.2
    simp only [Work.InRange, u64Max]
    omega
  · obtain ⟨done, -, hdone⟩ := Option.map_eq_some_iff.mp h
    split at hdone <;> cases hdone <;> trivial

/-- One call. -/
theorem Steady.call (hs : a.Steady) {c : AgentCall} (hc : c.InRange) : (a.call c).2.Steady := by
  cases c with
  | setFreeMemory bytes => exact ⟨hs.named, hs.within⟩
  | poll t => exact hs.poll t
  | handle message t =>
      cases message with
      | rejected | shutdown => exact hs
      | welcome =>
          simp only [Agent.call, handle]
          refine Steady.poll ?_ t
          exact ⟨fun _ => Option.some_ne_none _, hs.within⟩
      | pauseHeartbeat | injectFailures | setDelay =>
          simp only [Agent.call, handle]
          refine Steady.poll ?_ t
          exact ⟨hs.named, hs.within⟩
      | assign task wire =>
          simp only [Agent.call, handle, accept]
          split
          · exact hs
          · split
            · split <;> exact hs
            · split
              · exact ⟨hs.named, hs.within⟩
              · split
                · exact hs
                · rename_i waitMs work hstart
                  have hnew := startWork_inRange hc hstart
                  dsimp only
                  refine Steady.poll ?_ t
                  exact ⟨hs.named, fun r hr => by cases hr; exact hnew⟩

theorem Steady.converse (hs : a.Steady) {calls : List AgentCall} (hcalls : ∀ c ∈ calls, c.InRange) :
    (a.converse calls).2.Steady := by
  induction calls generalizing a with
  | nil => exact hs
  | cons c calls ih =>
      exact ih (hs.call (hcalls c (by simp))) fun d hd => hcalls d (by simp [hd])

/-- As long as no message is handled, a worker with nothing due says nothing. -/
theorem converse_quiet (h : ∀ t, a.Quiet t) {calls : List AgentCall}
    (hcalls : ∀ c ∈ calls, c.isHandle = false) : (a.converse calls).1 = [] := by
  induction calls generalizing a with
  | nil => rfl
  | cons c calls ih =>
      have hrest : ∀ d ∈ calls, d.isHandle = false := fun d hd => hcalls d (by simp [hd])
      cases c with
      | handle message t => simp [AgentCall.isHandle] at hcalls
      | setFreeMemory bytes =>
          have hq : ∀ t, (a.setFreeMemory bytes).Quiet t := fun t =>
            ⟨(h t).idle, (h t).unready, (h t).unbeaten⟩
          simpa [Agent.converse, Agent.call] using ih hq hrest
      | poll t =>
          obtain ⟨hsaid, hsame⟩ := (h t).poll
          have hnext := ih h hrest
          simp only [Agent.converse, Agent.call, hsaid, hsame, hnext, List.append_nil]

/-- The sleep a worker names and what its polls find are one account of what is due. -/
structure WakesSoundly (a : Agent) (now : Millis) : Prop where
  asleep : ∀ w, a.nextWakeMs now = some w → ∀ t, now ≤ t → t < now + w →
    sends (a.poll t).1 = [] ∧ (a.poll t).2 = a
  awake : ∀ w, a.nextWakeMs now = some w →
    sends (a.poll (now + w)).1 ≠ [] ∨ a.Advances (a.poll (now + w)).2
  silent : a.nextWakeMs now = none → ∀ calls : List AgentCall, (∀ c ∈ calls, c.isHandle = false) →
    (a.converse calls).1 = []

/-- After any calls. -/
theorem wakes_soundly (id : Option NodeId) (capabilities : NodeCapabilities) (interval : Nat)
    (token : Option String) (workload : Option Workload) (calls : List AgentCall)
    (hcalls : ∀ c ∈ calls, c.InRange) (now : Millis) :
    ({ Agent.new id capabilities interval with token, workload }.converse calls).2.WakesSoundly
      now := by
  have hnew : { Agent.new id capabilities interval with token, workload }.Steady :=
    ⟨fun h => by simp [Agent.new] at h, fun r hr => by simp [Agent.new] at hr⟩
  have hs := hnew.converse hcalls
  exact
    { asleep := fun w hw t hle ht => (quiet_before_wake hw hle ht).poll
      awake := fun w hw => acts_at_wake hs hw
      silent := fun hnone calls hpolls => converse_quiet (quiet_of_none hnone) hpolls }

/-- A worker that was greeted at 100 and counts a range it was assigned at 200. -/
theorem counting_wakes_soundly :
    ({ Agent.new none ⟨4, 8⟩ 1000 with token := none, workload := none }.converse
      [.handle (.welcome 4 5 1000) 100, .handle (.assign 1 (.primes 0 9000)) 200]).2.WakesSoundly 250 :=
  wakes_soundly none ⟨4, 8⟩ 1000 none none _
    (by simp [AgentCall.InRange, WireTaskSpec.toTaskSpec, TaskSpec.InRange]) 250

end Agent

end Gavel.Cluster
