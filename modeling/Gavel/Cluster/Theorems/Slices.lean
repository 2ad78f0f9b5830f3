import Gavel.Cluster.Theorems.Reporting

/-!
# Computation in slices

A worker counts primes one slice a poll, and any message that makes it act polls it. A call is either
a poll of some agent or leaves the task alone. Polls take a task through its stages, from which the
count, the candidates scanned and the time of the report follow.
-/

namespace Gavel.Cluster

/-! ## Counting by parts -/

/-- The numbers of a half-open range, in order. -/
def candidates (start stop : Nat) : List Nat := List.range' start (stop - start)

theorem candidates_append {start mid stop : Nat} (h₁ : start ≤ mid) (h₂ : mid ≤ max start stop) :
    candidates start mid ++ candidates mid stop = candidates start stop := by
  have hmid : mid = start + (mid - start) := by omega
  have hlen : mid - start + (stop - mid) = stop - start := by omega
  calc candidates start mid ++ candidates mid stop
    _ = List.range' start (mid - start) ++ List.range' (start + (mid - start)) (stop - mid) := by
        rw [← hmid, candidates, candidates]
    _ = candidates start stop := by rw [List.range'_append_1, hlen, candidates]

theorem candidates_empty {start stop : Nat} (h : stop ≤ start) : candidates start stop = [] := by
  simp [candidates, Nat.sub_eq_zero_of_le h]

theorem primes_below_two {start stop : Nat} (h : stop ≤ 2) :
    (candidates start stop).filter isPrime = [] := by
  refine List.filter_eq_nil_iff.mpr fun n hn => ?_
  have hlt : n < 2 := by
    have := List.mem_range'_1.mp hn
    omega
  simp [isPrime, hlt]

theorem countPrimes_eq (start stop : Nat) :
    countPrimes start stop = ((candidates start stop).filter isPrime).length := by
  change ((candidates (max start 2) stop).filter isPrime).length = _
  rcases Nat.le_total 2 start with h | h
  · rw [Nat.max_eq_left h]
  rw [Nat.max_eq_right h]
  rcases Nat.le_total stop 2 with hs | hs
  · rw [candidates_empty hs, primes_below_two hs, List.filter_nil]
  · rw [← candidates_append h (Nat.le_trans hs (Nat.le_max_right start stop)),
      List.filter_append, primes_below_two (Nat.le_refl 2), List.nil_append]

theorem countPrimes_add {start mid stop : Nat} (h₁ : start ≤ mid) (h₂ : mid ≤ max start stop) :
    countPrimes start mid + countPrimes mid stop = countPrimes start stop := by
  simp only [countPrimes_eq, ← candidates_append h₁ h₂, List.filter_append, List.length_append]

/-! ## The poll inside a call -/

namespace Work

/-- The candidates the next poll checks. -/
def slice : Work → List Nat
  | .primes _ _ stop cursor _ => candidates cursor (min (satAdd cursor computeSlice) stop)
  | .ready _ | .produced _ _ => []

end Work

/-- When a call polls the agent, whatever its state. -/
def AgentCall.pollsAt : AgentCall → Option Millis
  | .poll now | .handle (.welcome _ _ _) now | .handle (.pauseHeartbeat _) now
  | .handle (.injectFailures _) now | .handle (.setDelay _) now => some now
  | .handle (.rejected _) _ | .handle .shutdown _ | .handle (.assign _ _) _ | .setFreeMemory _ => none

namespace Agent

/-- The agent a call polls, if it polls one, and when. -/
def polled (a : Agent) : AgentCall → Option (Agent × Millis)
  | .poll now => some (a, now)
  | .handle (.welcome _ node heartbeatIntervalMs) now =>
      some ({ a with
        id := some node, joined := true
        heartbeatIntervalMs :=
          if 0 < heartbeatIntervalMs then heartbeatIntervalMs else a.heartbeatIntervalMs
        nextHeartbeat := now }, now)
  | .handle (.pauseHeartbeat paused) now => some ({ a with heartbeatPaused := paused }, now)
  | .handle (.injectFailures count) now =>
      some ({ a with pendingFailures := min (a.pendingFailures + count) (2 ^ 32 - 1) }, now)
  | .handle (.setDelay ms) now => some ({ a with extraDelayMs := ms }, now)
  | .handle (.assign id wire) now =>
      match a.id, a.running, a.pendingFailures with
      | some node, none, 0 =>
          (a.startWork node wire).map fun (waitMs, work) =>
            ({ a with running := some ⟨id, satAdd now (satAdd waitMs a.extraDelayMs), work⟩ }, now)
      | _, _, _ => none
  | .handle (.rejected _) _ | .handle .shutdown _ | .setFreeMemory _ => none

/-- The candidates the next poll checks for a task. -/
def slice (a : Agent) (task : TaskId) : List Nat :=
  match a.running with
  | some r => if r.id = task then r.work.slice else []
  | none => []

/-- The candidates a call checks for a task. -/
def scans (a : Agent) (task : TaskId) (c : AgentCall) : List Nat :=
  match a.polled c with
  | some (b, _) => b.slice task
  | none => []

/-- The candidates checked for a task over a sequence of calls. -/
def scanned (a : Agent) (task : TaskId) : List AgentCall → List Nat
  | [] => []
  | c :: calls => a.scans task c ++ (a.call c).2.scanned task calls

/-- How often a task was reported finished, and how. -/
def outcomes (task : TaskId) (said : List NodeMessage) : List TaskOutcome :=
  said.filterMap fun
    | .taskFinished id outcome => if id = task then some outcome else none
    | _ => none

variable {a b : Agent} {c : AgentCall} {task : TaskId} {now : Millis}

/-- A call that polls does nothing else, except that it may begin a task on an idle agent. -/
theorem polled_cases (h : a.polled c = some (b, now)) :
    (b.running = a.running ∧ a.call c = b.poll now) ∨
      ∃ r, c.assigned? = some r.id ∧ a.running = none ∧ b.running = some r ∧
        a.call c = (.send (.taskStarted r.id) :: (b.poll now).1, (b.poll now).2) := by
  cases c with
  | poll t =>
      obtain ⟨rfl, rfl⟩ := by simpa [polled] using h
      exact .inl ⟨rfl, rfl⟩
  | setFreeMemory bytes => simp [polled] at h
  | handle message t =>
      cases message with
      | rejected | shutdown => simp [polled] at h
      | welcome | pauseHeartbeat | injectFailures | setDelay =>
          obtain ⟨rfl, rfl⟩ := by simpa [polled] using h
          exact .inl ⟨rfl, rfl⟩
      | assign id wire =>
          right
          simp only [polled] at h
          split at h
          · rename_i node hid hrunning hfailures
            obtain ⟨⟨waitMs, work⟩, hstart, heq⟩ := Option.map_eq_some_iff.mp h
            cases heq
            refine ⟨_, rfl, hrunning, rfl, ?_⟩
            simp [call, handle, accept, hid, hrunning, hfailures, hstart]
          · cases h

/-- A call that polls nothing leaves the task as it is, and finishes no task but the one assigned. -/
theorem call_not_polled (h : a.polled c = none) (hc : c.assigned? ≠ some task) :
    (a.call c).2.running = a.running ∧ outcomes task (sends (a.call c).1) = [] := by
  cases c with
  | poll t => simp [polled] at h
  | setFreeMemory bytes => exact ⟨rfl, rfl⟩
  | handle message t =>
      cases message with
      | rejected | shutdown => exact ⟨rfl, rfl⟩
      | welcome | pauseHeartbeat | injectFailures | setDelay => simp [polled] at h
      | assign id wire =>
          have hne : id ≠ task := by simpa [AgentCall.assigned?] using hc
          simp only [call, handle, accept]
          cases hid : a.id with
          | none => exact ⟨rfl, rfl⟩
          | some node =>
              cases hrunning : a.running with
              | some r =>
                  dsimp only
                  split <;> simp [outcomes, hne, hrunning]
              | none =>
                  dsimp only
                  split
                  · simp [outcomes, hne]
                  · rename_i hfailures
                    have hzero : a.pendingFailures = 0 := by omega
                    have hstart : a.startWork node wire = none := by
                      simpa [polled, hid, hrunning, hzero] using h
                    simp [hstart, outcomes, hne, hrunning]

theorem polled_of_pollsAt (h : c.pollsAt = some now) : ∃ b, a.polled c = some (b, now) := by
  cases c with
  | poll t =>
      obtain rfl : t = now := by simpa [AgentCall.pollsAt] using h
      exact ⟨_, rfl⟩
  | setFreeMemory bytes => simp [AgentCall.pollsAt] at h
  | handle message t =>
      cases message with
      | rejected | shutdown | assign => simp [AgentCall.pollsAt] at h
      | welcome | pauseHeartbeat | injectFailures | setDelay =>
          obtain rfl : t = now := by simpa [AgentCall.pollsAt] using h
          exact ⟨_, rfl⟩

/-! ## One poll -/

@[simp] theorem outcomes_append (task : TaskId) (l m : List NodeMessage) :
    outcomes task (l ++ m) = outcomes task l ++ outcomes task m := List.filterMap_append

theorem beat_frame (a : Agent) (now : Millis) (task : TaskId) :
    (a.beat now).2.running = a.running ∧ outcomes task (sends (a.beat now).1) = [] := by
  unfold beat
  split
  · split <;> exact ⟨rfl, rfl⟩
  · exact ⟨rfl, rfl⟩

/-- A poll is about its task what the advanced task, when due, is reported with. -/
theorem poll_finish (a : Agent) (now : Millis) (task : TaskId) :
    (a.poll now).2.running =
        ({ a with running := a.running.map Running.advanced }.finish now).2.running ∧
      outcomes task (sends (a.poll now).1) =
        outcomes task (sends ({ a with running := a.running.map Running.advanced }.finish now).1) := by
  obtain ⟨hrunning, hsaid⟩ :=
    beat_frame ({ a with running := a.running.map Running.advanced }.finish now).2 now task
  simp only [poll, sends_append, sends_wakeIn, List.append_nil, outcomes_append]
  exact ⟨hrunning, by rw [hsaid, List.append_nil]⟩

theorem poll_idle (h : a.running = none) (task : TaskId) (now : Millis) :
    (a.poll now).2.running = none ∧ outcomes task (sends (a.poll now).1) = [] := by
  obtain ⟨hrunning, hsaid⟩ := poll_finish a now task
  rw [hrunning, hsaid]
  simp [finish, h, outcomes]

theorem outcomes_results {r : Running} (h : r.id ≠ task) : outcomes task r.results = [] := by
  unfold Running.results
  split
  · simp [outcomes, h]
  · split <;> simp [outcomes, h]
  · rfl

theorem poll_running {r : Running} (h : a.running = some r) (task : TaskId) (now : Millis) :
    if r.advanced.isDue now then
      (a.poll now).2.running = none ∧
        outcomes task (sends (a.poll now).1) = outcomes task r.advanced.results
    else
      (a.poll now).2.running = some r.advanced ∧ outcomes task (sends (a.poll now).1) = [] := by
  obtain ⟨hrunning, hsaid⟩ := poll_finish a now task
  rw [hrunning, hsaid]
  cases hdue : r.advanced.isDue now <;> simp [finish, h, hdue, outcomes]

/-! ## The stages of a range -/

/-- Where a range that was accepted stands after a number of polls: its agent, how it was reported
finished and the candidates checked. -/
inductive Stage (task : TaskId) (node : NodeId) (start stop : Nat) (readyAt : Millis) (polls : Nat) :
    Agent → List TaskOutcome → List Nat → Prop where
  | scanning {a : Agent} (cursor : Nat) (started : start ≤ cursor) (within : cursor ≤ max start stop)
      (progress : start + computeSlice * polls ≤ cursor)
      (running : a.running =
        some ⟨task, readyAt, .primes node start stop cursor (countPrimes start cursor)⟩) :
      Stage task node start stop readyAt polls a [] (candidates start cursor)
  | waiting {a : Agent} (running : a.running =
        some ⟨task, readyAt, .ready (primesOutput node start stop (countPrimes start stop))⟩) :
      Stage task node start stop readyAt polls a [] (candidates start stop)
  | reported {a : Agent} (running : ∀ r, a.running = some r → r.id ≠ task) :
      Stage task node start stop readyAt polls a
        [.completed (primesOutput node start stop (countPrimes start stop))] (candidates start stop)

section Stages

variable {node : NodeId} {start stop : Nat} {readyAt : Millis} {polls : Nat}
  {outs : List TaskOutcome} {seen : List Nat}

theorem Stage.fewer {fewer : Nat} (hle : fewer ≤ polls)
    (h : Stage task node start stop readyAt polls a outs seen) :
    Stage task node start stop readyAt fewer a outs seen := by
  cases h with
  | scanning cursor started within progress running =>
      have hmul := Nat.mul_le_mul_left computeSlice hle
      exact .scanning cursor started within (by omega) running
  | waiting running => exact .waiting running
  | reported running => exact .reported running

/-- A range is reported once, with the output of its whole computation. -/
theorem Stage.report (h : Stage task node start stop readyAt polls a outs seen) :
    outs = [] ∨
      outs = [.completed (primesOutput node start stop (countPrimes start stop))] ∧
        seen = candidates start stop := by
  cases h with
  | scanning | waiting => exact .inl rfl
  | reported => exact .inr ⟨rfl, rfl⟩

theorem Stage.tiles (h : Stage task node start stop readyAt polls a outs seen) :
    seen <+: candidates start stop := by
  cases h with
  | scanning cursor started within =>
      exact ⟨candidates cursor stop, candidates_append started within⟩
  | waiting | reported => exact List.prefix_refl _

theorem Stage.frame (h : Stage task node start stop readyAt polls a outs seen)
    (hb : b.running = a.running) : Stage task node start stop readyAt polls b outs seen := by
  cases h with
  | scanning cursor started within progress running =>
      exact .scanning cursor started within progress (hb.trans running)
  | waiting running => exact .waiting (hb.trans running)
  | reported running => exact .reported fun r hr => running r (hb.symm.trans hr)

/-- What the end of the range leads to: a report if its time has come. -/
theorem Stage.ready {r : Running} (hr : a.running = some r)
    (hready : r.advanced =
      ⟨task, readyAt, .ready (primesOutput node start stop (countPrimes start stop))⟩)
    (polls : Nat) (now : Millis) :
    Stage task node start stop readyAt polls (a.poll now).2
        (outcomes task (sends (a.poll now).1)) (candidates start stop) ∧
      (readyAt ≤ now → outcomes task (sends (a.poll now).1) ≠ []) := by
  have hpoll := poll_running hr task now
  rw [hready] at hpoll
  by_cases hnow : readyAt ≤ now
  · simp only [Running.isDue, hnow, decide_true, if_true] at hpoll
    have hout : outcomes task (sends (a.poll now).1) =
        [.completed (primesOutput node start stop (countPrimes start stop))] := by
      rw [hpoll.2]
      simp [Running.results, outcomes]
    rw [hout]
    exact ⟨.reported fun r hr => by simp [hpoll.1] at hr, fun _ => by simp⟩
  · simp only [Running.isDue, hnow, decide_false, Bool.false_eq_true, if_false] at hpoll
    rw [hpoll.2]
    exact ⟨.waiting hpoll.1, fun h => absurd h hnow⟩

/-- An advance that does not reach the end counts the candidates of its slice. -/
theorem advanced_scanning {cursor : Nat} (started : start ≤ cursor)
    (hadd : satAdd cursor computeSlice = cursor + computeSlice) (hnext : cursor + computeSlice < stop) :
    Running.advanced ⟨task, readyAt, .primes node start stop cursor (countPrimes start cursor)⟩ =
      ⟨task, readyAt, .primes node start stop (cursor + computeSlice)
        (countPrimes start (cursor + computeSlice))⟩ := by
  have hmin : min (cursor + computeSlice) stop = cursor + computeSlice := by omega
  simp only [Running.advanced, Work.advance, hadd, hmin, Nat.not_le.mpr hnext, if_false,
    countPrimes_add started (show cursor ≤ max start (cursor + computeSlice) by omega)]

/-- An advance that reaches the end has counted the range. -/
theorem advanced_ending {cursor : Nat} (started : start ≤ cursor) (within : cursor ≤ max start stop)
    (hend : stop ≤ satAdd cursor computeSlice) :
    Running.advanced ⟨task, readyAt, .primes node start stop cursor (countPrimes start cursor)⟩ =
      ⟨task, readyAt, .ready (primesOutput node start stop (countPrimes start stop))⟩ := by
  have hmin : min (satAdd cursor computeSlice) stop = stop := by omega
  simp only [Running.advanced, Work.advance, hmin, Nat.le_refl, if_true, countPrimes_add started within]

/-- A poll takes a range one slice further; the poll that ends it reports it, when its time has
come. -/
theorem Stage.poll (hstop : stop ≤ u64Max) (now : Millis)
    (h : Stage task node start stop readyAt polls a outs seen) :
    Stage task node start stop readyAt (polls + 1) (a.poll now).2
        (outs ++ outcomes task (sends (a.poll now).1)) (seen ++ a.slice task) ∧
      (readyAt ≤ now → stop ≤ start + computeSlice * (polls + 1) →
        outs ++ outcomes task (sends (a.poll now).1) ≠ []) := by
  cases h with
  | scanning cursor started within progress running =>
      have hslice : a.slice task = candidates cursor (min (satAdd cursor computeSlice) stop) := by
        simp [slice, running, Work.slice]
      rw [hslice, List.nil_append]
      rcases Nat.lt_or_ge (satAdd cursor computeSlice) stop with hnext | hnext
      · have hadd : satAdd cursor computeSlice = cursor + computeSlice := by
          unfold satAdd at hnext ⊢
          omega
        have hpoll := poll_running running task now
        rw [advanced_scanning started hadd (hadd ▸ hnext)] at hpoll
        simp only [Running.isDue, Bool.false_eq_true, if_false] at hpoll
        rw [hadd] at hnext ⊢
        have hmin : min (cursor + computeSlice) stop = cursor + computeSlice := by omega
        rw [hpoll.2, hmin, candidates_append started (by omega)]
        refine ⟨.scanning _ (by omega) (by omega) (by rw [Nat.mul_add_one]; omega) hpoll.1, ?_⟩
        intro _ hpast
        rw [Nat.mul_add_one] at hpast
        omega
      · have hmin : min (satAdd cursor computeSlice) stop = stop := by omega
        rw [hmin, candidates_append started within]
        obtain ⟨hstage, hdue⟩ :=
          Stage.ready running (advanced_ending started within hnext) (polls + 1) now
        exact ⟨hstage, fun hnow _ => hdue hnow⟩
  | waiting running =>
      have hslice : a.slice task = [] := by simp [slice, running, Work.slice]
      rw [hslice, List.append_nil, List.nil_append]
      obtain ⟨hstage, hdue⟩ := Stage.ready running rfl (polls + 1) now
      exact ⟨hstage, fun hnow _ => hdue hnow⟩
  | reported running =>
      refine ⟨?_, by simp⟩
      cases hr : a.running with
      | none =>
          obtain ⟨hidle, hsaid⟩ := poll_idle hr task now
          rw [hsaid, slice, hr]
          simp only [List.append_nil]
          exact .reported fun r h => by simp [hidle] at h
      | some r =>
          have hne := running r hr
          have hslice : a.slice task = [] := by simp [slice, hr, hne]
          have hpoll := poll_running hr task now
          rw [hslice, List.append_nil]
          split at hpoll
          · rw [hpoll.2, outcomes_results (by exact hne), List.append_nil]
            exact .reported fun r h => by simp [hpoll.1] at h
          · rw [hpoll.2, List.append_nil]
            refine .reported fun other h => ?_
            obtain rfl : r.advanced = other := Option.some.inj (hpoll.1.symm.trans h)
            exact hne

/-! ## A whole schedule -/

/-- A poll inside a call finds the range at the same stage. -/
theorem Stage.polled (h : Stage task node start stop readyAt polls a outs seen)
    (hc : c.assigned? ≠ some task) (hb : a.polled c = some (b, now)) :
    Stage task node start stop readyAt polls b outs seen ∧
      outcomes task (sends (a.call c).1) = outcomes task (sends (b.poll now).1) ∧
      (a.call c).2 = (b.poll now).2 := by
  rcases polled_cases hb with ⟨hrunning, hcall⟩ | ⟨r, hr, hidle, hrunning, hcall⟩
  · exact ⟨h.frame hrunning, by rw [hcall], by rw [hcall]⟩
  · rw [hcall]
    refine ⟨?_, by simp [outcomes], rfl⟩
    have hne : r.id ≠ task := fun heq => hc (heq ▸ hr)
    cases h with
    | scanning cursor _ _ _ running => simp [running] at hidle
    | waiting running => simp [running] at hidle
    | reported running =>
        exact .reported fun other h => Option.some.inj (hrunning.symm.trans h) ▸ hne

/-- A call keeps the stages. The one that polls when the range is scanned and due reports it. -/
theorem Stage.call (hstop : stop ≤ u64Max) (h : Stage task node start stop readyAt polls a outs seen)
    (hc : c.assigned? ≠ some task) :
    Stage task node start stop readyAt (polls + if c.pollsAt.isSome then 1 else 0) (a.call c).2
        (outs ++ outcomes task (sends (a.call c).1)) (seen ++ a.scans task c) ∧
      (∀ t, c.pollsAt = some t → readyAt ≤ t → stop ≤ start + computeSlice * (polls + 1) →
        outs ++ outcomes task (sends (a.call c).1) ≠ []) := by
  cases hb : a.polled c with
  | none =>
      have hpolls : c.pollsAt = none := by
        rw [Option.eq_none_iff_forall_not_mem]
        intro t ht
        obtain ⟨b, hsome⟩ := polled_of_pollsAt (a := a) ht
        exact absurd (hb.symm.trans hsome) (by simp)
      obtain ⟨hrunning, hsaid⟩ := call_not_polled hb hc
      have hscans : a.scans task c = [] := by simp [scans, hb]
      rw [hsaid, hscans, List.append_nil, List.append_nil, hpolls]
      exact ⟨h.frame hrunning, fun t ht => absurd ht (by simp)⟩
  | some p =>
      obtain ⟨b, now⟩ := p
      obtain ⟨hstage, hsaid, hcall⟩ := h.polled hc hb
      obtain ⟨hnext, hdue⟩ := hstage.poll hstop now
      have hscans : a.scans task c = b.slice task := by simp [scans, hb]
      rw [hsaid, hcall, hscans]
      refine ⟨hnext.fewer (by split <;> omega), fun t ht hready hpast => ?_⟩
      obtain ⟨b', hb'⟩ := polled_of_pollsAt (a := a) ht
      obtain ⟨-, rfl⟩ := Prod.mk.inj (Option.some.inj (hb.symm.trans hb'))
      exact hdue hready hpast

/-- The stages over a sequence of calls that does not assign the task again. -/
theorem Stage.calls (hstop : stop ≤ u64Max) {calls : List AgentCall}
    (hcalls : ∀ c ∈ calls, c.assigned? ≠ some task)
    (h : Stage task node start stop readyAt polls a outs seen) :
    Stage task node start stop readyAt (polls + calls.countP fun c => c.pollsAt.isSome)
      (a.converse calls).2 (outs ++ outcomes task (a.converse calls).1)
      (seen ++ a.scanned task calls) := by
  induction calls generalizing a outs seen polls with
  | nil => simpa [converse, outcomes, scanned] using h
  | cons c calls ih =>
      have hstage := (h.call hstop (hcalls c (by simp))).1
      have hrest := ih (fun d hd => hcalls d (by simp [hd])) hstage
      rw [List.countP_cons]
      simp only [converse, scanned, outcomes_append]
      rw [← List.append_assoc, ← List.append_assoc, Nat.add_comm (calls.countP _), ← Nat.add_assoc]
      exact hrest

/-- An idle agent that is handed a range scans its first slice at once. -/
theorem Stage.first (task : TaskId) (start : Nat) (hstop : stop ≤ u64Max) (now : Millis) (hid : a.id = some node)
    (hidle : a.running = none) (haccepts : a.pendingFailures = 0) :
    Stage task node start stop (satAdd now (satAdd 0 a.extraDelayMs)) 1
      (a.call (.handle (.assign task (.primes start stop)) now)).2
      (outcomes task (sends (a.call (.handle (.assign task (.primes start stop)) now)).1))
      (a.scans task (.handle (.assign task (.primes start stop)) now)) := by
  obtain ⟨b, hb, hrunning⟩ : ∃ b, a.polled (.handle (.assign task (.primes start stop)) now) =
      some (b, now) ∧ b.running = some ⟨task, satAdd now (satAdd 0 a.extraDelayMs),
        .primes node start stop start 0⟩ := by
    simp [Agent.polled, hid, hidle, haccepts, startWork, WireTaskSpec.toTaskSpec]
  have hnone : countPrimes start start = 0 := by
    rw [countPrimes_eq, candidates_empty (Nat.le_refl start)]
    rfl
  have hscanning : Stage task node start stop (satAdd now (satAdd 0 a.extraDelayMs)) 0 b []
      (candidates start start) :=
    .scanning start (Nat.le_refl start) (Nat.le_max_left start stop) (by simp) (hnone ▸ hrunning)
  have hpoll := (hscanning.poll hstop now).1
  rcases polled_cases hb with ⟨hframe, -⟩ | ⟨r, -, -, -, hcall⟩
  · simp [hframe, hidle] at hrunning
  · have hsaid : outcomes task (sends (a.call (.handle (.assign task (.primes start stop)) now)).1) =
        outcomes task (sends (b.poll now).1) := by simp [hcall, outcomes]
    have hscans : a.scans task (.handle (.assign task (.primes start stop)) now) = b.slice task := by
      simp [scans, hb]
    rw [hsaid, hscans, hcall]
    simpa only [candidates_empty (Nat.le_refl start), List.nil_append] using hpoll

end Stages

theorem converse_append (a : Agent) (l m : List AgentCall) :
    a.converse (l ++ m) =
      ((a.converse l).1 ++ ((a.converse l).2.converse m).1, ((a.converse l).2.converse m).2) := by
  induction l generalizing a with
  | nil => rfl
  | cons c l ih => simp [converse, ih]

/-- What is asked of an agent that counts the primes of a range over a sequence of calls, the first
of which hands it the range. -/
structure CountsWhole (a : Agent) (task : TaskId) (node : NodeId) (start stop : Nat)
    (readyAt : Millis) (first : AgentCall) (calls : List AgentCall) : Prop where
  /-- The task is reported at most once. -/
  once : (outcomes task (a.converse (first :: calls)).1).length ≤ 1
  /-- It is reported with the output of the computation in one piece. -/
  output : ∀ outcome ∈ outcomes task (a.converse (first :: calls)).1, ∃ output,
    outcome = .completed output ∧ runTask node (.primes start stop) = some (.done output)
  /-- The slices follow each other from the start of the range and stay inside it. -/
  tiles : a.scanned task (first :: calls) <+: candidates start stop
  /-- They cover it once the task is reported. -/
  covers : outcomes task (a.converse (first :: calls)).1 ≠ [] →
    a.scanned task (first :: calls) = candidates start stop
  /-- A poll at or after the time the result may be reported, with enough polls before it to scan the
  range, has reported it. -/
  reported : ∀ before c after t, calls = before ++ c :: after → c.pollsAt = some t → readyAt ≤ t →
    stop ≤ start + computeSlice * ((before.countP fun c => c.pollsAt.isSome) + 2) →
    outcomes task (a.converse (first :: (before ++ [c]))).1 ≠ []

/-- A range handed to an idle agent is counted in slices as it would be in one piece. -/
theorem slices_count_whole (a : Agent) (task : TaskId) (node : NodeId) (start stop : Nat)
    (now : Millis) (calls : List AgentCall) (hid : a.id = some node) (hidle : a.running = none)
    (haccepts : a.pendingFailures = 0) (hstop : stop ≤ u64Max)
    (hcalls : ∀ c ∈ calls, c.assigned? ≠ some task) :
    a.CountsWhole task node start stop (satAdd now (satAdd 0 a.extraDelayMs))
      (.handle (.assign task (.primes start stop)) now) calls := by
  have hfirst := Stage.first task start hstop now hid hidle haccepts
  have hrun := hfirst.calls hstop hcalls
  rw [← outcomes_append] at hrun
  refine ⟨?_, ?_, hrun.tiles, ?_, ?_⟩
  · rcases hrun.report with hout | ⟨hout, -⟩ <;> simp only [converse, hout] <;> simp
  · intro outcome hmem
    rcases hrun.report with hout | ⟨hout, -⟩
    · simp [converse, hout] at hmem
    · simp only [converse, hout, List.mem_singleton] at hmem
      exact ⟨_, hmem, rfl⟩
  · intro hne
    rcases hrun.report with hout | ⟨-, hseen⟩
    · exact absurd hout hne
    · exact hseen
  · rintro before c after t rfl ht hready hpast
    have hbefore := hfirst.calls hstop fun d hd => hcalls d (List.mem_append_left _ hd)
    have hpolls : 1 + (before.countP fun c => c.pollsAt.isSome) + 1 =
        (before.countP fun c => c.pollsAt.isSome) + 2 := by omega
    have hdue := (hbefore.call hstop (hcalls c (by simp))).2 t ht hready (hpolls ▸ hpast)
    simpa only [converse, converse_append, outcomes_append, List.append_nil, List.append_assoc]
      using hdue

/-- Two slices, a pause of the heartbeat between them, and a delay set before. -/
theorem two_slices_count_whole :
    { Agent.anonymous ⟨4, 8⟩ 1000 with id := some 5, joined := true, extraDelayMs := 30 }.CountsWhole
      1 5 0 9000 130 (.handle (.assign 1 (.primes 0 9000)) 100)
      [.handle (.pauseHeartbeat true) 110, .poll 130] :=
  slices_count_whole _ 1 5 0 9000 100 _ rfl rfl rfl (by decide) (by decide)

end Agent

end Gavel.Cluster
