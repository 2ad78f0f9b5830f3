import Gavel.Lib.Slots
import Gavel.Web.Streams

/-!
# Slots are accounted exactly

The counter is the number of calls counted and not taken back, the map the number of permits an origin
holds, those on their way out included.
-/

namespace Gavel.Web

variable {s : Streams} {calls : List StreamCall} {call : StreamCall} {g : SseGate} {i n : Nat}
  {o o' : IpAddr} {phase : StreamPhase} {expected : List StreamPhase}

namespace StreamCall

/-- On the counter. -/
def counted (c : StreamCall) : Bool := c.phase ∈ [.bumped, .overTotal, .overOrigin, .live]

/-- Past the total, with a permit or before one. -/
def admitted (c : StreamCall) : Bool := c.phase ∈ [.bumped, .live]

/-- In the map, under its origin. -/
def placed (o : IpAddr) (c : StreamCall) : Bool := c.origin = o ∧ c.phase ∈ [.live, .dropping]

/-- With a permit. -/
def live (c : StreamCall) : Bool := c.phase = .live

def liveAt (o : IpAddr) (c : StreamCall) : Bool := c.origin = o ∧ c.phase = .live

/-- No step is left to it, or only the drop of its permit. -/
def settled (c : StreamCall) : Bool := c.phase ∈ [.live, .refused, .gone]

end StreamCall

open StreamCall

/-- The gate is that of the calls. -/
structure Accounts (g : SseGate) (calls : List StreamCall) : Prop where
  total : g.total = calls.countP counted
  origins : ∀ o, g.origins.get? o =
    if calls.countP (placed o) = 0 then none else some (calls.countP (placed o))

namespace Streams

/-- What holds between any two steps. -/
structure Accounted (maxTotal maxPerOrigin : Nat) (s : Streams) : Prop where
  limits : s.gate.maxTotal = maxTotal ∧ s.gate.maxPerOrigin = maxPerOrigin
  accounts : Accounts s.gate s.calls
  total : s.calls.countP admitted ≤ maxTotal
  origins : ∀ o, s.calls.countP (placed o) ≤ maxPerOrigin
  whole : s.underflow = false

end Streams

/-! ## The operations of the gate -/

/-- The locked step of `enter` on a gate that is that of the calls. -/
theorem Accounts.place (h : Accounts g calls) (hone : 1 ≤ g.maxPerOrigin) (o : IpAddr) :
    (calls.countP (placed o) < g.maxPerOrigin ∧
        g.place o = (true, { g with origins := g.origins.put o (calls.countP (placed o) + 1) })) ∨
      (g.maxPerOrigin ≤ calls.countP (placed o) ∧ g.place o = (false, g)) := by
  have hget := h.origins o
  by_cases hzero : calls.countP (placed o) = 0
  · rw [if_pos hzero] at hget
    have hlt : ¬ g.maxPerOrigin ≤ 0 := by omega
    left
    refine ⟨by omega, ?_⟩
    rw [SseGate.place, hget, hzero]
    exact if_neg hlt
  · rw [if_neg hzero] at hget
    by_cases hfull : g.maxPerOrigin ≤ calls.countP (placed o)
    · right
      refine ⟨hfull, ?_⟩
      rw [SseGate.place, hget]
      exact if_pos hfull
    · left
      refine ⟨Nat.not_le.mp hfull, ?_⟩
      rw [SseGate.place, hget]
      exact if_neg hfull

/-- The locked step of a drop on a gate that is that of the calls. -/
theorem Accounts.leave (h : Accounts g calls) (hpos : 0 < calls.countP (placed o)) :
    ∃ origins, g.leave o = some { g with origins } ∧ ∀ o', origins.get? o' =
      if o' = o then (if calls.countP (placed o) - 1 = 0 then none else some (calls.countP (placed o) - 1))
      else g.origins.get? o' := by
  have hzero : calls.countP (placed o) ≠ 0 := Nat.ne_of_gt hpos
  have hget := h.origins o
  rw [if_neg hzero] at hget
  by_cases hlast : calls.countP (placed o) - 1 = 0
  · refine ⟨g.origins.erase o, ?_, fun o' => ?_⟩
    · rw [SseGate.leave, hget]
      simp only [hzero, hlast, if_false, if_true]
    · by_cases ho : o' = o
      · rw [ho, if_pos rfl, if_pos hlast, Dict.get?_erase_self]
      · rw [if_neg ho, Dict.get?_erase_ne ho]
  · refine ⟨g.origins.put o (calls.countP (placed o) - 1), ?_, fun o' => ?_⟩
    · rw [SseGate.leave, hget]
      simp only [hzero, hlast, if_false]
    · by_cases ho : o' = o
      · rw [ho, if_pos rfl, if_neg hlast, Dict.get?_put_self]
      · rw [if_neg ho, Dict.get?_put_ne ho]

/-- A gate is that of the calls after one changed its phase, if its counter and the entry of its origin
moved with it. -/
theorem Accounts.set {g' : SseGate} (h : Accounts g calls) (hcall : calls[i]? = some call)
    (htotal : g'.total + (counted call).toNat = g.total + (counted { call with phase }).toNat)
    (hother : ∀ o, o ≠ call.origin → g'.origins.get? o = g.origins.get? o)
    (hown : g'.origins.get? call.origin =
      if (calls.set i { call with phase }).countP (placed call.origin) = 0 then none
      else some ((calls.set i { call with phase }).countP (placed call.origin))) :
    Accounts g' (calls.set i { call with phase }) := by
  constructor
  · have hcount := Slots.countP_set (p := counted) (b := { call with phase }) hcall
    rw [h.total] at htotal
    omega
  · intro o
    by_cases ho : o = call.origin
    · rw [ho, hown]
    · have hnot (phase : StreamPhase) : placed o { call with phase } = false := by
        simp [placed, Ne.symm ho]
      have hcount := Slots.countP_set (p := placed o) (b := { call with phase }) hcall
      rw [hnot phase, hnot call.phase] at hcount
      rw [hother o ho, h.origins o, Nat.add_right_cancel hcount]

namespace Streams

variable {maxTotal maxPerOrigin : Nat}

/-! ## The steps -/

/-- A move is no move, one of a call in an expected phase, or one that wraps. -/
theorem move_cases (s : Streams) (i : Nat) (expected : List StreamPhase)
    (act : SseGate → IpAddr → Option (StreamPhase × SseGate)) :
    s.move i expected act = s ∨ ∃ call, s.calls[i]? = some call ∧ call.phase ∈ expected ∧
      ((∃ phase gate, act s.gate call.origin = some (phase, gate) ∧
        s.move i expected act = { s with gate, calls := s.calls.set i { call with phase } }) ∨
      act s.gate call.origin = none) := by
  unfold move
  split
  · rename_i call hcall
    split
    · rename_i hphase
      right
      refine ⟨call, hcall, hphase, ?_⟩
      split
      · rename_i phase gate hact
        exact .inl ⟨phase, gate, hact, rfl⟩
      · rename_i hact
        exact .inr hact
    · exact .inl rfl
  · exact .inl rfl

theorem start_accounted (maxTotal maxPerOrigin : Nat) :
    (start maxTotal maxPerOrigin).Accounted maxTotal maxPerOrigin where
  limits := ⟨rfl, rfl⟩
  accounts := ⟨rfl, fun _ => rfl⟩
  total := Nat.zero_le _
  origins _ := Nat.zero_le _
  whole := rfl

theorem step_enter (s : Streams) (o : IpAddr) : s.step (.enter o) = { s with
    gate := { s.gate with total := s.gate.total + 1 }
    calls := s.calls ++ [⟨o, if s.gate.total < s.gate.maxTotal then .bumped else .overTotal⟩] } := by
  simp [step, SseGate.bump]

theorem Accounted.enter (h : s.Accounted maxTotal maxPerOrigin) (o : IpAddr) :
    (s.step (.enter o)).Accounted maxTotal maxPerOrigin := by
  have hplaced (o' : IpAddr) (phase : StreamPhase) (hp : phase = .bumped ∨ phase = .overTotal) :
      placed o' ⟨o, phase⟩ = false := by
    rcases hp with rfl | rfl
    · simp [placed]
    · simp [placed]
  have hcounted := h.accounts.total
  have hadmitted : s.calls.countP admitted ≤ s.calls.countP counted := by
    refine List.countP_mono_left fun c _ hc => ?_
    simp only [admitted, counted, List.mem_cons, List.not_mem_nil, or_false, decide_eq_true_eq] at hc ⊢
    tauto
  rw [step_enter]
  by_cases hallowed : s.gate.total < s.gate.maxTotal
  · rw [if_pos hallowed]
    refine ⟨h.limits, ⟨?_, fun o' => ?_⟩, ?_, fun o' => ?_, h.whole⟩
    · simp [hcounted, counted]
    · simpa [hplaced o' .bumped (.inl rfl)] using h.accounts.origins o'
    · have hlimit := h.limits.1
      simp [admitted]
      omega
    · simpa [hplaced o' .bumped (.inl rfl)] using h.origins o'
  · rw [if_neg hallowed]
    refine ⟨h.limits, ⟨?_, fun o' => ?_⟩, ?_, fun o' => ?_, h.whole⟩
    · simp [hcounted, counted]
    · simpa [hplaced o' .overTotal (.inr rfl)] using h.accounts.origins o'
    · simpa [admitted] using h.total
    · simpa [hplaced o' .overTotal (.inr rfl)] using h.origins o'

/-- A call that moves keeps the limits if it does not pass the total and passes its origin only below the
limit. -/
theorem Accounted.moved (h : s.Accounted maxTotal maxPerOrigin) (hcall : s.calls[i]? = some call)
    (hlimits : g.maxTotal = s.gate.maxTotal ∧ g.maxPerOrigin = s.gate.maxPerOrigin)
    (haccounts : Accounts g (s.calls.set i { call with phase }))
    (hadmitted : admitted { call with phase } = true → admitted call = true)
    (hplaced : placed call.origin { call with phase } = true →
      placed call.origin call = true ∨ s.calls.countP (placed call.origin) < maxPerOrigin) :
    Accounted maxTotal maxPerOrigin { s with gate := g, calls := s.calls.set i { call with phase } } where
  limits := ⟨hlimits.1.trans h.limits.1, hlimits.2.trans h.limits.2⟩
  accounts := haccounts
  total := Nat.le_trans (Slots.countP_set_le hcall hadmitted) h.total
  origins o := by
    change (s.calls.set i { call with phase }).countP (placed o) ≤ maxPerOrigin
    by_cases ho : o = call.origin
    · subst ho
      have hcount := Slots.countP_set (p := placed call.origin) (b := { call with phase }) hcall
      have hbound := h.origins call.origin
      cases hp : placed call.origin { call with phase } with
      | false =>
          simp only [hp, Bool.toNat_false] at hcount
          omega
      | true =>
          have hone := Bool.toNat_le (placed call.origin { call with phase })
          rcases hplaced hp with hheld | hroom
          · simp only [hp, hheld, Bool.toNat_true] at hcount
            omega
          · omega
    · refine Nat.le_trans (Slots.countP_set_le hcall fun hp => ?_) (h.origins o)
      simp only [placed, Bool.decide_and, Bool.and_eq_true, decide_eq_true_eq] at hp
      exact absurd hp.1.symm ho
  whole := h.whole

theorem Accounted.unbump (h : s.Accounted maxTotal maxPerOrigin) (hcall : s.calls[i]? = some call)
    (hcounted : counted call = true) :
    s.gate.unbump = some { s.gate with total := s.gate.total - 1 } ∧ 0 < s.gate.total := by
  have hpos : 0 < s.gate.total := by
    rw [h.accounts.total]
    exact List.countP_pos_iff.mpr ⟨call, List.mem_of_getElem? hcall, hcounted⟩
  exact ⟨if_neg (Nat.ne_of_gt hpos), hpos⟩

theorem step_place (s : Streams) (i : Nat) : s.step (.place i) = s.move i [.bumped] fun gate origin =>
    some (if (gate.place origin).1 then .live else .overOrigin, (gate.place origin).2) := rfl

theorem Accounted.place (h : s.Accounted maxTotal maxPerOrigin) (hone : 1 ≤ maxPerOrigin) (i : Nat) :
    (s.step (.place i)).Accounted maxTotal maxPerOrigin := by
  rw [step_place]
  rcases move_cases s i [.bumped] (fun gate origin =>
      some (if (gate.place origin).1 then .live else .overOrigin, (gate.place origin).2)) with
    hstay | ⟨call, hcall, hphase, hmove⟩
  · rw [hstay]
    exact h
  · have hphase : call.phase = .bumped := by simpa using hphase
    rcases hmove with ⟨phase, gate, hact, hmove⟩ | hnone
    · rw [hmove]
      rcases h.accounts.place (by rw [h.limits.2]; exact hone) call.origin with ⟨hroom, heq⟩ | ⟨-, heq⟩
      · -- A slot is free: the entry of the origin is one more.
        rw [heq] at hact
        cases hact
        have hcount := Slots.countP_set (p := placed call.origin) (b := { call with phase := .live }) hcall
        have hafter : (s.calls.set i { call with phase := .live }).countP (placed call.origin) =
            s.calls.countP (placed call.origin) + 1 := by simpa [placed, hphase] using hcount
        refine h.moved hcall ⟨rfl, rfl⟩ (h.accounts.set hcall ?_ ?_ ?_) ?_ fun _ => .inr ?_
        · simp [counted, hphase]
        · exact fun o ho => Dict.get?_put_ne ho
        · simp only [if_true, hafter, Nat.succ_ne_zero, if_false]
          exact Dict.get?_put_self
        · simp [admitted, hphase]
        · rwa [h.limits.2] at hroom
      · rw [heq] at hact
        cases hact
        have hcount := Slots.countP_set (p := placed call.origin) (b := { call with phase := .overOrigin }) hcall
        have hafter : (s.calls.set i { call with phase := .overOrigin }).countP (placed call.origin) =
            s.calls.countP (placed call.origin) := by simpa [placed, hphase] using hcount
        refine h.moved hcall ⟨rfl, rfl⟩ (h.accounts.set hcall ?_ ?_ ?_) ?_ ?_
        · simp [counted, hphase]
        · exact fun o ho => rfl
        · simp only [Bool.false_eq_true, if_false, hafter]
          exact h.accounts.origins call.origin
        · simp [admitted]
        · simp [placed]
    · cases hnone

/-- A counted call leaves the total, and its origin keeps the entry it has. -/
theorem Accounted.unbumped (h : s.Accounted maxTotal maxPerOrigin) (hcall : s.calls[i]? = some call)
    (hcounted : counted call = true)
    (hout : counted { call with phase } = false ∧ admitted { call with phase } = false)
    (hplaced : placed call.origin { call with phase } = placed call.origin call) :
    Accounted maxTotal maxPerOrigin { s with
      gate := { s.gate with total := s.gate.total - 1 }, calls := s.calls.set i { call with phase } } := by
  obtain ⟨-, hpos⟩ := h.unbump hcall hcounted
  have hcount := Slots.countP_set (p := placed call.origin) (b := { call with phase }) hcall
  have hafter : (s.calls.set i { call with phase }).countP (placed call.origin) =
      s.calls.countP (placed call.origin) := by
    rw [hplaced] at hcount
    omega
  refine h.moved hcall ⟨rfl, rfl⟩ (h.accounts.set hcall ?_ ?_ ?_) ?_ ?_
  · rw [hcounted, hout.1]
    exact Nat.sub_add_cancel hpos
  · exact fun o ho => rfl
  · rw [hafter]
    exact h.accounts.origins call.origin
  · rw [hout.2]
    exact fun hlive => absurd hlive Bool.false_ne_true
  · rw [hplaced]
    exact .inl

theorem Accounted.rollBack (h : s.Accounted maxTotal maxPerOrigin) (i : Nat) :
    (s.step (.rollBack i)).Accounted maxTotal maxPerOrigin := by
  rcases move_cases s i [.overTotal, .overOrigin] (fun gate _ => gate.unbump.map (.refused, ·)) with
    hstay | ⟨call, hcall, hphase, hmove⟩
  · rw [step, hstay]
    exact h
  · have hphase : call.phase = .overTotal ∨ call.phase = .overOrigin := by simpa using hphase
    have hcounted : counted call = true := by
      rcases hphase with hphase | hphase
      · simp [counted, hphase]
      · simp [counted, hphase]
    have hunplaced : placed call.origin call = false := by
      rcases hphase with hphase | hphase
      · simp [placed, hphase]
      · simp [placed, hphase]
    obtain ⟨hunbump, -⟩ := h.unbump hcall hcounted
    rcases hmove with ⟨phase, gate, hact, hmove⟩ | hnone
    · rw [hunbump] at hact
      cases hact
      rw [step, hmove]
      refine h.unbumped hcall hcounted (by simp [counted, admitted]) ?_
      rw [hunplaced]
      simp [placed]
    · rw [hunbump] at hnone
      cases hnone

theorem Accounted.drop (h : s.Accounted maxTotal maxPerOrigin) (i : Nat) :
    (s.step (.drop i)).Accounted maxTotal maxPerOrigin := by
  rcases move_cases s i [.live] (fun gate _ => gate.unbump.map (.dropping, ·)) with
    hstay | ⟨call, hcall, hphase, hmove⟩
  · rw [step, hstay]
    exact h
  · have hphase : call.phase = .live := by simpa using hphase
    have hcounted : counted call = true := by simp [counted, hphase]
    obtain ⟨hunbump, -⟩ := h.unbump hcall hcounted
    rcases hmove with ⟨phase, gate, hact, hmove⟩ | hnone
    · rw [hunbump] at hact
      cases hact
      rw [step, hmove]
      -- The origin is told later: its permits still include this one.
      exact h.unbumped hcall hcounted (by simp [counted, admitted]) (by simp [placed, hphase])
    · rw [hunbump] at hnone
      cases hnone

theorem Accounted.leave (h : s.Accounted maxTotal maxPerOrigin) (i : Nat) :
    (s.step (.leave i)).Accounted maxTotal maxPerOrigin := by
  rcases move_cases s i [.dropping] (fun gate origin => (gate.leave origin).map (.gone, ·)) with
    hstay | ⟨call, hcall, hphase, hmove⟩
  · rw [step, hstay]
    exact h
  · have hphase : call.phase = .dropping := by simpa using hphase
    have hplaced : placed call.origin call = true := by simp [placed, hphase]
    have hpos : 0 < s.calls.countP (placed call.origin) :=
      List.countP_pos_iff.mpr ⟨call, List.mem_of_getElem? hcall, hplaced⟩
    obtain ⟨origins, hleave, hget⟩ := h.accounts.leave hpos
    rcases hmove with ⟨phase, gate, hact, hmove⟩ | hnone
    · rw [hleave] at hact
      cases hact
      rw [step, hmove]
      have hcount := Slots.countP_set (p := placed call.origin) (b := { call with phase := .gone }) hcall
      have hafter : (s.calls.set i { call with phase := .gone }).countP (placed call.origin) =
          s.calls.countP (placed call.origin) - 1 := by
        rw [hplaced] at hcount
        simp [placed] at hcount ⊢
        omega
      refine h.moved hcall ⟨rfl, rfl⟩ (h.accounts.set hcall ?_ ?_ ?_) ?_ ?_
      · simp [counted, hphase]
      · intro o ho
        rw [hget, if_neg ho]
      · rw [hafter, hget, if_pos rfl]
      · simp [admitted]
      · simp [placed]
    · rw [hleave] at hnone
      cases hnone

/-- One step keeps the accounts. -/
theorem Accounted.next (h : s.Accounted maxTotal maxPerOrigin) (hone : 1 ≤ maxPerOrigin) (a : StreamStep) :
    (s.step a).Accounted maxTotal maxPerOrigin := by
  cases a with
  | enter o => exact h.enter o
  | place i => exact h.place hone i
  | rollBack i => exact h.rollBack i
  | drop i => exact h.drop i
  | leave i => exact h.leave i

/-! ## Every interleaving -/

/-- A whole call with no other step between its own. -/
def enterAlone (s : Streams) (o : IpAddr) : Streams :=
  Run.final step s [.enter o, .place s.calls.length, .rollBack s.calls.length]

/-- The bounds on the permits, and what the counter and the map are. -/
structure Exact (maxTotal maxPerOrigin : Nat) (s : Streams) : Prop where
  live : s.calls.countP live ≤ maxTotal
  liveAt : ∀ o, s.calls.countP (liveAt o) ≤ maxPerOrigin
  whole : s.underflow = false
  /-- A refused call might as well not have come. -/
  refused : ∀ i call, s.calls[i]? = some call → call.phase = .refused → Accounts s.gate (s.calls.eraseIdx i)
  alone : ∀ o, (s.enterAlone o).calls = s.calls ++ [⟨o, .live⟩] ∨
    (s.enterAlone o).calls = s.calls ++ [⟨o, .refused⟩] ∧ (s.enterAlone o).gate = s.gate
  quiet : (∀ call ∈ s.calls, call.settled = true) → s.gate.total = s.calls.countP StreamCall.live ∧
    ∀ o n, (o, n) ∈ s.gate.origins.rows ↔ 0 < n ∧ n = s.calls.countP (StreamCall.liveAt o)

theorem Accounted.alone (h : s.Accounted maxTotal maxPerOrigin) (hone : 1 ≤ maxPerOrigin) (o : IpAddr) :
    (s.enterAlone o).calls = s.calls ++ [⟨o, .live⟩] ∨
      (s.enterAlone o).calls = s.calls ++ [⟨o, .refused⟩] ∧ (s.enterAlone o).gate = s.gate := by
  rw [enterAlone, Run.final, List.foldl_cons, List.foldl_cons, List.foldl_cons, List.foldl_nil]
  have hentered := h.enter o
  rw [step_enter] at hentered ⊢
  by_cases hallowed : s.gate.total < s.gate.maxTotal
  · rw [if_pos hallowed] at hentered ⊢
    rcases hentered.accounts.place (by rw [hentered.limits.2]; exact hone) o with ⟨-, heq⟩ | ⟨-, heq⟩
    · left
      simp only at heq
      simp [step, move, heq]
    · right
      simp only at heq
      simp [step, move, heq, SseGate.unbump]
  · rw [if_neg hallowed] at hentered ⊢
    right
    simp [step, move, SseGate.unbump]

theorem Accounted.quiet (h : s.Accounted maxTotal maxPerOrigin)
    (hquiet : ∀ call ∈ s.calls, call.settled = true) : s.gate.total = s.calls.countP StreamCall.live ∧
      ∀ o n, (o, n) ∈ s.gate.origins.rows ↔ 0 < n ∧ n = s.calls.countP (StreamCall.liveAt o) := by
  have hphase (c : StreamCall) (hc : c ∈ s.calls) :
      c.phase = .live ∨ c.phase = .refused ∨ c.phase = .gone := by simpa [settled] using hquiet c hc
  have hcounted : s.calls.countP counted = s.calls.countP StreamCall.live := by
    refine List.countP_congr fun c hc => ?_
    rcases hphase c hc with hp | hp | hp
    all_goals simp [counted, StreamCall.live, hp]
  have hplaced (o : IpAddr) : s.calls.countP (placed o) = s.calls.countP (StreamCall.liveAt o) := by
    refine List.countP_congr fun c hc => ?_
    rcases hphase c hc with hp | hp | hp
    all_goals simp [placed, StreamCall.liveAt, hp]
  refine ⟨h.accounts.total.trans hcounted, fun o n => ?_⟩
  rw [← Dict.get?_eq_some_iff, h.accounts.origins o, hplaced o]
  split
  · simp only [reduceCtorEq, false_iff]
    omega
  · rw [Option.some.injEq]
    omega

theorem Accounted.exact (h : s.Accounted maxTotal maxPerOrigin) (hone : 1 ≤ maxPerOrigin) :
    s.Exact maxTotal maxPerOrigin where
  live := by
    refine Nat.le_trans (List.countP_mono_left fun c _ hc => ?_) h.total
    have hlive : c.phase = .live := by simpa [StreamCall.live] using hc
    simp [admitted, hlive]
  liveAt o := by
    refine Nat.le_trans (List.countP_mono_left fun c _ hc => ?_) (h.origins o)
    obtain ⟨ho, hlive⟩ : c.origin = o ∧ c.phase = .live := by simpa [StreamCall.liveAt] using hc
    simp [placed, ho, hlive]
  whole := h.whole
  refused i call hcall hrefused := by
    have herase (p : StreamCall → Bool) (hp : p call = false) :
        (s.calls.eraseIdx i).countP p = s.calls.countP p := by
      have hcount := Slots.countP_eraseIdx (p := p) hcall
      rwa [hp] at hcount
    constructor
    · rw [h.accounts.total, herase counted (by simp [counted, hrefused])]
    · intro o
      rw [h.accounts.origins o, herase (placed o) (by simp [placed, hrefused])]
  alone := h.alone hone
  quiet := h.quiet

/-- Whatever the calls and the drops of permits and however their steps interleave, the slots are accounted
exactly. -/
theorem sse_slots_exact (maxTotal maxPerOrigin : Nat) (hone : 1 ≤ maxPerOrigin) (steps : List StreamStep) :
    ∀ s ∈ Run.visited step (start maxTotal maxPerOrigin) steps, s.Exact maxTotal maxPerOrigin := by
  intro s hs
  have hinv : ∀ x ∈ Run.visited step (start maxTotal maxPerOrigin) steps,
      x.Accounted maxTotal maxPerOrigin :=
    Run.invariant_always (fun _ a hx => Accounted.next hx hone a) steps (start_accounted _ _)
  exact (hinv s hs).exact hone

/-- Two calls of one origin that may hold one permit: the second is refused while the first leaves. -/
theorem one_slot_two_calls :
    let steps : List StreamStep :=
      [.enter (.v4 1), .enter (.v4 1), .place 0, .place 1, .drop 0, .rollBack 1, .leave 0]
    (Run.final step (start 2 1) steps).Exact 2 1 ∧
      (Run.final step (start 2 1) steps).calls = [⟨.v4 1, .gone⟩, ⟨.v4 1, .refused⟩] ∧
      (Run.final step (start 2 1) steps).gate.total = 0 :=
  ⟨sse_slots_exact 2 1 (by decide) _ _ (Run.final_mem_visited _ _), by decide, by decide⟩

end Streams

end Gavel.Web
