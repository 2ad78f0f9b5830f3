import Mathlib.Data.List.Basic

/-!
# A write-behind queue

Updates go through a first-in first-out queue to a writer that applies them one at a time; other
operations reach the store at once and may overtake what is queued. `flush` is the store the writer
would leave if nothing else happened.
-/

namespace Gavel

/-- What waits in the queue, oldest first, and the write being applied. -/
structure Writer (ω : Type) where
  queue : List ω
  current : Option ω
  deriving DecidableEq

namespace Writer

variable {σ ω : Type} {w : Writer ω} {x : ω} {apply : σ → ω → σ}

def idle : Writer ω := ⟨[], none⟩

def isIdle (w : Writer ω) : Bool := w.queue.isEmpty && w.current.isNone

/-- Everything handed over and not applied yet, in order. -/
def pending (w : Writer ω) : List ω := w.current.toList ++ w.queue

def push (w : Writer ω) (x : ω) : Writer ω := { w with queue := w.queue ++ [x] }

/-- The writer takes the oldest write off the queue. -/
def take (w : Writer ω) : Writer ω :=
  match w.current, w.queue with
  | none, x :: rest => ⟨rest, some x⟩
  | _, _ => w

/-- The write in progress is done. -/
def finish (w : Writer ω) : Writer ω := { w with current := none }

theorem pending_idle (h : w.isIdle = true) : w.pending = [] := by
  simp only [isIdle, Bool.and_eq_true, List.isEmpty_iff, Option.isNone_iff_eq_none] at h
  simp [pending, h.1, h.2]

@[simp] theorem pending_push : (w.push x).pending = w.pending ++ [x] := by simp [pending, push]

@[simp] theorem pending_take : w.take.pending = w.pending := by
  obtain ⟨queue, current⟩ := w
  cases current with
  | some x => rfl
  | none => cases queue <;> rfl

theorem pending_finish (h : w.current = some x) : w.pending = x :: w.finish.pending := by
  simp [pending, finish, h]

/-! ## Catching up -/

def flush (apply : σ → ω → σ) (st : σ) (w : Writer ω) : σ := w.pending.foldl apply st

theorem flush_idle (st : σ) (h : w.isIdle = true) : w.flush apply st = st := by
  simp [flush, pending_idle h]

theorem flush_push (st : σ) : (w.push x).flush apply st = apply (w.flush apply st) x := by
  simp [flush]

theorem flush_take (st : σ) : w.take.flush apply st = w.flush apply st := by
  simp [flush]

theorem flush_finish (st : σ) (h : w.current = some x) :
    w.finish.flush apply (apply st x) = w.flush apply st := by
  simp [flush, pending_finish h]

section Overtaking

variable {R : σ → σ → Prop} {P : σ → Prop} {f : σ → σ}

/-- An operation that commutes with everything pending might as well have waited for it. -/
theorem flush_overtake (hrefl : ∀ st, R st st) (htrans : ∀ a b c, R a b → R b c → R a c)
    (hcongr : ∀ a b x, R a b → R (apply a x) (apply b x)) (hP : ∀ st x, P st → P (apply st x))
    (hcomm : ∀ st, P st → ∀ x ∈ w.pending, R (apply (f st) x) (f (apply st x))) {st : σ} (h : P st) :
    R (w.flush apply (f st)) (f (w.flush apply st)) := by
  unfold flush
  generalize w.pending = xs at hcomm
  have hfold (xs : List ω) (a b : σ) (hab : R a b) : R (xs.foldl apply a) (xs.foldl apply b) := by
    induction xs generalizing a b with
    | nil => exact hab
    | cons x xs ih => exact ih _ _ (hcongr a b x hab)
  induction xs generalizing st with
  | nil => exact hrefl _
  | cons x xs ih =>
      refine htrans _ _ _ (hfold xs _ _ (hcomm st h x List.mem_cons_self)) ?_
      exact ih (hP st x h) fun st hst y hy => hcomm st hst y (List.mem_cons_of_mem _ hy)

end Overtaking

end Writer

end Gavel
