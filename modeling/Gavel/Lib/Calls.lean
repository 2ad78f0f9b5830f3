/-!
# Programs that call a service

A service has a state and answers calls that read or change it. A call may fail before it has done
anything or after it has done all of it, and the caller cannot tell which. The rules here derive what
holds of the state after a program, whether it came through or stopped at a call.
-/

namespace Gavel.Calls

/-- How a call goes. -/
inductive Fate where
  | done | refused | lost
  deriving DecidableEq

/-- A service and how the calls to come go; those past the end are done. -/
structure Service (σ : Type) where
  state : σ
  fates : List Fate

/-- A program that calls a service: its result, or why it stopped. -/
def Program (σ ε α : Type) : Type := Service σ → Service σ × Except ε α

variable {σ ε α β : Type}

namespace Program

def result (a : α) : Program σ ε α := fun s => (s, .ok a)

def andThen (m : Program σ ε α) (f : α → Program σ ε β) : Program σ ε β := fun s =>
  match m s with
  | (s, .ok a) => f a s
  | (s, .error e) => (s, .error e)

instance monad : Monad (Program σ ε) where
  pure := result
  bind := andThen

/-- Stop. -/
def fail (e : ε) : Program σ ε α := fun s => (s, .error e)

/-- Call the service, and stop if that fails. -/
def call (e : ε) (op : σ → σ × α) : Program σ ε α := fun s =>
  match s.fates.headD .done with
  | .done => (⟨(op s.state).1, s.fates.tail⟩, .ok (op s.state).2)
  | .refused => (⟨s.state, s.fates.tail⟩, .error e)
  | .lost => (⟨(op s.state).1, s.fates.tail⟩, .error e)

/-- A call that reads. -/
def ask (e : ε) (query : σ → α) : Program σ ε α := call e fun s => (s, query s)

/-- A call that only changes the state. -/
def tell (e : ε) (change : σ → σ) : Program σ ε Unit := call e fun s => (change s, ())

end Program

/-- From every state that meets the precondition the program comes through with a result and a state that
meet the postcondition, or stops in a state that meets the other one. -/
def Holds (P : σ → Prop) (m : Program σ ε α) (Q : α → σ → Prop) (E : σ → Prop) : Prop :=
  ∀ s : Service σ, P s.state → (∀ a, (m s).2 = .ok a → Q a (m s).1.state) ∧
    (∀ e, (m s).2 = .error e → E (m s).1.state)

namespace Holds

open Program

variable {P P' E E' : σ → Prop} {Q Q' : α → σ → Prop} {R : β → σ → Prop} {m : Program σ ε α}
  {f : α → Program σ ε β} {e : ε}

theorem pure {a : α} (h : ∀ s, P s → Q a s) : Holds P (pure a : Program σ ε α) Q E := by
  intro s hs
  constructor
  · rintro _ ⟨⟩
    exact h _ hs
  · rintro _ ⟨⟩

theorem fail (h : ∀ s, P s → E s) : Holds P (fail e : Program σ ε α) Q E := by
  intro s hs
  constructor
  · rintro _ ⟨⟩
  · rintro _ ⟨⟩
    exact h _ hs

theorem bind (hm : Holds P m Q E) (hf : ∀ a, Holds (Q a) (f a) R E) : Holds P (m >>= f) R E := by
  intro s hs
  obtain ⟨hok, herror⟩ := hm s hs
  have hbind : (m >>= f) s = match m s with
      | (s, .ok a) => f a s
      | (s, .error e) => (s, .error e) := rfl
  rw [hbind]
  rcases hms : m s with ⟨t, a | a⟩
  · rw [hms] at herror
    constructor
    · rintro _ ⟨⟩
    · intro _ _
      exact herror _ rfl
  · rw [hms] at hok
    exact hf a t (hok a rfl)

/-- A call meets the postcondition if it is done, and the other one whether it did anything or not. -/
theorem call {op : σ → σ × α} (hdone : ∀ s, P s → Q (op s).2 (op s).1) (hrefused : ∀ s, P s → E s)
    (hlost : ∀ s, P s → E (op s).1) : Holds P (call e op) Q E := by
  intro s hs
  unfold Program.call
  cases s.fates.headD .done with
  | done =>
      constructor
      · rintro _ ⟨⟩
        exact hdone _ hs
      · rintro _ ⟨⟩
  | refused =>
      constructor
      · rintro _ ⟨⟩
      · intro _ _
        exact hrefused _ hs
  | lost =>
      constructor
      · rintro _ ⟨⟩
      · intro _ _
        exact hlost _ hs

theorem ask {query : σ → α} (hdone : ∀ s, P s → Q (query s) s) (hfailed : ∀ s, P s → E s) :
    Holds P (ask e query) Q E := call hdone hfailed hfailed

theorem tell {change : σ → σ} {Q : Unit → σ → Prop} (hdone : ∀ s, P s → Q () (change s))
    (hrefused : ∀ s, P s → E s) (hlost : ∀ s, P s → E (change s)) : Holds P (tell e change) Q E :=
  call hdone hrefused hlost

/-- Rule of consequence. -/
theorem weaken (h : Holds P' m Q' E') (hP : ∀ s, P s → P' s) (hQ : ∀ a s, Q' a s → Q a s)
    (hE : ∀ s, E' s → E s) : Holds P m Q E := by
  intro s hs
  obtain ⟨hok, herror⟩ := h s (hP _ hs)
  exact ⟨fun a ha => hQ _ _ (hok a ha), fun e he => hE _ (herror e he)⟩

/-- What the precondition says beside the state may be assumed. -/
theorem assuming {p : Prop} (h : p → Holds P m Q E) : Holds (fun s => P s ∧ p) m Q E :=
  fun s hs => h hs.2 s hs.1

/-- What holds however the program ends holds of the state after it. -/
theorem state_of (h : Holds P m (fun _ => E) E) (s : Service σ) (hs : P s.state) : E (m s).1.state := by
  obtain ⟨hok, herror⟩ := h s hs
  cases hm : (m s).2 with
  | ok a => exact hok a hm
  | error e => exact herror e hm

end Holds

end Gavel.Calls
