import Mathlib.Data.List.Induction

/-!
# Tables with a candidate beside what is published

A table holds, under each key, at most one published entry and at most one staged one. A staged entry
belongs to the version that staged it last; publishing a version replaces the published entries under
its keys by its staged ones.
-/

namespace Gavel

/-- Whether an entry is what readers see or part of a candidate. -/
inductive Mark where
  | published | staging
  deriving DecidableEq

/-- One row of such a table. -/
structure Entry (κ β : Type) where
  key : κ
  mark : Mark
  version : Nat
  body : β
  deriving DecidableEq

/-- A table with the primary key (key, mark). -/
structure Staging (κ β : Type) where
  rows : List (Entry κ β)
  unique : rows.Pairwise fun a b => ¬ (a.key = b.key ∧ a.mark = b.mark)

namespace Staging

variable {κ β : Type}

def empty : Staging κ β := ⟨[], .nil⟩

/-- An entry once its version is published. -/
def flip (v : Nat) (e : Entry κ β) : Entry κ β :=
  if e.mark = .staging ∧ e.version = v then { e with mark := .published } else e

theorem flip_of {v : Nat} {e : Entry κ β} (h : e.mark = .staging ∧ e.version = v) :
    flip v e = { e with mark := .published } := if_pos h

theorem flip_of_not {v : Nat} {e : Entry κ β} (h : ¬ (e.mark = .staging ∧ e.version = v)) :
    flip v e = e := if_neg h

variable [DecidableEq κ] {t : Staging κ β} {a c e : Entry κ β} {v : Nat} {k : κ} {b : β}

/-- Whether a version has staged an entry under a key. -/
def holds (t : Staging κ β) (v : Nat) (k : κ) : Bool :=
  t.rows.any fun e => e.mark = .staging ∧ e.version = v ∧ e.key = k

/-- Delete the entries that do not pass. -/
def keep (t : Staging κ β) (p : Entry κ β → Bool) : Staging κ β :=
  ⟨t.rows.filter p, t.unique.filter p⟩

/-- Stage an entry, in place of the staged one under its key whichever version that is of. -/
def stage (t : Staging κ β) (v : Nat) (k : κ) (b : β) : Staging κ β :=
  ⟨t.rows.filter (fun e => ¬ (e.key = k ∧ e.mark = .staging)) ++ [⟨k, .staging, v, b⟩], by
    refine List.pairwise_append.mpr ⟨t.unique.filter _, List.pairwise_singleton _ _, ?_⟩
    intro a ha c hc
    rw [List.mem_singleton.mp hc]
    simpa only [decide_eq_true_eq] using (List.mem_filter.mp ha).2⟩

/-- Delete everything staged. -/
def clear (t : Staging κ β) : Staging κ β := t.keep fun e => e.mark = .published

/-- Delete what one version has staged. -/
def drop (t : Staging κ β) (v : Nat) : Staging κ β :=
  t.keep fun e => ¬ (e.mark = .staging ∧ e.version = v)

/-- Whether publishing a version deletes an entry. -/
def replaced (t : Staging κ β) (v : Nat) (e : Entry κ β) : Bool :=
  e.mark = .published ∧ t.holds v e.key

theorem holds_iff :
    t.holds v k = true ↔ ∃ b, (⟨k, .staging, v, b⟩ : Entry κ β) ∈ t.rows := by
  simp only [holds, List.any_eq_true, decide_eq_true_eq]
  constructor
  · rintro ⟨⟨_, _, _, b⟩, he, rfl, rfl, rfl⟩
    exact ⟨b, he⟩
  · rintro ⟨b, he⟩
    exact ⟨_, he, rfl, rfl, rfl⟩

/-- A published entry that is left is under no key of the version. -/
theorem not_holds_of_kept (h : (!t.replaced v e) = true) (hmark : e.mark = .published) :
    t.holds v e.key ≠ true := by
  intro hholds
  simp [replaced, hmark, hholds] at h

theorem holds_of_mem (h : e ∈ t.rows) (hmark : e.mark = .staging) (hv : e.version = v) :
    t.holds v e.key = true := by
  obtain ⟨key, mark, version, body⟩ := e
  subst hmark hv
  exact holds_iff.mpr ⟨body, h⟩

/-- What is left and then published has one entry under each key and mark. -/
theorem flip_apart (ha : a ∈ t.rows) (hc : c ∈ t.rows) (hka : (!t.replaced v a) = true)
    (hkc : (!t.replaced v c) = true) (hne : ¬ (a.key = c.key ∧ a.mark = c.mark)) :
    ¬ ((flip v a).key = (flip v c).key ∧ (flip v a).mark = (flip v c).mark) := by
  by_cases hfa : a.mark = .staging ∧ a.version = v
  · by_cases hfc : c.mark = .staging ∧ c.version = v
    · rw [flip_of hfa, flip_of hfc]
      rintro ⟨hkey, -⟩
      exact hne ⟨hkey, hfa.1.trans hfc.1.symm⟩
    · rw [flip_of hfa, flip_of_not hfc]
      rintro ⟨hkey, hmark⟩
      apply not_holds_of_kept hkc hmark.symm
      rw [← show a.key = c.key from hkey]
      exact holds_of_mem ha hfa.1 hfa.2
  · by_cases hfc : c.mark = .staging ∧ c.version = v
    · rw [flip_of_not hfa, flip_of hfc]
      rintro ⟨hkey, hmark⟩
      apply not_holds_of_kept hka hmark
      rw [show a.key = c.key from hkey]
      exact holds_of_mem hc hfc.1 hfc.2
    · rw [flip_of_not hfa, flip_of_not hfc]
      exact hne

/-- Delete the published entries a version replaces, then publish what it has staged. -/
def publish (t : Staging κ β) (v : Nat) : Staging κ β :=
  ⟨(t.rows.filter fun e => !t.replaced v e).map (flip v), by
    rw [List.pairwise_map]
    refine (t.unique.filter _).imp_of_mem ?_
    intro a c ha hc hne
    obtain ⟨ha, hka⟩ := List.mem_filter.mp ha
    obtain ⟨hc, hkc⟩ := List.mem_filter.mp hc
    exact flip_apart ha hc hka hkc hne⟩

/-- What is published after a version was: what it had staged, and the entries under other keys. -/
theorem mem_publish_iff {u : Nat} :
    (⟨k, .published, u, b⟩ : Entry κ β) ∈ (t.publish v).rows ↔
      (u = v ∧ (⟨k, .staging, v, b⟩ : Entry κ β) ∈ t.rows) ∨
        ((⟨k, .published, u, b⟩ : Entry κ β) ∈ t.rows ∧ t.holds v k ≠ true) := by
  simp only [publish, List.mem_map, List.mem_filter]
  constructor
  · rintro ⟨⟨key, mark, version, body⟩, ⟨he, hkept⟩, hflip⟩
    by_cases hf : mark = .staging ∧ version = v
    · rw [flip_of hf, Entry.mk.injEq] at hflip
      obtain ⟨rfl, -, rfl, rfl⟩ := hflip
      obtain ⟨rfl, rfl⟩ := hf
      exact .inl ⟨rfl, he⟩
    · rw [flip_of_not hf] at hflip
      obtain ⟨rfl, rfl, rfl, rfl⟩ := Entry.mk.inj hflip
      exact .inr ⟨he, not_holds_of_kept hkept rfl⟩
  · rintro (⟨rfl, he⟩ | ⟨he, hnot⟩)
    · exact ⟨_, ⟨he, by simp [replaced]⟩, flip_of ⟨rfl, rfl⟩⟩
    · exact ⟨_, ⟨he, by simp [replaced, hnot]⟩, flip_of_not (by simp)⟩

/-- Under some keys, what is published after a version is exactly what it staged if and only if
nothing is published there that it does not stage again. -/
theorem publish_exact_iff (P : κ → Prop) :
    (∀ k, P k → ∀ u b, (⟨k, .published, u, b⟩ : Entry κ β) ∈ (t.publish v).rows ↔
        u = v ∧ (⟨k, .staging, v, b⟩ : Entry κ β) ∈ t.rows) ↔
      ∀ k, P k → ∀ u b, (⟨k, .published, u, b⟩ : Entry κ β) ∈ t.rows → t.holds v k = true := by
  simp only [mem_publish_iff]
  constructor
  · intro h k hk u b hb
    by_contra hnot
    obtain ⟨-, hstaged⟩ := (h k hk u b).mp (.inr ⟨hb, hnot⟩)
    exact hnot (holds_iff.mpr ⟨b, hstaged⟩)
  · intro h k hk u b
    constructor
    · rintro (hstaged | ⟨hb, hnot⟩)
      · exact hstaged
      · exact absurd (h k hk u b hb) hnot
    · exact .inl

/-! ## Sequences of operations -/

/-- A staged entry as it was written: its version, its key and its body. -/
abbrev Written (κ β : Type) := Nat × κ × β

/-- One operation on a table. -/
inductive Op (κ β : Type) where
  | clear
  | write (entries : List (Written κ β))
  | publish (v : Nat)
  | drop (v : Nat)

def run (t : Staging κ β) : Op κ β → Staging κ β
  | .clear => t.clear
  | .write entries => entries.foldl (fun t w => t.stage w.1 w.2.1 w.2.2) t
  | .publish v => t.publish v
  | .drop v => t.drop v

/-- The last of some entries under a key: its version and its body. -/
def lastAt (k : κ) (log : List (Written κ β)) : Option (Nat × β) :=
  (log.filter (·.2.1 = k)).getLast?.map fun w => (w.1, w.2.2)

/-- The last of some entries of a version under a key. -/
def lastBy (v : Nat) (k : κ) (log : List (Written κ β)) : Option β :=
  (log.filter fun w => w.1 = v ∧ w.2.1 = k).getLast?.map fun w => w.2.2

variable {log : List (Written κ β)} {u : Nat}

theorem lastAt_concat (w : Written κ β) :
    lastAt k (log ++ [w]) = if w.2.1 = k then some (w.1, w.2.2) else lastAt k log := by
  simp only [lastAt, List.filter_append, List.filter_cons, List.filter_nil, decide_eq_true_eq]
  split <;> simp

theorem lastBy_concat (w : Written κ β) :
    lastBy v k (log ++ [w]) = if w.1 = v ∧ w.2.1 = k then some w.2.2 else lastBy v k log := by
  simp only [lastBy, List.filter_append, List.filter_cons, List.filter_nil, decide_eq_true_eq]
  split <;> simp

/-- The last entry under a key, if it is a version's, is the version's last. -/
theorem lastBy_of_lastAt (h : lastAt k log = some (v, b)) : lastBy v k log = some b := by
  induction log using List.reverseRecOn with
  | nil => cases h
  | append_singleton log w ih =>
      rw [lastAt_concat] at h
      rw [lastBy_concat]
      split at h
      · rename_i hk
        obtain ⟨rfl, rfl⟩ := Prod.mk.inj (Option.some.inj h)
        rw [if_pos ⟨rfl, hk⟩]
      · rename_i hk
        rw [if_neg fun hw => hk hw.2, ih h]

/-- What a table holds of a version are the entries that were written last under their keys. -/
def Follows (t : Staging κ β) (log : List (Written κ β)) (v : Nat) : Prop :=
  ∀ k b, (⟨k, .staging, v, b⟩ : Entry κ β) ∈ t.rows ↔ lastAt k log = some (v, b)

theorem mem_stage : e ∈ (t.stage v k b).rows ↔
    (e ∈ t.rows ∧ ¬ (e.key = k ∧ e.mark = .staging)) ∨ e = ⟨k, .staging, v, b⟩ := by
  simp only [stage, List.mem_append, List.mem_filter, decide_eq_true_eq, List.mem_singleton]

theorem Follows.clear : Follows t.clear [] v := by
  intro k b
  simp [Staging.clear, keep, lastAt]

theorem Follows.stage (h : Follows t log v) (w : Written κ β) :
    Follows (t.stage w.1 w.2.1 w.2.2) (log ++ [w]) v := by
  intro k b
  rw [mem_stage, lastAt_concat, h k b]
  by_cases hk : w.2.1 = k
  · simp only [hk, and_self, not_true, and_false, false_or, if_true, Entry.mk.injEq, true_and,
      Option.some.injEq, Prod.mk.injEq]
    exact ⟨fun heq => ⟨heq.1.symm, heq.2.symm⟩, fun heq => ⟨heq.1.symm, heq.2.symm⟩⟩
  · rw [if_neg hk]
    constructor
    · rintro (⟨hlast, -⟩ | heq)
      · exact hlast
      · exact absurd (Entry.mk.inj heq).1.symm hk
    · exact fun hlast => .inl ⟨hlast, fun heq => hk heq.1.symm⟩

theorem Follows.write (h : Follows t log v) (entries : List (Written κ β)) :
    Follows (t.run (.write entries)) (log ++ entries) v := by
  induction entries generalizing t log with
  | nil => rwa [List.append_nil]
  | cons w entries ih =>
      rw [← List.singleton_append, ← List.append_assoc]
      exact ih (h.stage w)

theorem Follows.drop (h : Follows t log v) (hne : u ≠ v) : Follows (t.drop u) log v := by
  intro k b
  rw [← h k b, Staging.drop, keep, List.mem_filter]
  simp [Ne.symm hne]

/-- The same entries are published. -/
def SamePublished (t t' : Staging κ β) : Prop :=
  ∀ e : Entry κ β, e.mark = .published → (e ∈ t'.rows ↔ e ∈ t.rows)

omit [DecidableEq κ] in
theorem SamePublished.refl (t : Staging κ β) : SamePublished t t := fun _ _ => Iff.rfl

omit [DecidableEq κ] in
theorem SamePublished.trans {t' t'' : Staging κ β} (h : SamePublished t t')
    (h' : SamePublished t' t'') : SamePublished t t'' := fun e he => (h' e he).trans (h e he)

theorem SamePublished.stage : SamePublished t (t.stage v k b) := by
  intro e he
  rw [mem_stage]
  constructor
  · rintro (⟨hmem, -⟩ | rfl)
    · exact hmem
    · cases he
  · exact fun hmem => .inl ⟨hmem, fun heq => by rw [he] at heq; cases heq.2⟩

/-- Only publishing changes what is published. -/
theorem samePublished_run {op : Op κ β} (h : ∀ v, op ≠ .publish v) : SamePublished t (t.run op) := by
  cases op with
  | clear =>
      intro e he
      simp [run, Staging.clear, keep, he]
  | write entries =>
      induction entries generalizing t with
      | nil => exact .refl t
      | cons w entries ih => exact SamePublished.stage.trans (ih fun _ => by simp)
  | publish v => exact absurd rfl (h v)
  | drop v =>
      intro e he
      simp [run, Staging.drop, keep, he]

/-- Publishing a version publishes its last entries under the keys it wrote and leaves the others. -/
structure Exact (t t' : Staging κ β) (log : List (Written κ β)) (v : Nat) : Prop where
  replaced : ∀ k b, lastBy v k log = some b →
    ∀ u b', (⟨k, .published, u, b'⟩ : Entry κ β) ∈ t'.rows ↔ u = v ∧ b' = b
  kept : ∀ k, lastBy v k log = none →
    ∀ u b, (⟨k, .published, u, b⟩ : Entry κ β) ∈ t'.rows ↔ (⟨k, .published, u, b⟩ : Entry κ β) ∈ t.rows

/-- Under every key a version wrote, its last entry is the last of all. -/
def Owns (log : List (Written κ β)) (v : Nat) : Prop :=
  ∀ k b, lastBy v k log = some b → lastAt k log = some (v, b)

theorem Follows.holds_iff (h : Follows t log v) :
    t.holds v k = true ↔ ∃ b, lastAt k log = some (v, b) := by
  rw [Staging.holds_iff]
  exact exists_congr fun b => h k b

theorem exact_publish_iff (h : Follows t log v)
    (hnew : ∀ e ∈ t.rows, e.mark = .published → e.version ≠ v) :
    Exact t (t.publish v) log v ↔ Owns log v := by
  constructor
  · intro hexact k b hlast
    have hmem := (hexact.replaced k b hlast v b).mpr ⟨rfl, rfl⟩
    rw [mem_publish_iff] at hmem
    rcases hmem with ⟨-, hstaged⟩ | ⟨hpublished, -⟩
    · exact (h k b).mp hstaged
    · exact absurd rfl (hnew _ hpublished rfl)
  · intro howns
    refine ⟨?_, ?_⟩
    · intro k b hlast u b'
      have hat := howns k b hlast
      rw [mem_publish_iff, h k b', hat]
      have hholds : t.holds v k = true := h.holds_iff.mpr ⟨b, hat⟩
      simp only [Option.some.injEq, Prod.mk.injEq, true_and, hholds, ne_eq, not_true, and_false, or_false,
        eq_comm (a := b)]
    · intro k hlast u b
      have hnone : t.holds v k ≠ true := by
        rw [ne_eq, h.holds_iff]
        rintro ⟨b', hat⟩
        rw [lastBy_of_lastAt hat] at hlast
        cases hlast
      rw [mem_publish_iff]
      constructor
      · rintro (⟨-, hstaged⟩ | ⟨hpublished, -⟩)
        · exact absurd (Staging.holds_iff.mpr ⟨b, hstaged⟩) hnone
        · exact hpublished
      · exact fun hpublished => .inr ⟨hpublished, hnone⟩

end Staging

end Gavel
