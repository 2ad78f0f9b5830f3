import Gavel.Lib.Keyed

/-!
# Maps from keys to values

A map is a table of pairs keyed by the first component. What is found under a key after an operation is
given by one lemma for each operation.
-/

namespace Gavel

/-- A map with at most one value under a key. -/
abbrev Dict (κ β : Type) := Keyed (κ × β) κ Prod.fst

namespace Dict

variable {κ β : Type} {m : Dict κ β} {k j : κ} {b : β} {p : κ → β → Bool}

/-- Keep the pairs that pass. -/
def retain (m : Dict κ β) (p : κ → β → Bool) : Dict κ β := Keyed.keep m fun e => p e.1 e.2

theorem mem_retain : (k, b) ∈ (m.retain p).rows ↔ (k, b) ∈ m.rows ∧ p k b = true := Keyed.mem_keep

variable [DecidableEq κ]

/-- The value under a key. -/
def get? (m : Dict κ β) (k : κ) : Option β := (m.rows.find? (·.1 = k)).map Prod.snd

theorem get?_eq_some_iff : get? m k = some b ↔ (k, b) ∈ m.rows := by
  constructor
  · intro h
    obtain ⟨e, he, rfl⟩ := Option.map_eq_some_iff.mp h
    have hk : e.1 = k := by simpa using List.find?_some he
    rw [← hk]
    exact List.mem_of_find?_eq_some he
  · intro h
    have hsome : (m.rows.find? (·.1 = k)).isSome = true :=
      List.find?_isSome.mpr ⟨(k, b), h, by simp⟩
    obtain ⟨e, he⟩ := Option.isSome_iff_exists.mp hsome
    have hk : e.1 = k := by simpa using List.find?_some he
    have heq : e = (k, b) := Keyed.eq_of_key (t := m) (List.mem_of_find?_eq_some he) h hk
    rw [get?, he, heq]
    rfl

theorem get?_retain : get? (m.retain p) k = (get? m k).filter (p k) := by
  apply Option.ext
  intro b
  rw [get?_eq_some_iff, mem_retain, Option.filter_eq_some_iff, get?_eq_some_iff]

/-- Drop a key. -/
def erase (m : Dict κ β) (k : κ) : Dict κ β := m.retain fun j _ => j ≠ k

@[simp] theorem get?_erase_self : get? (m.erase k) k = none := by
  rw [erase, get?_retain, Option.filter_eq_none_iff]
  simp

theorem get?_erase_ne (h : j ≠ k) : get? (m.erase k) j = get? m j := by
  rw [erase, get?_retain]
  cases hm : get? m j <;> simp [h]

/-- Put a value under a key, in the place of what was there. -/
def put (m : Dict κ β) (k : κ) (b : β) : Dict κ β := Keyed.add (m.erase k) (k, b)

theorem mem_put {c : β} : (j, c) ∈ (m.put k b).rows ↔ (j ≠ k ∧ (j, c) ∈ m.rows) ∨ (j = k ∧ c = b) := by
  have hfree : ¬ Keyed.has (m.erase k) k = true := by
    rw [Keyed.has_iff]
    rintro ⟨⟨i, d⟩, hmem, rfl⟩
    simpa [erase] using (mem_retain.mp hmem).2
  rw [put, Keyed.mem_add, erase, mem_retain]
  simp only [ne_eq, decide_eq_true_eq, Prod.mk.injEq]
  constructor
  · rintro (⟨hmem, hne⟩ | ⟨heq, -⟩)
    · exact .inl ⟨hne, hmem⟩
    · exact .inr heq
  · rintro (⟨hne, hmem⟩ | heq)
    · exact .inl ⟨hmem, hne⟩
    · exact .inr ⟨heq, hfree⟩

@[simp] theorem get?_put_self : get? (m.put k b) k = some b :=
  get?_eq_some_iff.mpr (mem_put.mpr (.inr ⟨rfl, rfl⟩))

theorem get?_put_ne (h : j ≠ k) : get? (m.put k b) j = get? m j := by
  apply Option.ext
  intro c
  rw [get?_eq_some_iff, mem_put, get?_eq_some_iff]
  simp [h]

/-- The rows of several keys are the values under them, each once. -/
theorem rows_perm {keys : List κ} (h : keys.Nodup) (m : Dict κ β) :
    (m.rows.filter fun e => keys.any (· = e.1)).Perm (keys.filterMap fun k => (get? m k).map fun b => (k, b)) := by
  refine (List.perm_ext_iff_of_nodup (m.nodup.filter _) (h.filterMap fun k k' e hk hk' => ?_)).mpr fun e => ?_
  · obtain ⟨b, -, rfl⟩ := Option.map_eq_some_iff.mp hk
    obtain ⟨b', -, heq⟩ := Option.map_eq_some_iff.mp hk'
    exact (congrArg Prod.fst heq).symm
  · have hany : keys.any (· = e.1) = true ↔ e.1 ∈ keys := by simp
    rw [List.mem_filter, hany, List.mem_filterMap]
    constructor
    · rintro ⟨he, hk⟩
      exact ⟨e.1, hk, by rw [get?_eq_some_iff.mpr he, Option.map_some]⟩
    · rintro ⟨k, hk, he⟩
      obtain ⟨b, hb, rfl⟩ := Option.map_eq_some_iff.mp he
      exact ⟨get?_eq_some_iff.mp hb, hk⟩

@[simp] theorem get?_empty : get? (Keyed.empty : Dict κ β) k = none := rfl

end Dict

end Gavel
