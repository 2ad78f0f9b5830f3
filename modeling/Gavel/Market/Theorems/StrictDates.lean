import Gavel.Market.Archive
import Gavel.Market.Theorems.Dates

/-!
# Dates as text

A date is read field by field, each field in its own range, and what is read is converted without a
check. Where that makes a date of the calendar out of its spelling, and out of nothing else.
-/

namespace Gavel.Market

open Gavel.Cluster (Millis)
open Gavel.Calendar Gavel.Text

variable {s year month day : Text} {rest : List Text} {y mo d : Nat} {a : Date} {m : Millis} {c : Catalog}

/-- The spelling of a date from 1970 on, four digits for the year and two each for month and day. -/
structure Spells (s : Text) (a : Date) : Prop where
  first : ¬ a.Before firstDate
  digits : a.year ≤ 9999
  text : s = padded 4 a.year.toNat ++ '-' :: padded 2 a.month ++ '-' :: padded 2 a.day

/-- A text is read if it spells a date, as the midnight of that date, and is written again so. -/
structure ReadStrictly (s : Text) : Prop where
  reads : ∀ m : Nat, parseDate s = some m ↔ ∃ a, Spells s a ∧ (m : Int) = a.days * 86400000
  back : ∀ m, parseDate s = some m → toDateString m = s

/-- Every patch and tier whose date spells none is reported. -/
structure ReportsDates (c : Catalog) : Prop where
  patches : ∀ p ∈ c.patches, (¬ ∃ a, Spells p.started a) → .patchDate p.patch p.started ∈ c.problems
  tiers : ∀ t ∈ c.raidTiers, (¬ ∃ a, Spells t.opened a) → .tierDate t.id t.opened ∈ c.problems

/-! ## A spelled date -/

theorem year_of_not_before (h : ¬ a.Before firstDate) : 1970 ≤ a.year := by
  by_contra hlt
  exact h (.inl (Int.not_le.mp hlt))

theorem midnight (hfirst : ¬ a.Before firstDate) (hyear : a.year ≤ 9999) :
    (fromUtcDate a.year a.month a.day : Int) = a.days * 86400000 := by
  have hlast : ¬ lastDate.Before a := by
    intro h
    have hle : (584556019 : Int) ≤ a.year := by
      rcases h with h | ⟨h, -⟩
      · exact Int.le_of_lt h
      · exact Int.le_of_eq h
    omega
  obtain ⟨h0, h1⟩ := days_bounds hfirst hlast
  exact fromUtcDate_days h0 (by omega)

theorem Spells.fields (h : Spells s a) :
    Fields s (padded 4 a.year.toNat) (padded 2 a.month) (padded 2 a.day) [] a.year.toNat a.month a.day := by
  have hyear := h.digits
  have hmonth := a.month_le
  have hday := a.day_le.trans (monthLength_le_31 _ _)
  constructor
  · have hparts : ∀ part ∈ [padded 4 a.year.toNat, padded 2 a.month, padded 2 a.day], '-' ∉ part := by
      simp [not_mem_padded]
    have htext : s = ['-'].intercalate [padded 4 a.year.toNat, padded 2 a.month, padded 2 a.day] := by
      simp [h.text, List.intercalate]
    rw [htext]
    exact List.splitOn_intercalate '-' hparts (List.cons_ne_nil _ _)
  · exact parseNat_padded 4 (by omega)
  · exact parseNat_padded 2 (hmonth.trans (by decide))
  · exact parseNat_padded 2 (hday.trans (by decide))
  · exact ⟨a.month_pos, hmonth, a.day_pos, hday⟩

theorem Spells.parseDate (h : Spells s a) : parseDate s = some (fromUtcDate a.year a.month a.day) := by
  have hyear := year_of_not_before h.first
  have hcast : ((a.year.toNat : Nat) : Int) = a.year := Int.toNat_of_nonneg (by omega)
  rw [h.fields.parseDate, hcast]

theorem Spells.toDateString (h : Spells s a) :
    toDateString (fromUtcDate a.year a.month a.day) = s := by
  have hmidnight := midnight h.first h.digits
  have hyear := year_of_not_before h.first
  have hlt := fromUtcDate_lt a.year a.month a.day
  generalize fromUtcDate a.year a.month a.day = at' at hmidnight hlt ⊢
  have habs : a.year.natAbs = a.year.toNat := by omega
  have hpos : ¬ a.year < 0 := by omega
  simp only [Market.toDateString, toUtcParts_eq (a := a) hlt (by omega), dateText, if_neg hpos, habs,
    h.text]

/-! ## Tidy texts -/

/-- What passes the checks has no more and no longer fields, no sign, and a day its month has. -/
def Tidy (s : Text) : Prop :=
  ∀ year month day rest y mo d, Fields s year month day rest y mo d →
    rest = [] ∧ year.length = 4 ∧ month.length = 2 ∧ day.length = 2 ∧ '+' ∉ s ∧
      1970 ≤ y ∧ d ≤ monthLength y mo

theorem padded_of_parseNat {most n : Nat} (h : parseNat most s = some n) (hp : '+' ∉ s) :
    s = padded s.length n ∧ n < 10 ^ s.length := by
  obtain ⟨digits, rfl | rfl, hne, hd, rfl, -⟩ := parseNat_some h
  · exact absurd List.mem_cons_self hp
  · exact ⟨(padded_ofDigitChars hne hd).symm, ofDigitChars_lt hd⟩

theorem Tidy.exists_spells (h : Tidy s) (hm : parseDate s = some m) : ∃ a, Spells s a := by
  obtain ⟨year, month, day, rest, y, mo, d, hf, -⟩ := exists_fields hm
  obtain ⟨rfl, hyear, hmonth, hday, hp, hfirst, hlast⟩ := h _ _ _ _ _ _ _ hf
  have htext : s = year ++ '-' :: month ++ '-' :: day := by
    calc
      s = ['-'].intercalate (s.splitOn '-') := (List.intercalate_splitOn '-').symm
      _ = year ++ '-' :: month ++ '-' :: day := by simp [hf.split, List.intercalate]
  simp only [htext, List.mem_append, List.mem_cons, not_or] at hp
  obtain ⟨hy, hlt⟩ := padded_of_parseNat hf.year hp.1.1
  obtain ⟨hmo, -⟩ := padded_of_parseNat hf.month hp.1.2.2
  obtain ⟨hd, -⟩ := padded_of_parseNat hf.day hp.2.2
  rw [hyear] at hy hlt
  rw [hmonth] at hmo
  rw [hday] at hd
  refine ⟨⟨y, mo, d, hf.range.1, hf.range.2.1, hf.range.2.2.1, hlast⟩, ?_, ?_, ?_⟩
  · intro hbefore
    rcases hbefore with hlt | ⟨-, hlt | ⟨-, hlt⟩⟩
    · have hyears : (y : Int) < 1970 := hlt
      omega
    · exact absurd hlt (Nat.not_lt.mpr hf.range.1)
    · exact absurd hlt (Nat.not_lt.mpr hf.range.2.2.1)
  · change (y : Int) ≤ 9999
    omega
  · change s = padded 4 (y : Int).toNat ++ '-' :: padded 2 mo ++ '-' :: padded 2 d
    rw [Int.toNat_natCast, ← hy, ← hmo, ← hd]
    exact htext

theorem Spells.tidy (h : Spells s a) : Tidy s := by
  intro year month day rest y mo d hf
  have hg := h.fields
  have hyear := h.digits
  have hfirst := year_of_not_before h.first
  have hmonth := a.month_le
  have hday := a.day_le.trans (monthLength_le_31 _ _)
  have hsplit := hf.split
  rw [hg.split] at hsplit
  obtain ⟨rfl, rfl, rfl, rfl⟩ : padded 4 a.year.toNat = year ∧ padded 2 a.month = month ∧
      padded 2 a.day = day ∧ [] = rest := by
    simpa using hsplit
  obtain rfl := Option.some.inj (hg.year.symm.trans hf.year)
  obtain rfl := Option.some.inj (hg.month.symm.trans hf.month)
  obtain rfl := Option.some.inj (hg.day.symm.trans hf.day)
  refine ⟨rfl, length_padded (by decide) (by omega), length_padded (by decide) (by omega),
    length_padded (by decide) (by omega), ?_, by omega, ?_⟩
  · simp [h.text, not_mem_padded]
  · rw [Int.toNat_of_nonneg (by omega)]
    exact a.day_le

theorem tidy_iff (s : Text) : Tidy s ↔ ∀ m, parseDate s = some m → ∃ a, Spells s a := by
  constructor
  · intro h m hm
    exact h.exists_spells hm
  · intro h year month day rest y mo d hf
    obtain ⟨a, ha⟩ := h _ hf.parseDate
    exact ha.tidy _ _ _ _ _ _ _ hf

theorem tidy_iff_refused (s : Text) : Tidy s ↔ ((¬ ∃ a, Spells s a) → parseDate s = none) := by
  rw [tidy_iff]
  constructor
  · intro h hno
    rw [Option.eq_none_iff_forall_ne_some]
    intro m hm
    exact hno (h m hm)
  · intro h m hm
    by_contra hno
    rw [h hno] at hm
    cases hm

theorem readStrictly_iff (s : Text) : ReadStrictly s ↔ Tidy s := by
  rw [tidy_iff]
  constructor
  · intro h m hm
    obtain ⟨a, ha, -⟩ := (h.reads m).mp hm
    exact ⟨a, ha⟩
  · intro h
    constructor
    · intro m
      constructor
      · intro hm
        obtain ⟨a, ha⟩ := h m hm
        obtain rfl := Option.some.inj (ha.parseDate.symm.trans hm)
        exact ⟨a, ha, midnight ha.first ha.digits⟩
      · rintro ⟨a, ha, hm⟩
        rw [ha.parseDate, Int.ofNat_inj.mp (hm.trans (midnight ha.first ha.digits).symm)]
    · intro m hm
      obtain ⟨a, ha⟩ := h m hm
      obtain rfl := Option.some.inj (ha.parseDate.symm.trans hm)
      exact ha.toDateString

/-! ## The problems of a catalogue -/

theorem tierProblem_eq_tierDate {tier : RaidTier} {id opened : Text} :
    c.tierProblem tier = some (.tierDate id opened) ↔
      tier.id = id ∧ tier.opened = opened ∧ parseDate opened = none := by
  unfold Catalog.tierProblem
  by_cases hnone : (parseDate tier.opened).isNone
  · rw [if_pos hnone]
    simp only [Option.some.injEq, Catalog.Problem.tierDate.injEq]
    constructor
    · rintro ⟨rfl, rfl⟩
      exact ⟨rfl, rfl, Option.isNone_iff_eq_none.mp hnone⟩
    · rintro ⟨hid, hopened, -⟩
      exact ⟨hid, hopened⟩
  · rw [if_neg hnone]
    constructor
    · intro h
      split at h
      · cases h
      · split at h <;> cases h
    · rintro ⟨-, rfl, h⟩
      exact absurd (Option.isNone_iff_eq_none.mpr h) hnone

theorem tierProblem_ne_patchDate {tier : RaidTier} {name started : Text} :
    c.tierProblem tier ≠ some (.patchDate name started) := by
  unfold Catalog.tierProblem
  split
  · exact fun h => by cases h
  · split
    · exact fun h => by cases h
    · split <;> exact fun h => by cases h

theorem patchDate_mem_problems {name started : Text} :
    .patchDate name started ∈ c.problems ↔
      ∃ p ∈ c.patches, p.patch = name ∧ p.started = started ∧ parseDate started = none := by
  simp only [Catalog.problems, List.mem_append, List.mem_map, List.mem_filter, List.mem_filterMap,
    tierProblem_ne_patchDate, reduceCtorEq, and_false, exists_false, or_false, Option.isNone_iff_eq_none,
    Catalog.Problem.patchDate.injEq]
  constructor
  · rintro ⟨p, ⟨hp, hnone⟩, rfl, rfl⟩
    exact ⟨p, hp, rfl, rfl, hnone⟩
  · rintro ⟨p, hp, rfl, rfl, hnone⟩
    exact ⟨p, ⟨hp, hnone⟩, rfl, rfl⟩

theorem tierDate_mem_problems {id opened : Text} :
    .tierDate id opened ∈ c.problems ↔
      ∃ t ∈ c.raidTiers, t.id = id ∧ t.opened = opened ∧ parseDate opened = none := by
  simp only [Catalog.problems, List.mem_append, List.mem_map, List.mem_filterMap, reduceCtorEq,
    and_false, exists_false, false_or, tierProblem_eq_tierDate]

theorem reportsDates_iff (c : Catalog) :
    ReportsDates c ↔ (∀ p ∈ c.patches, Tidy p.started) ∧ ∀ t ∈ c.raidTiers, Tidy t.opened := by
  constructor
  · intro h
    constructor
    · intro p hp
      refine (tidy_iff_refused p.started).mpr fun hno => ?_
      obtain ⟨-, -, -, -, hnone⟩ := patchDate_mem_problems.mp (h.patches p hp hno)
      exact hnone
    · intro t ht
      refine (tidy_iff_refused t.opened).mpr fun hno => ?_
      obtain ⟨-, -, -, -, hnone⟩ := tierDate_mem_problems.mp (h.tiers t ht hno)
      exact hnone
  · rintro ⟨hpatches, htiers⟩
    constructor
    · intro p hp hno
      exact patchDate_mem_problems.mpr
        ⟨p, hp, rfl, rfl, (tidy_iff_refused p.started).mp (hpatches p hp) hno⟩
    · intro t ht hno
      exact tierDate_mem_problems.mpr
        ⟨t, ht, rfl, rfl, (tidy_iff_refused t.opened).mp (htiers t ht) hno⟩

/-- Exactly the tidy texts are read strictly, and a catalogue reports every date that is not one exactly
when all of its dates are tidy. -/
theorem dates_strict_iff (s : Text) (c : Catalog) :
    (ReadStrictly s ↔ Tidy s) ∧
      (ReportsDates c ↔ (∀ p ∈ c.patches, Tidy p.started) ∧ ∀ t ∈ c.raidTiers, Tidy t.opened) :=
  ⟨readStrictly_iff s, reportsDates_iff c⟩

/-- The last of February and three days more is read as the third of March. -/
theorem thirty_first_february :
    ¬ ReadStrictly ['2', '0', '2', '6', '-', '0', '2', '-', '3', '1'] := by
  intro h
  have hback := h.back (fromUtcDate 2026 3 3) (by decide)
  exact absurd hback (by decide)

end Gavel.Market
