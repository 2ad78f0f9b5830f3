import Mathlib.Tactic.IntervalCases
import Mathlib.Data.Int.Init

/-!
# The Gregorian calendar

Dates and the number of days since 1970, by eras of 400 years. A year is counted from March, so that
the leap day is its last; what an era has to a year and a year to a month is settled apart, and the
conversions in both directions follow.
-/

namespace Gavel.Calendar

/-! ## Dates -/

def IsLeap (year : Int) : Prop := year % 4 = 0 ∧ (year % 100 ≠ 0 ∨ year % 400 = 0)

instance IsLeap.decidable (year : Int) : Decidable (IsLeap year) := by
  unfold IsLeap
  infer_instance

def monthLength (year : Int) : Nat → Nat
  | 2 => if IsLeap year then 29 else 28
  | 4 | 6 | 9 | 11 => 30
  | _ => 31

theorem monthLength_le_31 (year : Int) (month : Nat) : monthLength year month ≤ 31 := by
  unfold monthLength
  split
  · split <;> decide
  all_goals decide

/-- A date of the calendar. -/
structure Date where
  year : Int
  month : Nat
  day : Nat
  month_pos : 1 ≤ month
  month_le : month ≤ 12
  day_pos : 1 ≤ day
  day_le : day ≤ monthLength year month

/-- Calendar order. -/
def Date.Before (a b : Date) : Prop :=
  a.year < b.year ∨ a.year = b.year ∧ (a.month < b.month ∨ a.month = b.month ∧ a.day < b.day)

/-! ## Years of an era -/

/-- The days of an era before one of its years. -/
def eraStart (yoe : Int) : Int := 365 * yoe + yoe / 4 - yoe / 100

/-- The year of an era that holds one of its days. -/
def eraYear (doe : Int) : Int := (doe - doe / 1460 + doe / 36524 - doe / 146096) / 365

/-- The days of a year counted from March: its February is that of the next year. -/
def yearLength (y : Int) : Int := if IsLeap (y + 1) then 366 else 365

theorem eraYear_mono {a b : Int} (h : a ≤ b) : eraYear a ≤ eraYear b := by
  have hstep : ∀ n : Int, n - n / 1460 + n / 36524 - n / 146096 ≤
      n + 1 - (n + 1) / 1460 + (n + 1) / 36524 - (n + 1) / 146096 := by
    intro n
    omega
  have hmono : a - a / 1460 + a / 36524 - a / 146096 ≤ b - b / 1460 + b / 36524 - b / 146096 := by
    obtain ⟨k, rfl⟩ := Int.le.dest h
    induction k with
    | zero => simp
    | succ k ih =>
        refine (ih (by omega)).trans ?_
        have := hstep (a + k)
        rw [Nat.cast_succ, ← Int.add_assoc]
        exact this
  exact Int.ediv_le_ediv (by decide) hmono

/-- At both ends of each year of the era. -/
theorem eraYear_ends : ∀ k < 400, eraYear (eraStart (k : Nat)) = k ∧
    eraYear (eraStart (k : Nat) + yearLength k - 1) = k := by
  decide +kernel

theorem eraYear_eq {yoe doy : Int} (h0 : 0 ≤ yoe) (h1 : yoe < 400) (hdoy : 0 ≤ doy)
    (hlen : doy < yearLength yoe) : eraYear (eraStart yoe + doy) = yoe := by
  obtain ⟨k, rfl⟩ := Int.eq_ofNat_of_zero_le h0
  obtain ⟨hfirst, hlast⟩ := eraYear_ends k (by omega)
  have hlow := eraYear_mono (show eraStart k ≤ eraStart k + doy by omega)
  have hhigh := eraYear_mono (show eraStart k + doy ≤ eraStart k + yearLength k - 1 by omega)
  omega

theorem eraStart_succ (k : Int) (hk : (k + 1) % 400 ≠ 0) :
    eraStart (k + 1) = eraStart k + yearLength k := by
  unfold eraStart yearLength
  by_cases hleap : IsLeap (k + 1)
  · rw [if_pos hleap]
    unfold IsLeap at hleap
    omega
  · rw [if_neg hleap]
    unfold IsLeap at hleap
    omega

/-- Every day of the era is in one of its years. -/
theorem exists_eraYear {doe : Int} (h0 : 0 ≤ doe) (h1 : doe < 146097) :
    ∃ yoe doy : Int, 0 ≤ yoe ∧ yoe < 400 ∧ 0 ≤ doy ∧ doy < yearLength yoe ∧ doe = eraStart yoe + doy := by
  have hupto : ∀ k : Nat, k < 400 → doe < eraStart k + yearLength k →
      ∃ yoe doy : Int, 0 ≤ yoe ∧ yoe < 400 ∧ 0 ≤ doy ∧ doy < yearLength yoe ∧
        doe = eraStart yoe + doy := by
    intro k hk hlt
    induction k with
    | zero => exact ⟨0, doe, by omega, by omega, h0, by simpa [eraStart] using hlt, by simp [eraStart]⟩
    | succ k ih =>
        by_cases hin : eraStart (k + 1 : Nat) ≤ doe
        · exact ⟨(k + 1 : Nat), doe - eraStart (k + 1 : Nat), by omega, by omega, by omega, by omega,
            by omega⟩
        · refine ih (by omega) ?_
          rw [← eraStart_succ k (by omega)]
          push_cast at hin
          omega
  exact hupto 399 (by decide) (h1.trans_le (by decide))

/-! ## Months of a year -/

/-- Months counted from March. -/
def marchMonth (month : Nat) : Int := if 2 < month then month - 3 else month + 9

def marchYear (year : Int) (month : Nat) : Int := if month ≤ 2 then year - 1 else year

/-- The days of a year before one of its months. -/
def monthStart (mp : Int) : Int := (153 * mp + 2) / 5

/-- The month that holds a day of the year. -/
def monthOf (doy : Int) : Int := (5 * doy + 2) / 153

theorem marchMonth_bounds {month : Nat} (h1 : 1 ≤ month) (h2 : month ≤ 12) :
    0 ≤ marchMonth month ∧ marchMonth month ≤ 11 := by
  unfold marchMonth
  split <;> omega

theorem monthOf_eq {mp k : Int} (hk : 0 ≤ k) (hlen : k < monthStart (mp + 1) - monthStart mp) :
    monthOf (monthStart mp + k) = mp := by
  unfold monthStart monthOf at *
  omega

theorem leap_days (year : Int) : (monthLength year 2 : Int) = yearLength (year - 1) - 337 := by
  have hyear : year - 1 + 1 = year := by omega
  simp only [yearLength, monthLength, hyear]
  split <;> rfl

theorem yearLength_bounds (y : Int) : 365 ≤ yearLength y ∧ yearLength y ≤ 366 := by
  unfold yearLength
  split <;> omega

/-- A month ends where the next begins, February where the year ends. -/
theorem month_end (year : Int) {month : Nat} (h1 : 1 ≤ month) (h2 : month ≤ 12) :
    monthStart (marchMonth month) + monthLength year month =
      if month = 2 then yearLength (year - 1) else monthStart (marchMonth month + 1) := by
  split
  · subst month
    rw [leap_days]
    simp only [marchMonth, monthStart]
    omega
  · interval_cases month <;> first | rfl | contradiction

theorem monthLength_le (year : Int) {month : Nat} (h1 : 1 ≤ month) (h2 : month ≤ 12) :
    (monthLength year month : Int) ≤ monthStart (marchMonth month + 1) - monthStart (marchMonth month) := by
  have hend := month_end year h1 h2
  split at hend
  · subst month
    have := yearLength_bounds (year - 1)
    simp only [marchMonth, monthStart] at hend ⊢
    omega
  · omega

/-! ## Days since 1970 -/

/-- The days from the first of January 1970 to a date. -/
def daysOf (year : Int) (month day : Nat) : Int :=
  let y := marchYear year month
  let era := y / 400
  era * 146097 + (eraStart (y - era * 400) + (monthStart (marchMonth month) + day - 1)) - 719468

/-- The year, month and day that many days after the first of January 1970, counted from March. -/
def marchDate (days : Int) : Int × Int × Int :=
  let z := days + 719468
  let era := z / 146097
  let doe := z % 146097
  let yoe := eraYear doe
  let doy := doe - eraStart yoe
  let mp := monthOf doy
  (yoe + era * 400, mp, doy - monthStart mp + 1)

theorem yearLength_era (y era : Int) : yearLength (y - era * 400) = yearLength y := by
  have hiff : IsLeap (y - era * 400 + 1) ↔ IsLeap (y + 1) := by
    unfold IsLeap
    omega
  unfold yearLength
  split <;> split <;> tauto

namespace Date

variable (a : Date)

/-- The day of the year, counted from March. -/
def yearDay : Int := monthStart (marchMonth a.month) + a.day - 1

def days : Int := daysOf a.year a.month a.day

theorem yearDay_bounds : 0 ≤ a.yearDay ∧ a.yearDay < yearLength (marchYear a.year a.month) := by
  have hend := month_end a.year a.month_pos a.month_le
  have hmonth := marchMonth_bounds a.month_pos a.month_le
  have hyear := yearLength_bounds (marchYear a.year a.month)
  have hpos := a.day_pos
  have hle := a.day_le
  unfold yearDay
  split at hend
  · rename_i hfeb
    have hmarch : marchYear a.year a.month = a.year - 1 := if_pos (by omega)
    rw [hmarch]
    simp only [monthStart] at hend ⊢
    omega
  · rename_i hfeb
    have hearly : marchMonth a.month ≤ 10 := by
      unfold marchMonth
      have := a.month_pos
      have := a.month_le
      split <;> omega
    simp only [monthStart] at hend ⊢
    omega

/-- Where the day is in its era. -/
theorem days_eq : a.days + 719468 =
    marchYear a.year a.month / 400 * 146097 +
      (eraStart (marchYear a.year a.month - marchYear a.year a.month / 400 * 400) + a.yearDay) := by
  simp only [days, daysOf, yearDay]
  omega

end Date

theorem eraDay_bounds {yoe doy : Int} (h0 : 0 ≤ yoe) (h1 : yoe < 400) (hdoy : 0 ≤ doy)
    (hlen : doy < yearLength yoe) : 0 ≤ eraStart yoe + doy ∧ eraStart yoe + doy < 146097 := by
  have hlast : yearLength 399 = 366 := rfl
  have hyear := yearLength_bounds yoe
  unfold eraStart
  rcases eq_or_ne yoe 399 with rfl | hne <;> omega

/-- The date of the day of a date is the date. -/
theorem marchDate_days (a : Date) :
    marchDate a.days = (marchYear a.year a.month, marchMonth a.month, (a.day : Int)) := by
  obtain ⟨hdoy, hlen⟩ := a.yearDay_bounds
  have hfits := monthLength_le a.year a.month_pos a.month_le
  have hpos := a.day_pos
  have hle := a.day_le
  have hmonth : a.yearDay = monthStart (marchMonth a.month) + (a.day - 1) := by
    unfold Date.yearDay
    omega
  rw [← yearLength_era _ (marchYear a.year a.month / 400)] at hlen
  have hdays := a.days_eq
  obtain ⟨hlow, hhigh⟩ := eraDay_bounds (by omega) (by omega) hdoy hlen
  have hera : (a.days + 719468) / 146097 = marchYear a.year a.month / 400 := by omega
  have hdoe : (a.days + 719468) % 146097 =
      eraStart (marchYear a.year a.month - marchYear a.year a.month / 400 * 400) + a.yearDay := by omega
  have hmp : monthOf a.yearDay = marchMonth a.month := by
    rw [hmonth, monthOf_eq (by omega) (by omega)]
  have hcancel (s : Int) : s + a.yearDay - s = a.yearDay := by omega
  simp only [marchDate, hera, hdoe, eraYear_eq (by omega) (by omega) hdoy hlen, hcancel, hmp,
    Prod.mk.injEq, true_and]
  omega

theorem exists_marchMonth {mp : Int} (h0 : 0 ≤ mp) (h1 : mp ≤ 11) :
    ∃ month : Nat, 1 ≤ month ∧ month ≤ 12 ∧ marchMonth month = mp := by
  rcases Int.lt_or_le mp 10 with h | h
  · refine ⟨(mp + 3).toNat, by omega, by omega, ?_⟩
    rw [marchMonth, if_pos (by omega)]
    omega
  · refine ⟨(mp - 9).toNat, by omega, by omega, ?_⟩
    rw [marchMonth, if_neg (by omega)]
    omega

/-- Every day of a year, counted from March, is a day of one of its months. -/
theorem exists_month {y doy : Int} (h0 : 0 ≤ doy) (h1 : doy < yearLength y) :
    ∃ a : Date, marchYear a.year a.month = y ∧ a.yearDay = doy := by
  have hyear := yearLength_bounds y
  have hmp : 0 ≤ monthOf doy ∧ monthOf doy ≤ 11 ∧ monthStart (monthOf doy) ≤ doy ∧
      doy < monthStart (monthOf doy + 1) := by
    unfold monthOf monthStart
    omega
  obtain ⟨hlow, hhigh, hstart, hstop⟩ := hmp
  obtain ⟨month, hmonth1, hmonth2, hmarch⟩ := exists_marchMonth hlow hhigh
  obtain ⟨year, hyear'⟩ : ∃ year, marchYear year month = y := by
    unfold marchYear
    split
    · exact ⟨y + 1, by omega⟩
    · exact ⟨y, rfl⟩
  have hend := month_end year hmonth1 hmonth2
  rw [hmarch] at hend
  have hday : doy - monthStart (monthOf doy) < monthLength year month := by
    split at hend
    · rename_i hfeb
      have hsame : year - 1 = y := by
        rw [← hyear', marchYear, if_pos (by omega)]
      rw [hsame] at hend
      omega
    · omega
  refine ⟨⟨year, month, (doy - monthStart (monthOf doy) + 1).toNat, hmonth1, hmonth2, by omega,
    by omega⟩, hyear', ?_⟩
  simp only [Date.yearDay, hmarch]
  omega

/-- Every day is the day of a date. -/
theorem exists_days (n : Int) : ∃ a : Date, a.days = n := by
  have hpos : 0 ≤ (n + 719468) % 146097 := Int.emod_nonneg _ (by decide)
  have hlt : (n + 719468) % 146097 < 146097 := Int.emod_lt_of_pos _ (by decide)
  obtain ⟨yoe, doy, h0, h1, hdoy, hlen, hday⟩ := exists_eraYear hpos hlt
  rw [← yearLength_era yoe (-((n + 719468) / 146097))] at hlen
  obtain ⟨a, hyear, hyearDay⟩ := exists_month hdoy hlen
  refine ⟨a, ?_⟩
  have heq := a.days_eq
  have hera : (yoe - -((n + 719468) / 146097) * 400) / 400 = (n + 719468) / 146097 := by omega
  have hyoe : yoe - -((n + 719468) / 146097) * 400 - (n + 719468) / 146097 * 400 = yoe := by omega
  rw [hyear, hyearDay, hera, hyoe, ← hday] at heq
  omega

/-! ## The order -/

/-- The days before the March of a year. -/
def yearStart (y : Int) : Int := 365 * y + y / 4 - y / 100 + y / 400

theorem yearStart_succ (y : Int) : yearStart (y + 1) = yearStart y + yearLength y := by
  unfold yearStart yearLength
  by_cases hleap : IsLeap (y + 1)
  · rw [if_pos hleap]
    unfold IsLeap at hleap
    omega
  · rw [if_neg hleap]
    unfold IsLeap at hleap
    omega

theorem yearStart_mono {y z : Int} (h : y ≤ z) : yearStart y ≤ yearStart z := by
  unfold yearStart
  omega

theorem monthStart_mono {mp mp' : Int} (h : mp ≤ mp') : monthStart mp ≤ monthStart mp' := by
  unfold monthStart
  omega

namespace Date

variable {a b : Date}

theorem days_eq_yearStart (a : Date) :
    a.days + 719468 = yearStart (marchYear a.year a.month) + a.yearDay := by
  rw [a.days_eq]
  unfold eraStart yearStart
  omega

theorem days_lt_of_year (h : marchYear a.year a.month < marchYear b.year b.month) : a.days < b.days := by
  have ha := a.days_eq_yearStart
  have hb := b.days_eq_yearStart
  have hlen := a.yearDay_bounds.2
  have hpos := b.yearDay_bounds.1
  have hnext := yearStart_mono h
  have hsucc := yearStart_succ (marchYear a.year a.month)
  omega

theorem yearDay_lt_of_month (h : marchMonth a.month < marchMonth b.month) : a.yearDay < b.yearDay := by
  have hle := a.day_le
  have hfits := monthLength_le a.year a.month_pos a.month_le
  have hpos := b.day_pos
  have hmono := monthStart_mono h
  unfold yearDay
  omega

/-- An earlier date is earlier counted from March: in the year, or in the month of it. -/
theorem march_lt (h : a.year < b.year ∨ a.year = b.year ∧ a.month < b.month) :
    marchYear a.year a.month < marchYear b.year b.month ∨
      marchYear a.year a.month = marchYear b.year b.month ∧ marchMonth a.month < marchMonth b.month := by
  have ha1 := a.month_pos
  have ha2 := a.month_le
  have hb1 := b.month_pos
  have hb2 := b.month_le
  unfold marchYear marchMonth
  split <;> split <;> split <;> split <;> omega

theorem days_lt_of_before (h : a.Before b) : a.days < b.days := by
  have hyear : marchYear a.year a.month < marchYear b.year b.month ∨
      marchYear a.year a.month = marchYear b.year b.month ∧ a.yearDay < b.yearDay := by
    rcases h with h | ⟨hy, h | ⟨hm, hd⟩⟩
    · exact (march_lt (.inl h)).imp_right fun hmonth => ⟨hmonth.1, yearDay_lt_of_month hmonth.2⟩
    · exact (march_lt (.inr ⟨hy, h⟩)).imp_right fun hmonth => ⟨hmonth.1, yearDay_lt_of_month hmonth.2⟩
    · right
      unfold yearDay
      rw [hy, hm]
      omega
  rcases hyear with hlt | ⟨heq, hlt⟩
  · exact days_lt_of_year hlt
  · have ha := a.days_eq_yearStart
    have hb := b.days_eq_yearStart
    rw [heq] at ha
    omega

theorem days_le_of_not_before (h : ¬ b.Before a) : a.days ≤ b.days := by
  unfold Before at h
  push Not at h
  obtain ⟨hyear, hrest⟩ := h
  rcases Int.lt_or_eq_of_le hyear with hlt | heq
  · exact (days_lt_of_before (.inl hlt)).le
  · obtain ⟨hmonth, hday⟩ := hrest heq.symm
    rcases Nat.lt_or_eq_of_le hmonth with hlt | hsame
    · exact (days_lt_of_before (.inr ⟨heq, .inl hlt⟩)).le
    · have hle := hday hsame.symm
      simp only [days, daysOf, heq, hsame]
      omega

end Date

end Gavel.Calendar
