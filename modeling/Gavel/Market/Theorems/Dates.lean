import Gavel.Lib.Calendar
import Gavel.Market.Catalog

/-!
# Dates and instants

The conversions between instants and calendar dates are those of the calendar, as long as the midnight
of the date is an instant at all. As text a date is read field by field, each in a range of its own.
-/

namespace Gavel.Market

open Gavel.Cluster (Millis)
open Gavel.Calendar

/-! ## Signed and unsigned numbers -/

theorem asU32_eq {n : Int} (h0 : 0 ≤ n) (h1 : n < 2 ^ 32) : (asU32 n : Int) = n := by
  unfold asU32
  rw [Int.emod_eq_of_lt h0 h1]
  omega

/-! ## There and back -/

/-- The day of the last instant there is. -/
def lastDate : Date := ⟨584556019, 4, 3, by decide, by decide, by decide, by decide⟩

section Dates

variable {a b : Date} {at' : Nat}

theorem fromUtcDate_eq (year : Int) (month day : Nat) :
    fromUtcDate year month day =
      (max (asI64 (daysOf year month day)) 0).toNat * 86400000 % 2 ^ 64 := by
  simp only [daysOf, eraStart, Int.mul_comm 365]
  rfl

/-- The conversion back, with its month and year turned from March to January. -/
theorem toUtcParts_march (at' : Nat) :
    toUtcParts at' =
      let secs := asI64 ((at' / 1000 : Nat) : Int)
      let march := marchDate (secs / 86400)
      let m := asU32 (if march.2.1 < 10 then march.2.1 + 3 else march.2.1 - 9)
      (if m ≤ 2 then march.1 + 1 else march.1, m, asU32 march.2.2,
        asU32 (secs % 86400 / 3600), asU32 (secs % 86400 % 3600 / 60), asU32 (secs % 86400 % 60)) := rfl

theorem asU32_nat {n : Nat} (h : n < 2 ^ 32) : asU32 n = n := by
  have := asU32_eq (n := n) (by omega) (by omega)
  omega

/-- The date of an instant is that of its day, and the rest is the time of day. -/
theorem toUtcParts_eq (h : at' < 2 ^ 64) (ha : a.days = (at' / 86400000 : Nat)) :
    toUtcParts at' = (a.year, a.month, a.day, at' / 3600000 % 24, at' / 60000 % 60, at' / 1000 % 60) := by
  have hsecs : asI64 ((at' / 1000 : Nat) : Int) = (at' / 1000 : Nat) := asI64_eq (by omega) (by omega)
  have hdays : ((at' / 1000 : Nat) : Int) / 86400 = a.days := by
    rw [ha]
    omega
  have hday : a.day ≤ 31 := a.day_le.trans (monthLength_le_31 _ _)
  have h1 := a.month_pos
  have h2 := a.month_le
  have hm : asU32 (if marchMonth a.month < 10 then marchMonth a.month + 3 else marchMonth a.month - 9) =
      a.month := by
    have hmarch : (if marchMonth a.month < 10 then marchMonth a.month + 3 else marchMonth a.month - 9) =
        (a.month : Int) := by
      unfold marchMonth
      split <;> split <;> omega
    rw [hmarch, asU32_nat (by omega)]
  have hyear : (if a.month ≤ 2 then marchYear a.year a.month + 1 else marchYear a.year a.month) =
      a.year := by
    unfold marchYear
    split <;> omega
  rw [toUtcParts_march]
  have hhour : ((at' / 1000 : Nat) : Int) % 86400 / 3600 = (at' / 3600000 % 24 : Nat) := by omega
  have hminute : ((at' / 1000 : Nat) : Int) % 86400 % 3600 / 60 = (at' / 60000 % 60 : Nat) := by omega
  have hsecond : ((at' / 1000 : Nat) : Int) % 86400 % 60 = (at' / 1000 % 60 : Nat) := by omega
  simp only [hsecs, hdays, marchDate_days, hm, hyear, hhour, hminute, hsecond]
  rw [asU32_nat (by omega), asU32_nat (by omega), asU32_nat (by omega), asU32_nat (by omega)]

/-- The midnight of a date from 1970 on, if it is an instant. -/
theorem fromUtcDate_days (h0 : 0 ≤ a.days) (h1 : a.days * 86400000 < 2 ^ 64) :
    (fromUtcDate a.year a.month a.day : Int) = a.days * 86400000 := by
  have hdays : daysOf a.year a.month a.day = a.days := rfl
  rw [fromUtcDate_eq, hdays, asI64_eq (by omega) (by omega)]
  omega

theorem fromUtcDate_lt (year : Int) (month day : Nat) : fromUtcDate year month day < 2 ^ 64 :=
  Nat.mod_lt _ (by decide)

/-! ## The dates there are instants for -/

/-- The first day there is an instant for. -/
def firstDate : Date := ⟨1970, 1, 1, by decide, by decide, by decide, by decide⟩

theorem firstDate_days : firstDate.days = 0 := by decide

theorem lastDate_days : lastDate.days = 213503982334 := by decide

theorem days_bounds (hfirst : ¬ a.Before firstDate) (hlast : ¬ lastDate.Before a) :
    0 ≤ a.days ∧ a.days ≤ 213503982334 := by
  rw [← firstDate_days, ← lastDate_days]
  exact ⟨Date.days_le_of_not_before hfirst, Date.days_le_of_not_before hlast⟩

/-- The conversions between instants and dates. -/
structure CivilDates : Prop where
  /-- A date is read back from its midnight. -/
  there : ∀ a : Date, ¬ a.Before firstDate → ¬ lastDate.Before a →
    toUtcParts (fromUtcDate a.year a.month a.day) = (a.year, a.month, a.day, 0, 0, 0)
  /-- Every instant is at a time of day on a date, whose midnight is the start of its day. -/
  back : ∀ at' : Nat, at' < 2 ^ 64 → ∃ (a : Date) (hour minute second : Nat),
    toUtcParts at' = (a.year, a.month, a.day, hour, minute, second) ∧
      hour < 24 ∧ minute < 60 ∧ second < 60 ∧
      fromUtcDate a.year a.month a.day = at' - at' % 86400000
  ordered : ∀ a b : Date, ¬ a.Before firstDate → ¬ lastDate.Before b → a.Before b →
    fromUtcDate a.year a.month a.day < fromUtcDate b.year b.month b.day

theorem civil_dates : CivilDates where
  there := by
    intro a hfirst hlast
    obtain ⟨h0, h1⟩ := days_bounds hfirst hlast
    have hmidnight := fromUtcDate_days h0 (by omega)
    generalize fromUtcDate a.year a.month a.day = at' at hmidnight ⊢
    rw [toUtcParts_eq (a := a) (by omega) (by omega)]
    simp only [Prod.mk.injEq, true_and]
    omega
  back := by
    intro at' h
    obtain ⟨a, ha⟩ := exists_days (at' / 86400000 : Nat)
    refine ⟨a, _, _, _, toUtcParts_eq h ha, Nat.mod_lt _ (by decide), Nat.mod_lt _ (by decide),
      Nat.mod_lt _ (by decide), ?_⟩
    have hmidnight := fromUtcDate_days (a := a) (by omega) (by omega)
    refine Int.ofNat_inj.mp (hmidnight.trans ?_)
    omega
  ordered := by
    intro a b hfirst hlast hlt
    have hdays := Date.days_lt_of_before hlt
    have ha : 0 ≤ a.days := firstDate_days ▸ Date.days_le_of_not_before hfirst
    have hb : b.days ≤ 213503982334 := lastDate_days ▸ Date.days_le_of_not_before hlast
    have hamid := fromUtcDate_days ha (by omega)
    have hbmid := fromUtcDate_days (a := b) (by omega) (by omega)
    refine Int.ofNat_lt.mp ?_
    rw [hamid, hbmid]
    omega

/-- The first of January of the year after has no instant; what it is converted to is in 1970. -/
theorem next_year_wraps :
    let a : Date := ⟨584556020, 1, 1, by decide, by decide, by decide, by decide⟩
    toUtcParts (fromUtcDate a.year a.month a.day) = (1970, 9, 30, 9, 34, 8) := by
  decide

end Dates

/-! ## What is read -/

section Fields

variable {s year month day : Text} {rest : List Text} {y mo d : Nat} {m : Millis}

/-- Three fields that are numbers, each in its own range. -/
structure Fields (s year month day : Text) (rest : List Text) (y mo d : Nat) : Prop where
  split : s.splitOn '-' = year :: month :: day :: rest
  year : Text.parseNat (2 ^ 63 - 1) year = some y
  month : Text.parseNat maxU32 month = some mo
  day : Text.parseNat maxU32 day = some d
  range : 1 ≤ mo ∧ mo ≤ 12 ∧ 1 ≤ d ∧ d ≤ 31

theorem Fields.parseDate (h : Fields s year month day rest y mo d) :
    parseDate s = some (fromUtcDate y mo d) := by
  simp only [Market.parseDate, h.split, Option.bind_eq_bind, h.year, h.month, h.day, Option.bind_some,
    if_pos h.range]

theorem exists_fields (h : parseDate s = some m) :
    ∃ year month day rest y mo d, Fields s year month day rest y mo d ∧ m = fromUtcDate y mo d := by
  simp only [parseDate] at h
  split at h
  · rename_i year month day rest hsplit
    simp only [Option.bind_eq_bind, Option.bind_eq_some_iff] at h
    obtain ⟨y, hy, mo, hmo, d, hd, h⟩ := h
    split at h
    · rename_i hrange
      exact ⟨year, month, day, rest, y, mo, d, ⟨hsplit, hy, hmo, hd, hrange⟩, (Option.some.inj h).symm⟩
    · cases h
  · cases h

end Fields

end Gavel.Market
