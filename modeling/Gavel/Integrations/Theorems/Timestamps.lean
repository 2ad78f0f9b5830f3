import Gavel.Integrations.Tsm
import Gavel.Market.Theorems.StrictDates
import Gavel.Web.Admin
import Gavel.Web.Theorems.Tampering

/-!
# Instants as text

The form of the feeds is read byte by byte and the form of the annotations field by field, each with its
own table of month lengths and its own count of days. Both read the spelling of a date of the calendar and
a time of day, as the same instant.
-/

namespace Gavel.Integrations

open Gavel.Cluster (Millis)
open Gavel.Market Gavel.Calendar Gavel.Text
open Gavel.Slices (slice)
open Gavel.Web (parseInstant parseI64 byteLength)

variable {bytes : List UInt8} {n width : Nat} {s : Text}

/-- A second of a date from 1970 on, with a year of four digits. -/
structure UtcTime where
  date : Date
  hour : Nat
  minute : Nat
  second : Nat
  first : ¬ date.Before firstDate
  digits : date.year ≤ 9999
  hour_lt : hour < 24
  minute_lt : minute < 60
  second_lt : second < 60

namespace UtcTime

/-- `YYYY-MM-DD` -/
def dateText (t : UtcTime) : Text :=
  padded 4 t.date.year.toNat ++ '-' :: padded 2 t.date.month ++ '-' :: padded 2 t.date.day

/-- `HH:MM` -/
def clockText (t : UtcTime) : Text := padded 2 t.hour ++ ':' :: padded 2 t.minute

/-- `YYYY-MM-DDTHH:MM` -/
def minuteText (t : UtcTime) : Text := t.dateText ++ 'T' :: t.clockText

/-- `YYYY-MM-DDTHH:MM:SSZ` -/
def text (t : UtcTime) : Text := t.minuteText ++ ':' :: padded 2 t.second ++ ['Z']

/-- The milliseconds since 1970. -/
def millis (t : UtcTime) : Millis :=
  t.date.days.toNat * 86400000 + (t.hour * 3600 + t.minute * 60 + t.second) * 1000

def parts (t : UtcTime) : Int × Nat × Nat × Nat × Nat × Nat :=
  (t.date.year, t.date.month, t.date.day, t.hour, t.minute, t.second)

end UtcTime

/-! ## Digits -/

theorem digit_byte_value : ∀ d < 10, (0x30 ≤ UInt8.ofNat (0x30 + d) ∧ UInt8.ofNat (0x30 + d) ≤ 0x39) ∧
    (UInt8.ofNat (0x30 + d) - 0x30).toNat = d := by decide

theorem exists_digit_byte {b : UInt8} (h : 0x30 ≤ b ∧ b ≤ 0x39) :
    ∃ d < 10, b = UInt8.ofNat (0x30 + d) := by
  have hlow : 0x30 ≤ b.toNat := h.1
  have hhigh : b.toNat ≤ 0x39 := h.2
  refine ⟨b.toNat - 0x30, by omega, ?_⟩
  rw [Nat.add_sub_cancel' hlow, UInt8.ofNat_toNat]

/-- One more byte of a number. -/
def digitStep (value : Nat) (byte : UInt8) : Option Nat :=
  if 0x30 ≤ byte ∧ byte ≤ 0x39 then some (value * 10 + (byte - 0x30).toNat) else none

theorem digits_eq (bytes : List UInt8) : digits bytes = bytes.foldlM digitStep 0 := rfl

theorem foldlM_digitStep (hs : ∀ c ∈ s, c.isDigit = true) (start : Nat) :
    (Text.bytes s).foldlM digitStep start = some (Nat.ofDigitChars 10 s start) := by
  induction s generalizing start with
  | nil => rfl
  | cons c s ih =>
      obtain ⟨hc, hrest⟩ := List.forall_mem_cons.mp hs
      obtain ⟨d, hd, rfl⟩ := exists_digit hc
      obtain ⟨hrange, hvalue⟩ := digit_byte_value d hd
      rw [bytes_cons, bytes_digit d hd, List.singleton_append, List.foldlM_cons, digitStep, if_pos hrange,
        hvalue, Option.bind_eq_bind, Option.bind_some, ih hrest, Nat.mul_comm start,
        Nat.ofDigitChars_cons_digitChar_of_lt_ten hd]

theorem exists_digits {start : Nat} (h : bytes.foldlM digitStep start = some n) :
    ∃ t : Text, (∀ c ∈ t, c.isDigit = true) ∧ bytes = Text.bytes t := by
  induction bytes generalizing start with
  | nil => exact ⟨[], by simp, rfl⟩
  | cons b bytes ih =>
      rw [List.foldlM_cons, Option.bind_eq_bind, Option.bind_eq_some_iff] at h
      obtain ⟨value, hvalue, hrest⟩ := h
      obtain ⟨t, ht, rfl⟩ := ih hrest
      unfold digitStep at hvalue
      split at hvalue
      · rename_i hrange
        obtain ⟨d, hd, rfl⟩ := exists_digit_byte hrange
        have hdigit : d.digitChar.isDigit = true := Nat.isDigit_digitChar.trans (decide_eq_true hd)
        refine ⟨d.digitChar :: t, List.forall_mem_cons.mpr ⟨hdigit, ht⟩, ?_⟩
        rw [bytes_cons, bytes_digit d hd, List.singleton_append]
      · cases hvalue

/-- As many bytes as a numeral has are read as its number, and nothing else is. -/
theorem digits_iff (hwidth : 0 < width) (hlength : bytes.length = width) :
    digits bytes = some n ↔ bytes = Text.bytes (padded width n) ∧ n < 10 ^ width := by
  rw [digits_eq]
  constructor
  · intro h
    obtain ⟨t, ht, rfl⟩ := exists_digits h
    rw [foldlM_digitStep ht, Option.some.injEq] at h
    rw [length_bytes_of_digits ht] at hlength
    subst hlength h
    have hne : t ≠ [] := List.ne_nil_of_length_pos hwidth
    rw [padded_ofDigitChars hne ht]
    exact ⟨rfl, ofDigitChars_lt ht⟩
  · rintro ⟨rfl, -⟩
    rw [foldlM_digitStep fun c hc => isDigit_of_mem_padded hc, ofDigitChars_padded]

theorem length_bytes_padded (hwidth : 0 < width) (hn : n < 10 ^ width) :
    (Text.bytes (padded width n)).length = width := by
  rw [length_bytes_of_digits fun c hc => isDigit_of_mem_padded hc, length_padded hwidth hn]

theorem digits_padded (hwidth : 0 < width) (hn : n < 10 ^ width) :
    digits (Text.bytes (padded width n)) = some n :=
  (digits_iff hwidth (length_bytes_padded hwidth hn)).mpr ⟨rfl, hn⟩

/-! ## The form of the feeds -/

theorem slice_eq {i j : Nat} : slice bytes i j = (bytes.drop i).take (j - i) := by
  rw [slice, List.drop_take]

/-- What stands before a separator, and what after it. -/
theorem drop_eq_cons {i j : Nat} {b : UInt8} (hij : i ≤ j) (h : bytes[j]? = some b) :
    bytes.drop i = slice bytes i j ++ b :: bytes.drop (j + 1) := by
  obtain ⟨hlt, rfl⟩ := List.getElem?_eq_some_iff.mp h
  have hdrop : bytes.drop j = bytes[j] :: bytes.drop (j + 1) := List.drop_eq_getElem_cons hlt
  have hsplit := List.take_append_drop (j - i) (bytes.drop i)
  rw [List.drop_drop, Nat.add_sub_cancel' hij, hdrop] at hsplit
  rw [slice_eq, hsplit]

theorem layout (hlength : bytes.length = 20) (h4 : bytes[4]? = some 0x2d) (h7 : bytes[7]? = some 0x2d)
    (h10 : bytes[10]? = some 0x54) (h13 : bytes[13]? = some 0x3a) (h16 : bytes[16]? = some 0x3a)
    (h19 : bytes[19]? = some 0x5a) :
    bytes = slice bytes 0 4 ++ 0x2d :: (slice bytes 5 7 ++ 0x2d :: (slice bytes 8 10 ++ 0x54 ::
      (slice bytes 11 13 ++ 0x3a :: (slice bytes 14 16 ++ 0x3a :: (slice bytes 17 19 ++ [0x5a]))))) := by
  have hend : bytes.drop 20 = [] := List.drop_eq_nil_of_le (Nat.le_of_eq hlength)
  have hdrop := drop_eq_cons (i := 0) (by decide) h4
  rw [drop_eq_cons (i := 5) (by decide) h7, drop_eq_cons (i := 8) (by decide) h10,
    drop_eq_cons (i := 11) (by decide) h13, drop_eq_cons (i := 14) (by decide) h16,
    drop_eq_cons (i := 17) (by decide) h19, hend] at hdrop
  exact hdrop

theorem length_slice {i j : Nat} (h : j ≤ bytes.length) : (slice bytes i j).length = j - i := by
  rw [slice, List.length_drop, List.length_take, Nat.min_eq_left h]

theorem digits_slice {i j : Nat} (hij : i < j) (hj : j ≤ bytes.length)
    (h : digits (slice bytes i j) = some n) :
    slice bytes i j = Text.bytes (padded (j - i) n) ∧ n < 10 ^ (j - i) :=
  (digits_iff (Nat.sub_pos_of_lt hij) (length_slice hj)).mp h

/-- Fields with their separators are what they are taken for. -/
theorem of_layout {year month day hour minute second : List UInt8} (hyear : year.length = 4)
    (hmonth : month.length = 2) (hday : day.length = 2) (hhour : hour.length = 2)
    (hminute : minute.length = 2) (hsecond : second.length = 2)
    (h : bytes = year ++ 0x2d :: (month ++ 0x2d :: (day ++ 0x54 :: (hour ++ 0x3a :: (minute ++ 0x3a ::
      (second ++ [0x5a])))))) :
    (bytes.length = 20 ∧ bytes[4]? = some 0x2d ∧ bytes[7]? = some 0x2d ∧ bytes[10]? = some 0x54 ∧
      bytes[13]? = some 0x3a ∧ bytes[16]? = some 0x3a ∧ bytes[19]? = some 0x5a) ∧
    slice bytes 0 4 = year ∧ slice bytes 5 7 = month ∧ slice bytes 8 10 = day ∧
      slice bytes 11 13 = hour ∧ slice bytes 14 16 = minute ∧ slice bytes 17 19 = second := by
  subst h
  constructor
  · simp [hyear, hmonth, hday, hhour, hminute, hsecond]
  · simp (disch := omega) [slice_eq, List.drop_append, List.drop_of_length_le, hyear, hmonth, hday, hhour,
      hminute, hsecond]

theorem daysInMonth_eq {year month : Nat} (h1 : 1 ≤ month) (h2 : month ≤ 12) :
    daysInMonth year month = monthLength year month := by
  have hleap : (year % 4 = 0 ∧ (¬ year % 100 = 0 ∨ year % 400 = 0)) ↔ IsLeap year := by
    unfold IsLeap
    omega
  interval_cases month <;> simp only [daysInMonth, monthLength, hleap]

namespace UtcTime

variable (t : UtcTime)

theorem year_eq : ((t.date.year.toNat : Nat) : Int) = t.date.year := by
  have := year_of_not_before t.first
  omega

theorem fits : t.date.year.toNat < 10 ^ 4 ∧ t.date.month < 10 ^ 2 ∧ t.date.day < 10 ^ 2 ∧ t.hour < 10 ^ 2 ∧
    t.minute < 10 ^ 2 ∧ t.second < 10 ^ 2 := by
  have hyear := t.digits
  have hmonth := t.date.month_le
  have hday := t.date.day_le.trans (monthLength_le_31 _ _)
  have hhour := t.hour_lt
  have hminute := t.minute_lt
  have hsecond := t.second_lt
  omega

theorem not_mem_dateText : 'T' ∉ t.dateText := by simp [dateText, not_mem_padded]

theorem spells : Spells t.dateText t.date := ⟨t.first, t.digits, rfl⟩

theorem bytes_text : Text.bytes t.text =
    Text.bytes (padded 4 t.date.year.toNat) ++ 0x2d :: (Text.bytes (padded 2 t.date.month) ++ 0x2d ::
      (Text.bytes (padded 2 t.date.day) ++ 0x54 :: (Text.bytes (padded 2 t.hour) ++ 0x3a ::
        (Text.bytes (padded 2 t.minute) ++ 0x3a :: (Text.bytes (padded 2 t.second) ++ [0x5a]))))) := by
  have hsep : String.utf8EncodeChar '-' = [0x2d] ∧ String.utf8EncodeChar 'T' = [0x54] ∧
      String.utf8EncodeChar ':' = [0x3a] ∧ Text.bytes ['Z'] = [0x5a] := by decide
  simp only [text, minuteText, dateText, clockText, bytes_append, bytes_cons, hsep, List.append_assoc,
    List.cons_append, List.nil_append]

theorem days_nonneg : 0 ≤ t.date.days := firstDate_days ▸ Date.days_le_of_not_before t.first

theorem days_lt : t.date.days < 213503982334 := by
  have hbefore : t.date.Before lastDate := .inl (Int.lt_of_le_of_lt t.digits (by decide))
  exact lastDate_days ▸ Date.days_lt_of_before hbefore

theorem midnight_eq : fromUtcDate t.date.year t.date.month t.date.day = t.date.days.toNat * 86400000 := by
  have hmidnight := midnight t.first t.digits
  have hnonneg := t.days_nonneg
  refine Int.ofNat_inj.mp (hmidnight.trans ?_)
  omega

theorem offset_lt : t.hour * 3600 + t.minute * 60 + t.second < 86400 := by
  have := t.hour_lt
  have := t.minute_lt
  have := t.second_lt
  omega

theorem millis_cast : (t.millis : Int) =
    t.date.days * 86400000 + ((t.hour * 3600 + t.minute * 60 + t.second : Nat) : Int) * 1000 := by
  have hnonneg := Int.toNat_of_nonneg t.days_nonneg
  rw [millis, Nat.cast_add, Nat.cast_mul, hnonneg]
  rfl

theorem millis_lt : t.millis < 2 ^ 64 := by
  have hdays := t.days_lt
  have hoffset := t.offset_lt
  have hcast := t.millis_cast
  refine Int.ofNat_lt.mp ?_
  rw [hcast]
  omega

theorem minute_le_millis :
    t.date.days.toNat * 86400000 + t.hour * 3600000 + t.minute * 60000 ≤ t.millis := by
  unfold millis
  omega

theorem toUtcParts_millis : toUtcParts t.millis = t.parts := by
  have hhour := t.hour_lt
  have hminute := t.minute_lt
  have hsecond := t.second_lt
  have hnonneg := t.days_nonneg
  have hlt := t.millis_lt
  have hmillis := t.millis_cast
  generalize t.millis = m at hmillis hlt ⊢
  rw [toUtcParts_eq (a := t.date) hlt (by omega)]
  simp only [parts, Prod.mk.injEq, true_and]
  omega

end UtcTime

/-! ## The readers -/

theorem not_before_first {a : Date} (hyear : 1970 ≤ a.year) (hmonth : 1 ≤ a.month) (hday : 1 ≤ a.day) :
    ¬ a.Before firstDate := by
  rintro (hlt | ⟨-, hlt | ⟨-, hlt⟩⟩)
  · exact absurd hlt (Int.not_lt.mpr hyear)
  · exact absurd hlt (Nat.not_lt.mpr hmonth)
  · exact absurd hlt (Nat.not_lt.mpr hday)

theorem UtcTime.instant_eq (t : UtcTime) :
    ((checkedMul 64 (t.hour * 3600 + t.minute * 60 + t.second) 1000).bind fun offset =>
      checkedAdd 64 (fromUtcDate t.date.year t.date.month t.date.day) offset) = some t.millis := by
  have hfits : (t.hour * 3600 + t.minute * 60 + t.second) * 1000 < 2 ^ 64 :=
    (Nat.mul_lt_mul_of_pos_right t.offset_lt (by decide)).trans (by decide)
  rw [checkedMul_eq hfits, Option.bind_some, t.midnight_eq]
  exact checkedAdd_eq t.millis_lt

theorem exists_of_rfc3339Utc {m : Millis} (h : rfc3339Utc s = some m) :
    ∃ t : UtcTime, s = t.text ∧ m = t.millis := by
  unfold rfc3339Utc at h
  simp only at h
  split at h
  · cases h
  · rename_i hform
    push Not at hform
    obtain ⟨hlength, h4, h7, h10, h13, h16, h19⟩ := hform
    simp only [Option.bind_eq_bind, Option.bind_eq_some_iff] at h
    obtain ⟨year, hyear, month, hmonth, day, hday, hour, hhour, minute, hminute, second, hsecond, h⟩ := h
    split at h
    · cases h
    · rename_i hrange
      have hbytes := layout hlength h4 h7 h10 h13 h16 h19
      obtain ⟨hyear, hyear'⟩ := digits_slice (by decide) (by omega) hyear
      obtain ⟨hmonth, hmonth'⟩ := digits_slice (by decide) (by omega) hmonth
      obtain ⟨hday, hday'⟩ := digits_slice (by decide) (by omega) hday
      obtain ⟨hhour, -⟩ := digits_slice (by decide) (by omega) hhour
      obtain ⟨hminute, -⟩ := digits_slice (by decide) (by omega) hminute
      obtain ⟨hsecond, -⟩ := digits_slice (by decide) (by omega) hsecond
      rw [Nat.mod_eq_of_lt (by omega : month < 2 ^ 32), Nat.mod_eq_of_lt (by omega : day < 2 ^ 32)]
        at hrange h
      push Not at hrange
      obtain ⟨hfirst, ⟨hm1, hm2⟩, hd1, hd2, hh, hmi, hs⟩ := hrange
      rw [daysInMonth_eq hm1 hm2] at hd2
      let t : UtcTime :=
        { date := ⟨year, month, day, hm1, hm2, Nat.pos_of_ne_zero hd1, hd2⟩
          hour
          minute
          second
          first := not_before_first (Int.ofNat_le.mpr hfirst) hm1 (Nat.pos_of_ne_zero hd1)
          digits := Int.ofNat_le.mpr (Nat.le_of_lt_succ hyear')
          hour_lt := Nat.lt_succ_of_le hh
          minute_lt := Nat.lt_succ_of_le hmi
          second_lt := Nat.lt_succ_of_le hs }
      refine ⟨t, bytes_inj ?_, ?_⟩
      · rw [t.bytes_text, hbytes, hyear, hmonth, hday, hhour, hminute, hsecond]
        rfl
      · exact Option.some.inj (h.symm.trans t.instant_eq)

/-- The fields of a second pass the checks of the reader. -/
theorem UtcTime.in_range (t : UtcTime) :
    ¬ (t.date.year.toNat < 1970 ∨ ¬ (1 ≤ t.date.month ∧ t.date.month ≤ 12) ∨ t.date.day = 0 ∨
      daysInMonth t.date.year.toNat t.date.month < t.date.day ∨ 23 < t.hour ∨ 59 < t.minute ∨
      59 < t.second) := by
  have hfirst := year_of_not_before t.first
  have hmonth := t.date.month_le
  have hmonth1 := t.date.month_pos
  have hpos := t.date.day_pos
  have hlast := t.date.day_le
  have hhour := t.hour_lt
  have hminute := t.minute_lt
  have hsecond := t.second_lt
  rw [daysInMonth_eq hmonth1 hmonth, t.year_eq]
  omega

theorem rfc3339Utc_text (t : UtcTime) : rfc3339Utc t.text = some t.millis := by
  obtain ⟨hyear, hmonth, hday, hhour, hminute, hsecond⟩ := t.fits
  obtain ⟨hform, h0, h5, h8, h11, h14, h17⟩ := of_layout (length_bytes_padded (by decide) hyear)
    (length_bytes_padded (by decide) hmonth) (length_bytes_padded (by decide) hday)
    (length_bytes_padded (by decide) hhour) (length_bytes_padded (by decide) hminute)
    (length_bytes_padded (by decide) hsecond) t.bytes_text
  have hmod : t.date.month % 2 ^ 32 = t.date.month ∧ t.date.day % 2 ^ 32 = t.date.day :=
    ⟨Nat.mod_eq_of_lt (by omega), Nat.mod_eq_of_lt (by omega)⟩
  unfold rfc3339Utc
  simp only
  rw [if_neg (by push Not; exact hform)]
  simp only [h0, h5, h8, h11, h14, h17, Option.bind_eq_bind]
  rw [digits_padded (by decide) hyear, digits_padded (by decide) hmonth, digits_padded (by decide) hday,
    digits_padded (by decide) hhour, digits_padded (by decide) hminute, digits_padded (by decide) hsecond]
  simp only [Option.bind_some, hmod, if_neg t.in_range, t.year_eq]
  exact t.instant_eq

/-- The form of the feeds is read as the second it spells, and nothing else is. -/
theorem rfc3339Utc_iff (s : Text) (m : Millis) :
    rfc3339Utc s = some m ↔ ∃ t : UtcTime, s = t.text ∧ m = t.millis := by
  constructor
  · exact exists_of_rfc3339Utc
  · rintro ⟨t, rfl, rfl⟩
    exact rfc3339Utc_text t

theorem parseI64_padded (width : Nat) (hn : n ≤ 2 ^ 63 - 1) :
    parseI64 (padded width n) = some (n : Int) := by
  have hminus : '-' ∉ padded width n := not_mem_padded rfl width n
  unfold parseI64
  split
  · rename_i heq
    exact absurd (heq ▸ List.mem_cons_self) hminus
  · rename_i heq
    exact absurd (heq ▸ List.mem_cons_self) hminus
  · rw [parseNat_padded width hn]
    rfl

theorem byteLength_padded (hwidth : 0 < width) (hn : n < 10 ^ width) :
    byteLength (padded width n) = width := by
  have hsingle : ∀ c ∈ padded width n, c.utf8Size = 1 := by
    intro c hc
    obtain ⟨d, hd, rfl⟩ := exists_digit (isDigit_of_mem_padded hc)
    have hall : ∀ d < 10, d.digitChar.utf8Size = 1 := by decide
    exact hall d hd
  rw [Web.byteLength_of_single hsingle, length_padded hwidth hn]

theorem webDaysInMonth_eq (year : Int) {month : Nat} (h1 : 1 ≤ month) (h2 : month ≤ 12) :
    Web.daysInMonth year month = (monthLength year month : Int) := by
  by_cases htwo : month = 2
  · subst htwo
    rw [Web.daysInMonth, if_neg (by decide), if_pos (by decide), monthLength]
    by_cases hleap : IsLeap year
    · rw [if_pos hleap]
      exact if_pos hleap
    · rw [if_neg hleap]
      exact if_neg hleap
  · interval_cases month <;> first | exact absurd rfl htwo | rfl

namespace UtcTime

/-- The count of days in the form handler is that of the calendar. -/
theorem webDays_eq (t : UtcTime) :
    let y := if (t.date.month : Int) ≤ 2 then t.date.year - 1 else t.date.year
    let era := (if 0 ≤ y then y else y - 399).tdiv 400
    let yoe := y - era * 400
    let doy := (153 * (((t.date.month : Int) + 9) % 12) + 2) / 5 + t.date.day - 1
    era * 146097 + (yoe * 365 + yoe / 4 - yoe / 100 + doy) - 719468 = t.date.days := by
  have hyear := year_of_not_before t.first
  have hmonth := t.date.month_pos
  have hmonth' := t.date.month_le
  have hmarch : marchMonth t.date.month = ((t.date.month : Int) + 9) % 12 := by
    unfold marchMonth
    split <;> omega
  have hyear' : (if (t.date.month : Int) ≤ 2 then t.date.year - 1 else t.date.year) =
      marchYear t.date.year t.date.month := by
    unfold marchYear
    split <;> split <;> omega
  have hpos : 0 ≤ marchYear t.date.year t.date.month := by
    unfold marchYear
    split <;> omega
  simp only [Date.days, daysOf, eraStart, monthStart, hmarch, hyear', if_pos hpos, Int.mul_comm 365]
  rw [Int.tdiv_eq_ediv_of_nonneg hpos]

theorem clockText_split (t : UtcTime) : t.clockText.splitOn ':' = [padded 2 t.hour, padded 2 t.minute] := by
  have hparts : ∀ part ∈ [padded 2 t.hour, padded 2 t.minute], ':' ∉ part := by simp [not_mem_padded]
  have htext : t.clockText = [':'].intercalate [padded 2 t.hour, padded 2 t.minute] := by
    simp [clockText, List.intercalate]
  rw [htext]
  exact List.splitOn_intercalate ':' hparts (List.cons_ne_nil _ _)

/-- The fields of a minute pass the checks of the form handler. -/
theorem in_form_range (t : UtcTime) :
    ¬ (¬ (1 ≤ (t.date.month : Int) ∧ (t.date.month : Int) ≤ 12) ∨
      ¬ (1 ≤ (t.date.day : Int) ∧ (t.date.day : Int) ≤ Web.daysInMonth t.date.year t.date.month)) ∧
    ¬ (¬ (0 ≤ (t.hour : Int) ∧ (t.hour : Int) < 24) ∨ ¬ (0 ≤ (t.minute : Int) ∧ (t.minute : Int) < 60)) := by
  have hmonth1 := t.date.month_pos
  have hmonth := t.date.month_le
  have hday1 := t.date.day_pos
  have hlast := t.date.day_le
  have hhour := t.hour_lt
  have hminute := t.minute_lt
  rw [webDaysInMonth_eq _ hmonth1 hmonth]
  omega

theorem parseInstant_eq (t : UtcTime) {raw : Text}
    (hraw : (splitOnce 'T' raw).getD (raw, "00:00".toList) = (t.dateText, t.clockText)) :
    parseInstant raw = some (t.date.days.toNat * 86400000 + t.hour * 3600000 + t.minute * 60000) := by
  obtain ⟨hyear, hmonth, hday, hhour, hminute, -⟩ := t.fits
  obtain ⟨hdate, htime⟩ := t.in_form_range
  have hlengths : ¬ (byteLength (padded 4 t.date.year.toNat) ≠ 4 ∨ byteLength (padded 2 t.date.month) ≠ 2 ∨
      byteLength (padded 2 t.date.day) ≠ 2) := by
    rw [byteLength_padded (by decide) hyear, byteLength_padded (by decide) hmonth,
      byteLength_padded (by decide) hday]
    decide
  have hclocks : ¬ (byteLength (padded 2 t.hour) ≠ 2 ∨ byteLength (padded 2 t.minute) ≠ 2) := by
    rw [byteLength_padded (by decide) hhour, byteLength_padded (by decide) hminute]
    decide
  have hdays := t.webDays_eq
  have hepoch : ¬ t.date.days < 0 := Int.not_lt.mpr t.days_nonneg
  simp only at hdays
  unfold parseInstant
  rw [hraw]
  simp only [t.spells.fields.split, t.clockText_split, if_neg hlengths, if_neg hclocks]
  rw [parseI64_padded 4 (by omega), parseI64_padded 2 (by omega), parseI64_padded 2 (by omega),
    parseI64_padded 2 (by omega), parseI64_padded 2 (by omega)]
  simp only [Option.bind_eq_bind, Option.bind_some, t.year_eq, if_neg hdate, if_neg htime, hdays,
    if_neg hepoch, Int.toNat_natCast]
  rw [if_pos (lt_of_le_of_lt t.minute_le_millis t.millis_lt)]

end UtcTime

/-- The form of the feeds is read exactly where it spells a second of a date from 1970 on, as that second;
and the form of the annotations gives the same instants for the minutes and for the midnights. -/
theorem timestamps_agree :
    (∀ (s : Text) (m : Millis), rfc3339Utc s = some m ↔ ∃ t : UtcTime, s = t.text ∧ m = t.millis) ∧
    (∀ t : UtcTime, toUtcParts t.millis = t.parts) ∧
    ∀ t : UtcTime,
      parseInstant t.minuteText = rfc3339Utc (t.minuteText ++ ":00Z".toList) ∧
      parseInstant t.dateText = some (fromUtcDate t.date.year t.date.month t.date.day) := by
  refine ⟨rfc3339Utc_iff, UtcTime.toUtcParts_millis, fun t => ⟨?_, ?_⟩⟩
  · -- The same minute with no seconds.
    let t' : UtcTime := { t with second := 0, second_lt := by decide }
    have htext : t.minuteText ++ ":00Z".toList = t'.text := by
      simp [UtcTime.text, UtcTime.minuteText, UtcTime.dateText, UtcTime.clockText, t']
      rfl
    have hmillis : t'.millis = t.date.days.toNat * 86400000 + t.hour * 3600000 + t.minute * 60000 := by
      have hoffset : (t.hour * 3600 + t.minute * 60 + 0) * 1000 = t.hour * 3600000 + t.minute * 60000 := by
        omega
      rw [Nat.add_assoc, ← hoffset]
      rfl
    have hraw : (splitOnce 'T' t.minuteText).getD (t.minuteText, "00:00".toList) =
        (t.dateText, t.clockText) := by
      rw [UtcTime.minuteText, splitOnce_append t.not_mem_dateText, Option.getD_some]
    rw [htext, rfc3339Utc_text, t.parseInstant_eq hraw, hmillis]
  · let t' : UtcTime := { t with hour := 0, hour_lt := by decide, minute := 0, minute_lt := by decide }
    have hraw : (splitOnce 'T' t.dateText).getD (t.dateText, "00:00".toList) =
        (t'.dateText, t'.clockText) := by
      have hclock : t'.clockText = "00:00".toList := by
        change padded 2 0 ++ ':' :: padded 2 0 = "00:00".toList
        decide
      rw [splitOnce_eq_none t.not_mem_dateText, Option.getD_none, hclock]
      rfl
    rw [t'.parseInstant_eq hraw, t.midnight_eq]
    simp only [t', Nat.zero_mul, Nat.add_zero]

end Gavel.Integrations
