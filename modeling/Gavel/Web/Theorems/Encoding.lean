import Gavel.Web.Query

/-!
# Query strings written and read

The scan of a query string stays inside it and accepts what it should, and a value that is written comes
back as it was.
-/

namespace Gavel.Web

variable {bytes decoded rest : List UInt8} {b high low : UInt8} {s : Text} {at' : Nat}

/-! ## What a query string spells -/

/-- Every `%` is followed by two digits. -/
def Escaped (bytes : List UInt8) : Prop :=
  ∀ i : Nat, bytes[i]? = some 0x25 → ∃ high low, bytes[i + 1]? = some high ∧ bytes[i + 2]? = some low ∧
    (hexValue high).isSome = true ∧ (hexValue low).isSome = true

/-- The bytes with every `%` taken with the two digits after it and every `+` for a space. -/
def spelled : List UInt8 → List UInt8
  | [] => []
  | 0x25 :: high :: low :: raw =>
      ((hexValue high).getD 0 * 16 + (hexValue low).getD 0) :: spelled raw
  | byte :: raw => (if byte = 0x2b then 0x20 else byte) :: spelled raw

/-! ## Digits -/

theorem forall_byte {P : UInt8 → Prop} (h : ∀ i < 256, P (UInt8.ofNat i)) (b : UInt8) : P b := by
  have hb := h b.toNat b.toNat_lt
  rwa [UInt8.ofNat_toNat] at hb

theorem isAsciiHexdigit_eq (b : UInt8) : isAsciiHexdigit b = (hexValue b).isSome := by
  unfold isAsciiHexdigit hexValue
  split_ifs <;> simp_all

/-- A digit is no `%` and its value fills half a byte. -/
theorem of_hexValue {value : UInt8} (h : hexValue b = some value) : b ≠ 0x25 ∧ value.toNat < 16 := by
  unfold hexValue at h
  split_ifs at h <;> cases h <;> simp only [UInt8.le_iff_toNat_le, ne_eq, ← UInt8.toNat_inj,
    UInt8.toNat_add, UInt8.toNat_sub, UInt8.reduceToNat] at * <;> omega

theorem shift_or {x y : UInt8} (hx : x.toNat < 16) (hy : y.toNat < 16) : x <<< 4 ||| y = x * 16 + y := by
  apply UInt8.toNat_inj.mp
  have hxy := Nat.two_pow_add_eq_or_of_lt (i := 4) hy x.toNat
  have hshift : x.toNat * 2 ^ 4 % 2 ^ 8 = 2 ^ 4 * x.toNat := by omega
  simp only [UInt8.toNat_or, UInt8.toNat_shiftLeft, UInt8.toNat_add, UInt8.toNat_mul,
    UInt8.reduceToNat, Nat.shiftLeft_eq, Nat.reduceMod, hshift, ← hxy]
  omega

/-! ## Reading -/

theorem percentDecode_plain (h : b ≠ 0x25) : percentDecode (b :: rest) =
    (percentDecode rest).map fun decoded => (if b = 0x2b then 0x20 else b) :: decoded := by
  rw [percentDecode]
  · rw [if_neg h]
  · rintro high low raw rfl
    exact absurd rfl h

theorem spelled_plain (h : b ≠ 0x25) : spelled (b :: rest) =
    (if b = 0x2b then 0x20 else b) :: spelled rest := by
  rw [spelled]
  rintro high low raw rfl
  exact absurd rfl h

theorem escaped_plain (h : b ≠ 0x25) : Escaped (b :: rest) ↔ Escaped rest := by
  constructor
  · intro hall i hi
    exact hall (i + 1) hi
  · intro hall i hi
    cases i with
    | zero => exact absurd (Option.some.inj hi) h
    | succ i => exact hall i hi

theorem escaped_percent (raw : List UInt8) : Escaped (0x25 :: high :: low :: raw) ↔
    (hexValue high).isSome = true ∧ (hexValue low).isSome = true ∧ Escaped raw := by
  constructor
  · intro hall
    obtain ⟨high', low', hhigh, hlow, hdigits⟩ := hall 0 rfl
    cases hhigh
    cases hlow
    exact ⟨hdigits.1, hdigits.2, fun i hi => hall (i + 3) hi⟩
  · rintro ⟨hhigh, hlow, hall⟩ i hi
    have hdigit {b : UInt8} (h : (hexValue b).isSome = true) : b ≠ 0x25 := by
      obtain ⟨value, hvalue⟩ := Option.isSome_iff_exists.mp h
      exact (of_hexValue hvalue).1
    match i with
    | 0 => exact ⟨high, low, rfl, rfl, hhigh, hlow⟩
    | 1 => exact absurd (Option.some.inj hi) (hdigit hhigh)
    | 2 => exact absurd (Option.some.inj hi) (hdigit hlow)
    | i + 3 => exact hall i hi

/-- A string decodes if every `%` is before two digits, to what it spells. -/
theorem percentDecode_iff : percentDecode bytes = some decoded ↔ Escaped bytes ∧ spelled bytes = decoded := by
  induction bytes using percentDecode.induct generalizing decoded with
  | case1 =>
      have hempty : Escaped [] := by
        intro i hi
        cases hi
      simp [percentDecode, spelled, hempty]
  | case2 high low raw ih =>
      rw [escaped_percent, percentDecode, spelled]
      simp only [Option.bind_eq_bind, Option.bind_eq_some_iff, Option.some.injEq]
      constructor
      · rintro ⟨x, hx, y, hy, rest, hrest, rfl⟩
        obtain ⟨hescaped, rfl⟩ := ih.mp hrest
        refine ⟨⟨by rw [hx]; rfl, by rw [hy]; rfl, hescaped⟩, ?_⟩
        rw [hx, hy, Option.getD_some, Option.getD_some, shift_or (of_hexValue hx).2 (of_hexValue hy).2]
      · rintro ⟨⟨hhigh, hlow, hescaped⟩, rfl⟩
        obtain ⟨x, hx⟩ := Option.isSome_iff_exists.mp hhigh
        obtain ⟨y, hy⟩ := Option.isSome_iff_exists.mp hlow
        refine ⟨x, hx, y, hy, spelled raw, ih.mpr ⟨hescaped, rfl⟩, ?_⟩
        rw [hx, hy, Option.getD_some, Option.getD_some, shift_or (of_hexValue hx).2 (of_hexValue hy).2]
  | case3 raw hshort =>
      -- A `%` without two bytes after it.
      have hnot : ¬ Escaped (0x25 :: raw) := by
        intro hall
        obtain ⟨high, low, hhigh, hlow, -⟩ := hall 0 rfl
        match raw with
        | [] => cases hhigh
        | [_] => cases hlow
        | high :: low :: raw => exact hshort high low raw rfl rfl
      have hnone : percentDecode (0x25 :: raw) = none := by
        rw [percentDecode]
        · exact if_pos rfl
        · exact hshort
      rw [hnone]
      exact iff_of_false (by simp) fun h => hnot h.1
  | case4 byte raw hshort hne ih =>
      rw [percentDecode_plain hne, escaped_plain hne, spelled_plain hne, Option.map_eq_some_iff]
      constructor
      · rintro ⟨rest, hrest, rfl⟩
        obtain ⟨hescaped, rfl⟩ := ih.mp hrest
        exact ⟨hescaped, rfl⟩
      · rintro ⟨hescaped, rfl⟩
        exact ⟨spelled raw, ih.mpr ⟨hescaped, rfl⟩, rfl⟩

/-- The loop from an offset comes to what the rest of the bytes decodes to, and reads nothing beyond them. -/
theorem scan_eq (hrest : bytes.drop at' = rest) (hat : at' ≤ bytes.length) (decoded : List UInt8) :
    scan bytes at' decoded =
      match percentDecode rest with
      | some more => .accepted (decoded ++ more)
      | none => .refused := by
  have hget (k : Nat) : bytes[at' + k]? = rest[k]? := by rw [← hrest, List.getElem?_drop]
  have hlen : bytes.length = at' + rest.length := by
    rw [← hrest, List.length_drop]
    omega
  induction rest using percentDecode.induct generalizing at' decoded with
  | case1 =>
      rw [scan, if_neg (by rw [hlen]; simp)]
      simp [percentDecode]
  | case2 high low raw ih =>
      have hbyte := hget 0
      have hhigh := hget 1
      have hlow := hget 2
      simp only [Nat.add_zero, List.getElem?_cons_zero, List.getElem?_cons_succ, List.length_cons] at hbyte hhigh hlow hlen
      have hnext : bytes.drop (at' + 3) = raw := by rw [← List.drop_drop, hrest]; rfl
      have hgetnext (k : Nat) : bytes[at' + 3 + k]? = raw[k]? := by rw [← hnext, List.getElem?_drop]
      rw [scan, if_pos (by omega), hbyte]
      simp only [if_true]
      rw [if_neg (by omega), hhigh, hlow]
      simp only [isAsciiHexdigit_eq, percentDecode]
      cases hx : hexValue high with
      | none => simp
      | some x =>
          cases hy : hexValue low with
          | none => simp
          | some y =>
              have hagain := ih hnext (by omega) (decoded ++ [x <<< 4 ||| y]) hgetnext (by omega)
              simp only [Option.isSome_some, Bool.not_true, Bool.or_self, Bool.false_eq_true, if_false, hagain]
              cases percentDecode raw with
              | none => rfl
              | some more => simp
  | case3 raw hshort =>
      have hbyte := hget 0
      simp only [Nat.add_zero, List.getElem?_cons_zero, List.length_cons] at hbyte hlen
      have hnone : percentDecode (0x25 :: raw) = none := by
        rw [percentDecode]
        · exact if_pos rfl
        · exact hshort
      have hend : bytes.length ≤ at' + 2 := by
        cases raw with
        | nil =>
            simp only [List.length_nil] at hlen
            omega
        | cons high raw =>
            cases raw with
            | nil =>
                simp only [List.length_cons, List.length_nil] at hlen
                omega
            | cons low raw => exact absurd rfl (hshort high low raw rfl)
      rw [scan, if_pos (by omega), hbyte, hnone]
      simp only [if_true, if_pos hend]
  | case4 byte raw hshort hne ih =>
      have hbyte := hget 0
      simp only [Nat.add_zero, List.getElem?_cons_zero, List.length_cons] at hbyte hlen
      have hnext : bytes.drop (at' + 1) = raw := by rw [← List.drop_drop, hrest]; rfl
      have hgetnext (k : Nat) : bytes[at' + 1 + k]? = raw[k]? := by rw [← hnext, List.getElem?_drop]
      rw [scan, if_pos (by omega), hbyte, percentDecode_plain hne]
      simp only [hne, if_false]
      rw [ih hnext (by omega) _ hgetnext (by omega)]
      cases percentDecode raw with
      | none => rfl
      | some more => simp

/-! ## Writing -/

/-- A byte is written as itself, or as a `%` and the digits of its halves. -/
theorem bytes_escape (b : UInt8) :
    (Text.bytes (escape b) = [b] ∧ b ≠ 0x25 ∧ b ≠ 0x2b) ∨
      (Text.bytes (escape b) = [0x25, (upperDigit (b.toNat / 16)).toUInt8, (upperDigit (b.toNat % 16)).toUInt8] ∧
        hexValue (upperDigit (b.toNat / 16)).toUInt8 = some (b >>> 4) ∧
        hexValue (upperDigit (b.toNat % 16)).toUInt8 = some (b &&& 0x0f)) :=
  forall_byte (P := fun b => (Text.bytes (escape b) = [b] ∧ b ≠ 0x25 ∧ b ≠ 0x2b) ∨
      (Text.bytes (escape b) = [0x25, (upperDigit (b.toNat / 16)).toUInt8, (upperDigit (b.toNat % 16)).toUInt8] ∧
        hexValue (upperDigit (b.toNat / 16)).toUInt8 = some (b >>> 4) ∧
        hexValue (upperDigit (b.toNat % 16)).toUInt8 = some (b &&& 0x0f))) (by decide +kernel) b

theorem halves (b : UInt8) : (b >>> 4) <<< 4 ||| (b &&& 0x0f) = b :=
  forall_byte (P := fun b => (b >>> 4) <<< 4 ||| (b &&& 0x0f) = b) (by decide +kernel) b

theorem percentDecode_escape (b : UInt8) (rest : List UInt8) :
    percentDecode (Text.bytes (escape b) ++ rest) = (percentDecode rest).map (b :: ·) := by
  rcases bytes_escape b with ⟨heq, hpercent, hplus⟩ | ⟨heq, hhigh, hlow⟩
  · rw [heq, List.singleton_append, percentDecode_plain hpercent]
    simp only [hplus, if_false]
  · rw [heq]
    simp only [List.cons_append, List.nil_append, percentDecode, hhigh, hlow, Option.bind_eq_bind,
      Option.bind_some, halves]
    cases percentDecode rest <;> rfl

theorem percentDecode_queryValue (s : Text) : percentDecode (queryValue s).bytes = some s.bytes := by
  have hall (l : List UInt8) : percentDecode (Text.bytes (l.flatMap escape)) = some l := by
    induction l with
    | nil => rfl
    | cons b l ih =>
        have happ (t t' : Text) : Text.bytes (t ++ t') = Text.bytes t ++ Text.bytes t' := List.flatMap_append
        rw [List.flatMap_cons, happ, percentDecode_escape, ih]
        rfl
  exact hall s.bytes

/-! ## Both -/

/-- A written value is accepted and decodes to its own bytes. The scan of any query string ends inside it,
and accepts it if every `%` is before two digits and what it spells is a text. -/
theorem query_encoding_agrees :
    (∀ s, scanPercentEncoding (queryValue s) = .accepted s.bytes) ∧
      ∀ raw, scanPercentEncoding raw ≠ .outOfBounds ∧
        (validatePercentEncoding raw = true ↔ ∃ decoded, scanPercentEncoding raw = .accepted decoded) ∧
        ∀ decoded, scanPercentEncoding raw = .accepted decoded ↔
          Escaped raw.bytes ∧ spelled raw.bytes = decoded ∧ ∃ t : Text, t.bytes = decoded := by
  have hscan (raw : Text) : scanPercentEncoding raw =
      match percentDecode raw.bytes with
      | some decoded => if (Text.decodeUtf8 decoded).isSome then .accepted decoded else .refused
      | none => .refused := by
    rw [scanPercentEncoding, scan_eq List.drop_zero (Nat.zero_le _)]
    cases percentDecode raw.bytes <;> rfl
  have htext (decoded : List UInt8) : (Text.decodeUtf8 decoded).isSome = true ↔ ∃ t : Text, t.bytes = decoded := by
    rw [Option.isSome_iff_exists]
    simp only [Text.decodeUtf8_iff]
  constructor
  · intro s
    rw [hscan, percentDecode_queryValue]
    exact if_pos (by rw [Text.decodeUtf8_bytes]; rfl)
  · intro raw
    have hiff (decoded : List UInt8) : scanPercentEncoding raw = .accepted decoded ↔
        percentDecode raw.bytes = some decoded ∧ (Text.decodeUtf8 decoded).isSome = true := by
      rw [hscan]
      cases percentDecode raw.bytes with
      | none => simp
      | some d =>
          by_cases hd : (Text.decodeUtf8 d).isSome = true
          · simp only [hd, if_true, Scanned.accepted.injEq, Option.some.injEq]
            constructor
            · rintro rfl
              exact ⟨rfl, hd⟩
            · exact And.left
          · simp only [hd, if_false, reduceCtorEq, Option.some.injEq, false_iff]
            rintro ⟨rfl, h⟩
            exact hd h
    refine ⟨?_, ?_, fun decoded => ?_⟩
    · rw [hscan]
      cases percentDecode raw.bytes with
      | none => exact Scanned.noConfusion
      | some d =>
          simp only
          split
          · exact Scanned.noConfusion
          · exact Scanned.noConfusion
    · simp only [hiff, validatePercentEncoding, unescape]
      cases percentDecode raw.bytes <;> simp
    · rw [hiff, percentDecode_iff, htext, and_assoc]

end Gavel.Web
