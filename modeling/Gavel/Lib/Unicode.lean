import Gavel.Lib.Text
import Mathlib.Data.List.Chain

/-!
# Characters beyond ASCII

The tables of Unicode as far as a program consults them, white space, the ends of a text trimmed, and
texts as bytes.
-/

namespace Gavel

/-- A character of seven bits. -/
def isAscii (c : Char) : Bool := c.toNat < 128

/-- Which characters are letters or numerals, and what they are in lower case. On ASCII the tables are
those of ASCII; where the lower case of a letter is in ASCII, it is a letter or numeral in lower case. -/
structure CharTables where
  isAlphanumeric : Char → Bool
  toLowercase : Char → Text
  alphanumeric_ascii : ∀ c, isAscii c = true → isAlphanumeric c = c.isAlphanum
  lowercase_ascii : ∀ c, isAscii c = true → toLowercase c = [c.toLower]
  lowercase_kept : ∀ c d, isAlphanumeric c = true → d ∈ toLowercase c → isAscii d = true →
    d.isAlphanum = true ∧ d.toLower = d

/-- The white space of Unicode. -/
def isWhitespace (c : Char) : Bool :=
  let n := c.toNat
  (9 ≤ n && n ≤ 13) || n = 0x20 || n = 0x85 || n = 0xa0 || n = 0x1680 || (0x2000 ≤ n && n ≤ 0x200a) ||
    n = 0x2028 || n = 0x2029 || n = 0x202f || n = 0x205f || n = 0x3000

/-- What holds of each of the 128 characters. -/
theorem forall_ascii {P : Char → Prop} (h : ∀ i : Fin 128, P (Char.ofNat i)) {c : Char}
    (hc : isAscii c = true) : P c := by
  have hlt : c.toNat < 128 := of_decide_eq_true hc
  have hP := h ⟨c.toNat, hlt⟩
  rwa [Char.ofNat_toNat] at hP

theorem isAscii_toLower {c : Char} (hc : isAscii c = true) : isAscii c.toLower = true :=
  forall_ascii (P := fun c => isAscii c.toLower = true) (by decide) hc

theorem utf8Size_of_ascii (h : isAscii c = true) : c.utf8Size = 1 := by
  have hlt : c.toNat < 128 := of_decide_eq_true h
  exact Char.utf8Size_eq_one_iff.mpr (UInt32.le_iff_toNat_le.mpr (Nat.le_of_lt_succ hlt))

/-- A byte of a character beyond ASCII is beyond ASCII. -/
theorem high_of_mem_utf8EncodeChar {b : UInt8} (hc : isAscii c = false)
    (h : b ∈ String.utf8EncodeChar c) : 128 ≤ b.toNat := by
  have hge : 128 ≤ c.val.toNat := Nat.le_of_not_lt (of_decide_eq_false hc)
  simp only [String.utf8EncodeChar] at h
  split at h
  · omega
  · split at h
    · simp only [List.mem_cons, List.not_mem_nil, or_false] at h
      rcases h with rfl | rfl <;> simp only [UInt8.toNat_ofNat'] <;> omega
    · split at h
      · simp only [List.mem_cons, List.not_mem_nil, or_false] at h
        rcases h with rfl | rfl | rfl <;> simp only [UInt8.toNat_ofNat'] <;> omega
      · simp only [List.mem_cons, List.not_mem_nil, or_false] at h
        rcases h with rfl | rfl | rfl | rfl <;> simp only [UInt8.toNat_ofNat'] <;> omega

namespace Text

variable {p : Char → Bool} {s : Text} {c : Char}

/-- A text without what matches at its ends. -/
def trimMatches (p : Char → Bool) (s : Text) : Text :=
  ((s.dropWhile p).reverse.dropWhile p).reverse

/-- The bytes of a text. -/
def bytes (s : Text) : List UInt8 := s.flatMap String.utf8EncodeChar

/-- The text bytes encode, if they encode one. -/
def decodeUtf8 (bytes : List UInt8) : Option Text := bytes.toByteArray.utf8Decode?.map Array.toList

/-! ## Bytes -/

/-- The bytes that encode a text are those of the text. -/
theorem decodeUtf8_iff {b : List UInt8} : decodeUtf8 b = some s ↔ bytes s = b := by
  have hbytes (t : Text) : (bytes t).toByteArray = List.utf8Encode t := rfl
  constructor
  · intro h
    obtain ⟨chars, hchars, rfl⟩ := Option.map_eq_some_iff.mp h
    have hencode : (List.utf8Encode chars.toList) = b.toByteArray := by
      have hsome : b.toByteArray.utf8Decode?.isSome = true := by rw [hchars]; rfl
      have hget := ByteArray.utf8Encode_get_utf8Decode? (b := b.toByteArray) (h := hsome)
      simpa [hchars] using hget
    rw [← hbytes] at hencode
    simpa using congrArg (fun a : ByteArray => a.data.toList) hencode
  · rintro rfl
    rw [decodeUtf8, hbytes, List.utf8Decode?_utf8Encode]
    rfl

theorem decodeUtf8_bytes (s : Text) : decodeUtf8 (bytes s) = some s := decodeUtf8_iff.mpr rfl

theorem bytes_append (s t : Text) : bytes (s ++ t) = bytes s ++ bytes t := List.flatMap_append

theorem bytes_cons (c : Char) (s : Text) : bytes (c :: s) = String.utf8EncodeChar c ++ bytes s :=
  List.flatMap_cons

/-- Texts are told apart by their bytes. -/
theorem bytes_inj {t : Text} (h : bytes s = bytes t) : s = t := by
  have hs := decodeUtf8_bytes s
  rw [h, decodeUtf8_bytes] at hs
  exact (Option.some.inj hs).symm

/-! ## Digits in bytes -/

/-- A digit is the byte of its place in ASCII. -/
theorem bytes_digit : ∀ d < 10, String.utf8EncodeChar d.digitChar = [UInt8.ofNat (0x30 + d)] := by
  decide

theorem length_bytes_of_digits (hd : ∀ c ∈ s, c.isDigit = true) : (bytes s).length = s.length := by
  induction s with
  | nil => rfl
  | cons c s ih =>
      obtain ⟨d, hlt, rfl⟩ := exists_digit (hd c List.mem_cons_self)
      rw [bytes_cons, bytes_digit d hlt, List.length_append, ih fun c hc => hd c (List.mem_cons_of_mem _ hc),
        List.length_singleton, List.length_cons, Nat.add_comm]

/-! ## Trimming -/

theorem trimMatches_start (p : Char → Bool) (s : Text) : trimMatches p s <+: s.dropWhile p := by
  rw [trimMatches, ← List.reverse_suffix, List.reverse_reverse]
  exact List.dropWhile_suffix p

theorem trimMatches_within (p : Char → Bool) (s : Text) : trimMatches p s <:+: s :=
  (trimMatches_start p s).isInfix.trans (List.dropWhile_suffix p).isInfix

theorem head_trimMatches (h : (trimMatches p s).head? = some c) : p c = false := by
  obtain ⟨rest, hrest⟩ := trimMatches_start p s
  have hhead : (s.dropWhile p).head? = some c := by
    rw [← hrest, List.head?_append, h]
    rfl
  have hnot := List.head?_dropWhile_not p s
  rw [hhead] at hnot
  simpa using hnot

theorem last_trimMatches (h : (trimMatches p s).getLast? = some c) : p c = false := by
  rw [trimMatches, List.getLast?_reverse] at h
  have hnot := List.head?_dropWhile_not p (s.dropWhile p).reverse
  rw [h] at hnot
  simpa using hnot

theorem dropWhile_self (h : ∀ c, s.head? = some c → p c = false) : s.dropWhile p = s := by
  cases s with
  | nil => rfl
  | cons c s => simp [h c rfl]

theorem trimMatches_self (hhead : ∀ c, s.head? = some c → p c = false)
    (hlast : ∀ c, s.getLast? = some c → p c = false) : trimMatches p s = s := by
  have hback : s.reverse.dropWhile p = s.reverse :=
    dropWhile_self fun c hc => hlast c (by rwa [List.head?_reverse] at hc)
  rw [trimMatches, dropWhile_self hhead, hback, List.reverse_reverse]

end Text

end Gavel
