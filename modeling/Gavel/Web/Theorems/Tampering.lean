import Gavel.Web.Theorems.Csrf

/-!
# What a presented value must be

A value that comes back is accepted exactly if its digits denote the token, bare or masked. A value of
two tokens' length is cut at a byte, and one with a character across the cut stops the handler.
-/

namespace Gavel.Web

variable {s t a b : Text} {bytes : List UInt8} {c c' : Char} {n : Nat}

/-! ## Digits and the bytes they denote -/

/-- The digits of a text are those of the bytes, the high one first. -/
def Denotes (s : Text) (bytes : List UInt8) : Prop :=
  s.map toDigit = bytes.flatMap fun b => [some (b.toNat / 16), some (b.toNat % 16)]

/-- A text may be cut at the offset. -/
def CharBoundary (n : Nat) (s : Text) : Prop := ∃ a b, s = a ++ b ∧ byteLength a = n

@[simp] theorem byteLength_append (a b : Text) : byteLength (a ++ b) = byteLength a + byteLength b := by
  simp [byteLength]

@[simp] theorem byteLength_cons (c : Char) (s : Text) :
    byteLength (c :: s) = c.utf8Size + byteLength s := by
  simp [byteLength]

theorem toDigit_lt (h : toDigit c = some n) : n < 16 := by
  simp only [toDigit] at h
  split at h
  · cases h
    omega
  · split at h
    · cases h
      omega
    · split at h
      · cases h
        omega
      · cases h

theorem toNat_pair {x y : Nat} (hx : x < 16) (hy : y < 16) : (x * 16 + y).toUInt8.toNat = x * 16 + y := by
  have hlt : x * 16 + y < 2 ^ 8 := by omega
  rw [Nat.toUInt8, UInt8.toNat_ofNat', Nat.mod_eq_of_lt hlt]

theorem denotes_cons {hi lo : Char} {byte : UInt8} : Denotes (hi :: lo :: s) (byte :: bytes) ↔
    toDigit hi = some (byte.toNat / 16) ∧ toDigit lo = some (byte.toNat % 16) ∧ Denotes s bytes := by
  simp only [Denotes, List.map_cons, List.flatMap_cons, List.cons_append, List.nil_append,
    List.cons.injEq]

theorem hexPairs_iff : hexPairs s = some bytes ↔ Denotes s bytes := by
  induction s using hexPairs.induct generalizing bytes with
  | case1 =>
      cases bytes with
      | nil => simp [hexPairs, Denotes]
      | cons byte bytes => simp [hexPairs, Denotes]
  | case2 c =>
      cases bytes with
      | nil => simp [hexPairs, Denotes]
      | cons byte bytes => simp [hexPairs, Denotes]
  | case3 hi lo text ih =>
      simp only [hexPairs, Option.bind_eq_bind, Option.bind_eq_some_iff, Option.some.injEq]
      constructor
      · rintro ⟨x, hx, y, hy, rest, hrest, rfl⟩
        have hpair := toNat_pair (toDigit_lt hx) (toDigit_lt hy)
        have hylt := toDigit_lt hy
        rw [denotes_cons, hpair, hx, hy, ← ih]
        refine ⟨congrArg some ?_, congrArg some ?_, hrest⟩
        · omega
        · omega
      · intro h
        cases bytes with
        | nil => simp [Denotes] at h
        | cons byte bytes =>
            obtain ⟨hhi, hlo, hrest⟩ := denotes_cons.mp h
            refine ⟨_, hhi, _, hlo, bytes, ih.mpr hrest, ?_⟩
            have hsum : byte.toNat / 16 * 16 + byte.toNat % 16 = byte.toNat := by omega
            rw [hsum]
            exact congrArg (· :: bytes) UInt8.ofNat_toNat

theorem fromHex_iff : fromHex s = some bytes ↔ s ≠ [] ∧ Denotes s bytes := by
  constructor
  · intro h
    obtain ⟨hne, hpairs⟩ := fromHex_some h
    exact ⟨hne, hexPairs_iff.mp hpairs⟩
  · rintro ⟨hne, hdenotes⟩
    rw [fromHex, if_neg (by simpa using hne)]
    exact hexPairs_iff.mpr hdenotes

theorem Denotes.length (h : Denotes s bytes) : s.length = 2 * bytes.length :=
  (hexPairs_some (hexPairs_iff.mpr h)).1

theorem Denotes.digits (h : Denotes s bytes) : ∀ c ∈ s, (toDigit c).isSome = true :=
  (hexPairs_some (hexPairs_iff.mpr h)).2

theorem Denotes.size (h : Denotes s bytes) : byteLength s = 2 * bytes.length := by
  rw [byteLength_of_digits h.digits, h.length]

theorem Denotes.append {more : List UInt8} (ha : Denotes a bytes) (hb : Denotes b more) :
    Denotes (a ++ b) (bytes ++ more) := by
  rw [Denotes, List.map_append, List.flatMap_append, ha, hb]

theorem Denotes.split {more : List UInt8} (h : Denotes (a ++ b) (bytes ++ more))
    (hlen : a.length = 2 * bytes.length) : Denotes a bytes ∧ Denotes b more := by
  have hdigits : (bytes.flatMap fun b : UInt8 => [some (b.toNat / 16), some (b.toNat % 16)]).length =
      bytes.length * 2 := by
    simp [List.length_flatMap]
  rw [Denotes, List.map_append, List.flatMap_append] at h
  exact List.append_inj h (by rw [List.length_map, hlen, hdigits, Nat.mul_comm])

theorem Denotes.unique {more : List UInt8} (h : Denotes s bytes) (h' : Denotes s more) : bytes = more :=
  Option.some.inj ((hexPairs_iff.mpr h).symm.trans (hexPairs_iff.mpr h'))

/-- Two texts that denote the same bytes have the same digits, place by place. -/
theorem Denotes.toDigit_eq {before after : Text} (h : Denotes (before ++ c :: after) bytes)
    (h' : Denotes (before ++ c' :: after) bytes) : toDigit c' = toDigit c := by
  have hmap : (before ++ c' :: after).map toDigit = (before ++ c :: after).map toDigit := h'.trans h.symm
  rw [List.map_append, List.map_append, List.append_cancel_left_eq, List.map_cons, List.map_cons] at hmap
  exact (List.cons.inj hmap).1

/-! ## Cutting at a byte -/

theorem splitAt_some (h : splitAt n s = some (a, b)) : s = a ++ b ∧ byteLength a = n := by
  induction n, s using splitAt.induct generalizing a b with
  | case1 s =>
      rw [splitAt, Option.some.injEq, Prod.mk.injEq] at h
      obtain ⟨rfl, rfl⟩ := h
      exact ⟨rfl, rfl⟩
  | case2 n => cases h
  | case3 n c s hle ih =>
      rw [splitAt, if_pos hle, Option.map_eq_some_iff] at h
      obtain ⟨⟨a', b'⟩, hrest, heq⟩ := h
      obtain ⟨rfl, rfl⟩ := Prod.mk.inj heq
      obtain ⟨rfl, hlen⟩ := ih hrest
      refine ⟨rfl, ?_⟩
      rw [byteLength_cons, hlen]
      omega
  | case4 n c s hle =>
      rw [splitAt, if_neg hle] at h
      cases h

theorem splitAt_byteLength (a b : Text) : splitAt (byteLength a) (a ++ b) = some (a, b) := by
  induction a with
  | nil =>
      cases b <;> rfl
  | cons c a ih =>
      have hpos : 0 < c.utf8Size := c.utf8Size_pos
      obtain ⟨n, hn⟩ : ∃ n, byteLength (c :: a) = n + 1 :=
        ⟨byteLength (c :: a) - 1, by rw [byteLength_cons]; omega⟩
      have hrest : n + 1 - c.utf8Size = byteLength a := by
        rw [← hn, byteLength_cons]
        omega
      have hle : c.utf8Size ≤ n + 1 := by
        rw [← hn, byteLength_cons]
        omega
      rw [hn, List.cons_append, splitAt, if_pos hle, hrest, ih]
      rfl

theorem isSome_splitAt : (splitAt n s).isSome = true ↔ CharBoundary n s := by
  constructor
  · intro h
    obtain ⟨⟨a, b⟩, hcut⟩ := Option.isSome_iff_exists.mp h
    exact ⟨a, b, splitAt_some hcut⟩
  · rintro ⟨a, b, rfl, rfl⟩
    rw [splitAt_byteLength]
    rfl

theorem byteLength_of_single (h : ∀ c ∈ s, c.utf8Size = 1) : byteLength s = s.length := by
  rw [byteLength, List.map_congr_left h]
  simp

/-- Between characters of one byte every offset is a boundary. -/
theorem boundary_of_single (h : ∀ c ∈ s, c.utf8Size = 1) (hn : n ≤ byteLength s) : CharBoundary n s := by
  refine ⟨s.take n, s.drop n, (List.take_append_drop n s).symm, ?_⟩
  rw [byteLength_of_single fun c hc => h c (List.mem_of_mem_take hc), List.length_take]
  rw [byteLength_of_single h] at hn
  exact Nat.min_eq_left hn

namespace Csrf

variable {token : Pad}

/-! ## What is accepted -/

/-- The digits of the token, or those of a pad and of the token under it. -/
def Accepted (token : Pad) (s : Text) : Prop :=
  Denotes s token.val ∨ ∃ pad : Pad, Denotes s (pad.val ++ xor pad.val token.val)

theorem length_masking (pad : Pad) : (pad.val ++ xor pad.val token.val).length = tokenBytes * 2 := by
  rw [List.length_append, length_xor, pad.property, token.property]
  rfl

theorem Accepted.digits (h : Accepted token s) : ∀ c ∈ s, (toDigit c).isSome = true := by
  rcases h with h | ⟨pad, h⟩
  · exact h.digits
  · exact h.digits

theorem Accepted.size (h : Accepted token s) :
    byteLength s = tokenBytes * 2 ∨ byteLength s = tokenBytes * 4 := by
  rcases h with h | ⟨pad, h⟩
  · left
    rw [h.size, token.property]
    rfl
  · right
    rw [h.size, length_masking]
    rfl

theorem accepted_bare (hlen : byteLength s = tokenBytes * 2) :
    Accepted token s ↔ fromHex s = some token.val := by
  have hne : s ≠ [] := by
    rintro rfl
    cases hlen
  rw [fromHex_iff, and_iff_right hne]
  constructor
  · rintro (h | ⟨pad, h⟩)
    · exact h
    · rw [h.size, length_masking] at hlen
      cases hlen
  · exact .inl

/-- A value of two tokens' length is a pad and the token under it. -/
theorem accepted_masked (ha : byteLength a = tokenBytes * 2) (hb : byteLength b = tokenBytes * 2) :
    Accepted token (a ++ b) ↔
      ∃ pad masked, fromHex a = some pad ∧ fromHex b = some masked ∧ xor pad masked = token.val := by
  have hane : a ≠ [] := by
    rintro rfl
    cases ha
  have hbne : b ≠ [] := by
    rintro rfl
    cases hb
  constructor
  · rintro (h | ⟨pad, h⟩)
    · have hlen := h.size
      rw [byteLength_append, ha, hb, token.property] at hlen
      cases hlen
    · -- Digits are one byte each, so the cut falls between the pad and what it masks.
      have hdigits : ∀ c ∈ a, (toDigit c).isSome = true := fun c hc =>
        h.digits c (List.mem_append_left b hc)
      have halen : a.length = 2 * pad.val.length := by
        rw [← byteLength_of_digits hdigits, ha, pad.property]
        rfl
      obtain ⟨hpad, hmasked⟩ := h.split halen
      exact ⟨pad.val, _, fromHex_iff.mpr ⟨hane, hpad⟩, fromHex_iff.mpr ⟨hbne, hmasked⟩,
        xor_xor (pad.property.trans token.property.symm)⟩
  · rintro ⟨pad, masked, hpad, hmasked, hxor⟩
    obtain ⟨-, hpad⟩ := fromHex_iff.mp hpad
    obtain ⟨-, hmasked⟩ := fromHex_iff.mp hmasked
    have hplen : pad.length = tokenBytes := by
      have := hpad.size
      omega
    have hmlen : masked.length = tokenBytes := by
      have := hmasked.size
      omega
    refine .inr ⟨⟨pad, hplen⟩, ?_⟩
    rw [← hxor, xor_xor (hplen.trans hmlen.symm)]
    exact hpad.append hmasked

theorem verify_eq (ht : fromHex t = some token.val) : (⟨t⟩ : Csrf).verify s =
    match unmask s with
    | .error verdict => verdict
    | .ok actual => if sameBytes token.val actual then .ok else .forbidden := by
  unfold verify
  split
  · rename_i hnone
    cases ht.symm.trans hnone
  · rename_i expected hexpected
    cases ht.symm.trans hexpected
    rfl

/-- A value of two tokens' length with a character across the cut. -/
theorem verify_of_not_boundary (ht : fromHex t = some token.val) (hlen : byteLength s = tokenBytes * 4)
    (h : ¬ CharBoundary (tokenBytes * 2) s) : (⟨t⟩ : Csrf).verify s = .panicked := by
  have hnone : splitAt (tokenBytes * 2) s = none := by
    rw [← isSome_splitAt] at h
    simpa using h
  rw [verify_eq ht, unmask, if_neg (by rw [hlen]; decide), if_pos hlen, hnone]

/-- What becomes of every value that is cut where a character ends. -/
theorem verify_of_boundary (ht : fromHex t = some token.val)
    (h : byteLength s = tokenBytes * 4 → CharBoundary (tokenBytes * 2) s) :
    (⟨t⟩ : Csrf).verify s = .ok ∧ Accepted token s ∨
      (⟨t⟩ : Csrf).verify s = .forbidden ∧ ¬ Accepted token s := by
  rw [verify_eq ht]
  by_cases hbare : byteLength s = tokenBytes * 2
  · rw [unmask, if_pos hbare, accepted_bare hbare]
    cases hhex : fromHex s with
    | none => exact .inr ⟨rfl, by simp⟩
    | some actual =>
        by_cases hsame : token.val = actual
        · exact .inl ⟨if_pos (sameBytes_iff.mpr hsame), congrArg some hsame.symm⟩
        · exact .inr ⟨if_neg fun h => hsame (sameBytes_iff.mp h), fun h => hsame (Option.some.inj h).symm⟩
  · by_cases hmasked : byteLength s = tokenBytes * 4
    · obtain ⟨a, b, rfl, ha⟩ := h hmasked
      have hb : byteLength b = tokenBytes * 2 := by
        rw [byteLength_append, ha] at hmasked
        omega
      rw [accepted_masked ha hb, unmask, if_neg hbare, if_pos hmasked, ← ha, splitAt_byteLength]
      cases hpad : fromHex a with
      | none => exact .inr ⟨by simp only [hpad]; rfl, by simp⟩
      | some pad =>
          cases hrest : fromHex b with
          | none => exact .inr ⟨by simp only [hpad, hrest]; rfl, by simp⟩
          | some masked =>
              simp only [hpad, hrest, bind, Except.bind]
              by_cases hsame : token.val = xor pad masked
              · exact .inl ⟨if_pos (sameBytes_iff.mpr hsame), pad, masked, rfl, rfl, hsame.symm⟩
              · refine .inr ⟨if_neg fun h => hsame (sameBytes_iff.mp h), ?_⟩
                rintro ⟨pad', masked', hpad', hmasked', hxor⟩
                cases hpad'
                cases hmasked'
                exact hsame hxor.symm
    · refine .inr ⟨by rw [unmask, if_neg hbare, if_neg hmasked], fun hacc => ?_⟩
      rcases hacc.size with hlen | hlen
      · exact hbare hlen
      · exact hmasked hlen

/-- An accepted value has digits only, so it is cut where one ends. -/
theorem Accepted.boundary (h : Accepted token s) :
    byteLength s = tokenBytes * 4 → CharBoundary (tokenBytes * 2) s := by
  intro hlen
  exact boundary_of_single (fun c hc => utf8Size_of_toDigit (h.digits c hc)) (by rw [hlen]; decide)

theorem accepted_of_verify (ht : fromHex t = some token.val) (h : (⟨t⟩ : Csrf).verify s = .ok) :
    Accepted token s := by
  by_cases hcut : byteLength s = tokenBytes * 4 → CharBoundary (tokenBytes * 2) s
  · rcases verify_of_boundary ht hcut with ⟨-, hacc⟩ | ⟨hno, -⟩
    · exact hacc
    · rw [hno] at h
      cases h
  · obtain ⟨hlen, hno⟩ := Classical.not_imp.mp hcut
    rw [verify_of_not_boundary ht hlen hno] at h
    cases h

/-! ## One digit changed -/

variable {before after : Text}

/-- Pads are told apart by what the token becomes under them. -/
theorem pad_eq_of_masked {pad pad' : Pad} (h : xor pad.val token.val = xor pad'.val token.val) :
    pad = pad' := by
  have hcomm (p : Pad) : xor p.val token.val = xor token.val p.val := by
    rw [xor, List.zipWith_comm]
    simp only [UInt8.xor_comm, xor]
  rw [hcomm, hcomm] at h
  have hunder := congrArg (xor token.val) h
  rw [xor_xor (token.property.trans pad.property.symm), xor_xor (token.property.trans pad'.property.symm)]
    at hunder
  exact Subtype.ext hunder

theorem pad_eq_of_changed {pad pad' : Pad}
    (h : Denotes (before ++ c :: after) (pad.val ++ xor pad.val token.val))
    (h' : Denotes (before ++ c' :: after) (pad'.val ++ xor pad'.val token.val)) : pad = pad' := by
  have hhalves {s : Text} {p : Pad} (hs : Denotes s (p.val ++ xor p.val token.val)) :
      Denotes (s.take (2 * tokenBytes)) p.val ∧ Denotes (s.drop (2 * tokenBytes)) (xor p.val token.val) := by
    have hlen := hs.length
    rw [length_masking] at hlen
    rw [← List.take_append_drop (2 * tokenBytes) s] at hs
    refine hs.split ?_
    rw [List.length_take, hlen, p.property]
    rfl
  obtain ⟨hpad, hmasked⟩ := hhalves h
  obtain ⟨hpad', hmasked'⟩ := hhalves h'
  by_cases hfirst : before.length < 2 * tokenBytes
  · -- The second half is untouched.
    obtain ⟨k, hk⟩ : ∃ k, 2 * tokenBytes = before.length + (k + 1) := ⟨2 * tokenBytes - before.length - 1, by omega⟩
    rw [hk, List.drop_append] at hmasked hmasked'
    simp only [Nat.add_sub_cancel_left, List.drop_succ_cons] at hmasked hmasked'
    exact pad_eq_of_masked (hmasked.unique hmasked')
  · rw [List.take_append_of_le_length (Nat.not_lt.mp hfirst)] at hpad hpad'
    exact Subtype.ext (hpad.unique hpad')

/-- Whatever is put in a digit's place, the value is accepted only if it denotes the same. -/
theorem toDigit_eq_of_accepted (h : Accepted token (before ++ c :: after))
    (h' : Accepted token (before ++ c' :: after)) : toDigit c' = toDigit c := by
  have hlen : (before ++ c :: after).length = (before ++ c' :: after).length := by simp
  rcases h with h | ⟨pad, h⟩
  · rcases h' with h' | ⟨pad', h'⟩
    · exact h.toDigit_eq h'
    · rw [h.length, h'.length, length_masking, token.property] at hlen
      cases hlen
  · rcases h' with h' | ⟨pad', h'⟩
    · rw [h.length, h'.length, length_masking, token.property] at hlen
      cases hlen
    · have hpad := pad_eq_of_changed h h'
      subst hpad
      exact h.toDigit_eq h'

/-- A value with one digit changed is refused, whatever stands there now. -/
theorem verify_changed (ht : fromHex t = some token.val)
    (h : (⟨t⟩ : Csrf).verify (before ++ c :: after) = .ok) (hne : toDigit c' ≠ toDigit c) :
    (⟨t⟩ : Csrf).verify (before ++ c' :: after) = .forbidden := by
  have hacc := accepted_of_verify ht h
  have hsingle : ∀ d ∈ before ++ c :: after, d.utf8Size = 1 := fun d hd =>
    utf8Size_of_toDigit (hacc.digits d hd)
  have hcut : byteLength (before ++ c' :: after) = tokenBytes * 4 →
      CharBoundary (tokenBytes * 2) (before ++ c' :: after) := by
    intro hlen
    have hc : c.utf8Size = 1 := hsingle c (by simp)
    have hc' : 0 < c'.utf8Size ∧ c'.utf8Size ≤ 4 := ⟨c'.utf8Size_pos, c'.utf8Size_le_four⟩
    -- Only a character of one byte keeps the length.
    have hone : c'.utf8Size = 1 := by
      have hsize := hacc.size
      simp only [byteLength_append, byteLength_cons, tokenBytes] at hlen hsize
      omega
    refine boundary_of_single (fun d hd => ?_) (by rw [hlen]; decide)
    simp only [List.mem_append, List.mem_cons] at hd hsingle
    rcases hd with hd | rfl | hd
    · exact hsingle d (.inl hd)
    · exact hone
    · exact hsingle d (.inr (.inr hd))
  rcases verify_of_boundary ht hcut with ⟨-, hacc'⟩ | ⟨hno, -⟩
  · exact absurd (toDigit_eq_of_accepted hacc hacc') hne
  · exact hno

/-! ## Every channel -/

/-- A header is visible ASCII, so only a form field can stop the handler. -/
theorem verifyRequest_total (ht : fromHex t = some token.val) {http : Http}
    {header : Option HeaderValue} {formToken : Option Text}
    (h : header.bind http.toStr = none → ∀ s ∈ formToken,
      byteLength s = tokenBytes * 4 → CharBoundary (tokenBytes * 2) s) :
    (⟨t⟩ : Csrf).verifyRequest http header formToken ≠ .panicked := by
  have htotal {s : Text} (hcut : byteLength s = tokenBytes * 4 → CharBoundary (tokenBytes * 2) s) :
      (⟨t⟩ : Csrf).verify s ≠ .panicked := by
    rcases verify_of_boundary ht hcut with ⟨hv, -⟩ | ⟨hv, -⟩
    · rw [hv]
      decide
    · rw [hv]
      decide
  unfold verifyRequest
  cases hheader : header.bind http.toStr with
  | some s =>
      obtain ⟨v, -, hv⟩ := Option.bind_eq_some_iff.mp hheader
      obtain ⟨hvisible, rfl⟩ := (http.toStr_iff v s).mp hv
      refine htotal fun hlen => boundary_of_single (fun c hc => ?_) (by rw [hlen]; decide)
      exact utf8Size_of_ascii (isAscii_of_visible (List.all_eq_true.mp hvisible c hc))
  | none =>
      cases formToken with
      | some s => exact htotal (h hheader s rfl)
      | none => exact Verdict.noConfusion

/-- Verification is total and exact on a presented value, every page value verifies, digits read back as
their bytes, and an accepted value with one digit changed is refused. -/
structure Exact (csrf : Csrf) (token : Pad) (s : Text) : Prop where
  total : csrf.verify s ≠ .panicked
  accepted : csrf.verify s = .ok ↔ Accepted token s
  masked : ∀ pad, csrf.verify (csrf.masked pad) = .ok
  digits : ∀ bytes, bytes ≠ [] → fromHex (toHex bytes) = some bytes
  changed : ∀ before c c' after, s = before ++ c :: after → csrf.verify s = .ok →
    toDigit c' ≠ toDigit c → csrf.verify (before ++ c' :: after) = .forbidden

theorem verify_self (ht : fromHex t = some token.val) : (⟨t⟩ : Csrf).verify t = .ok := by
  have hacc : Accepted token t := .inl (fromHex_iff.mp ht).2
  rcases verify_of_boundary ht hacc.boundary with ⟨hok, -⟩ | ⟨-, hno⟩
  · exact hok
  · exact absurd hacc hno

/-- Verification is total and exact precisely on the values that are not two tokens long with a character
across the middle. -/
theorem verify_exact_iff (ht : fromHex t = some token.val) (s : Text) : Exact ⟨t⟩ token s ↔
    (byteLength s = tokenBytes * 4 → CharBoundary (tokenBytes * 2) s) := by
  constructor
  · intro h hlen
    by_contra hcut
    exact h.total (verify_of_not_boundary ht hlen hcut)
  · intro h
    refine ⟨?_, ?_, fun pad => ?_, fun bytes => fromHex_toHex, ?_⟩
    · rcases verify_of_boundary ht h with ⟨hv, -⟩ | ⟨hv, -⟩
      · rw [hv]
        decide
      · rw [hv]
        decide
    · rcases verify_of_boundary ht h with ⟨hv, hacc⟩ | ⟨hv, hno⟩
      · exact iff_of_true hv hacc
      · exact iff_of_false (by rw [hv]; decide) hno
    · cases pad with
      | some pad => exact verify_masked ht token.property
      | none =>
          have hbare : (⟨t⟩ : Csrf).masked none = t := by simp [Csrf.masked]
          rw [hbare]
          exact verify_self ht
    · rintro before c c' after rfl hok hne
      exact verify_changed ht hok hne

/-- Of a token of zeros, its own digits. -/
theorem verify_exact_zeros :
    Exact ⟨List.replicate 64 '0'⟩ ⟨List.replicate 32 0, rfl⟩ (List.replicate 64 '0') ↔
      (byteLength (List.replicate 64 '0') = tokenBytes * 4 →
        CharBoundary (tokenBytes * 2) (List.replicate 64 '0')) :=
  verify_exact_iff (by decide) _

set_option maxRecDepth 2000 in
/-- A value whose sixty-fourth character takes two bytes. -/
theorem split_character_panics :
    byteLength (List.replicate 63 'a' ++ 'é' :: List.replicate 63 'a') = 128 ∧
    (⟨List.replicate 64 '0'⟩ : Csrf).verify (List.replicate 63 'a' ++ 'é' :: List.replicate 63 'a') =
      .panicked ∧
    ¬ Exact ⟨List.replicate 64 '0'⟩ ⟨List.replicate 32 0, rfl⟩
      (List.replicate 63 'a' ++ 'é' :: List.replicate 63 'a') := by
  have hpanics : (⟨List.replicate 64 '0'⟩ : Csrf).verify
      (List.replicate 63 'a' ++ 'é' :: List.replicate 63 'a') = .panicked := by decide
  exact ⟨by decide, hpanics, fun h => h.total hpanics⟩

end Csrf

end Gavel.Web
