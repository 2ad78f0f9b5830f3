import Gavel.Web.Csrf

/-!
# A visitor always holds a usable token

A token is usable when every masking of it verifies. What the middleware keeps is any cookie that reads
as hexadecimal; what verifies is a token of thirty-two bytes.
-/

namespace Gavel.Web

variable {http : Http} {s t : Text} {bytes : List UInt8} {c : Char} {n : Nat}

/-! ## Hexadecimal -/

theorem toDigit_hexDigit (h : n < 16) : toDigit (hexDigit n) = some n := by
  have hall : ∀ i : Fin 16, toDigit (hexDigit i.val) = some i.val := by decide
  exact hall ⟨n, h⟩

theorem high_low (b : UInt8) :
    (b >>> 4).toNat < 16 ∧ (b &&& 0x0f).toNat < 16 ∧
      ((b >>> 4).toNat * 16 + (b &&& 0x0f).toNat).toUInt8 = b := by
  have hhigh : (b >>> 4).toNat = b.toNat / 16 := by
    simp [UInt8.toNat_shiftRight, Nat.shiftRight_eq_div_pow]
  have hlow : (b &&& 0x0f).toNat = b.toNat % 16 := by
    simpa using Nat.and_two_pow_sub_one_eq_mod b.toNat 4
  have hb : b.toNat < 256 := b.toNat_lt
  refine ⟨by omega, by omega, ?_⟩
  rw [hhigh, hlow]
  have hsum : b.toNat / 16 * 16 + b.toNat % 16 = b.toNat := by omega
  rw [hsum]
  exact UInt8.ofNat_toNat

theorem hexPairs_toHex (bytes : List UInt8) : hexPairs (toHex bytes) = some bytes := by
  induction bytes with
  | nil => rfl
  | cons b bytes ih =>
      obtain ⟨hhigh, hlow, hbyte⟩ := high_low b
      have hcons : toHex (b :: bytes) =
          hexDigit (b >>> 4).toNat :: hexDigit (b &&& 0x0f).toNat :: toHex bytes := rfl
      rw [hcons, hexPairs, toDigit_hexDigit hhigh, toDigit_hexDigit hlow, ih]
      simp only [Option.bind_eq_bind, Option.bind_some, hbyte]

@[simp] theorem length_toHex (bytes : List UInt8) : (toHex bytes).length = 2 * bytes.length := by
  induction bytes with
  | nil => rfl
  | cons b bytes ih =>
      simp only [toHex, List.flatMap_cons, List.length_append, List.length_cons, List.length_nil] at ih ⊢
      omega

theorem fromHex_toHex (h : bytes ≠ []) : fromHex (toHex bytes) = some bytes := by
  have hne : toHex bytes ≠ [] := by
    intro hnil
    have hlen := length_toHex bytes
    rw [hnil] at hlen
    have hpos : 0 < bytes.length := List.length_pos_iff.mpr h
    rw [List.length_nil] at hlen
    omega
  rw [fromHex, if_neg (by simpa using hne)]
  exact hexPairs_toHex bytes

theorem hexPairs_some (h : hexPairs s = some bytes) :
    s.length = 2 * bytes.length ∧ ∀ c ∈ s, (toDigit c).isSome = true := by
  induction s using hexPairs.induct generalizing bytes with
  | case1 =>
      cases h
      simp
  | case2 c => cases h
  | case3 hi lo text ih =>
      simp only [hexPairs, Option.bind_eq_bind, Option.bind_eq_some_iff, Option.some.injEq] at h
      obtain ⟨hi', hhi, lo', hlo, rest, hrest, rfl⟩ := h
      obtain ⟨hlen, hdigits⟩ := ih hrest
      refine ⟨by simp only [List.length_cons, hlen]; omega, fun c hc => ?_⟩
      rcases List.mem_cons.mp hc with rfl | hc
      · rw [hhi]; rfl
      · rcases List.mem_cons.mp hc with rfl | hc
        · rw [hlo]; rfl
        · exact hdigits c hc

theorem fromHex_some (h : fromHex s = some bytes) : s ≠ [] ∧ hexPairs s = some bytes := by
  unfold fromHex at h
  split at h
  · cases h
  · rename_i hne
    exact ⟨by simpa using hne, h⟩

theorem toNat_of_toDigit (h : (toDigit c).isSome = true) : 48 ≤ c.toNat ∧ c.toNat ≤ 102 ∧ c.toNat ≠ 59 ∧
    c.toNat ≠ 61 := by
  simp only [toDigit] at h
  split at h
  · omega
  · split at h
    · omega
    · split at h
      · omega
      · cases h

theorem utf8Size_of_toDigit (h : (toDigit c).isSome = true) : c.utf8Size = 1 := by
  have hle := (toNat_of_toDigit h).2.1
  exact Char.utf8Size_eq_one_iff.mpr (UInt32.le_iff_toNat_le.mpr (by simpa using Nat.le_trans hle (by decide)))

theorem byteLength_of_digits (h : ∀ c ∈ s, (toDigit c).isSome = true) : byteLength s = s.length := by
  induction s with
  | nil => rfl
  | cons c s ih =>
      obtain ⟨hc, hs⟩ := List.forall_mem_cons.mp h
      simp only [byteLength, List.map_cons, List.sum_cons, List.length_cons] at ih ⊢
      rw [utf8Size_of_toDigit hc, ih hs]
      omega

theorem splitAt_append (h : ∀ c ∈ s, (toDigit c).isSome = true) (t : Text) :
    splitAt s.length (s ++ t) = some (s, t) := by
  induction s with
  | nil => simp [splitAt]
  | cons c s ih =>
      obtain ⟨hc, hs⟩ := List.forall_mem_cons.mp h
      simp only [List.length_cons, List.cons_append, splitAt, utf8Size_of_toDigit hc]
      rw [if_pos (by omega), Nat.add_sub_cancel, ih hs]
      rfl

theorem digits_toHex (bytes : List UInt8) : ∀ c ∈ toHex bytes, (toDigit c).isSome = true :=
  (hexPairs_some (hexPairs_toHex bytes)).2

theorem byteLength_toHex (bytes : List UInt8) : byteLength (toHex bytes) = 2 * bytes.length := by
  rw [byteLength_of_digits (digits_toHex bytes), length_toHex]

/-! ## Masking -/

theorem length_xor (a b : List UInt8) : (xor a b).length = min a.length b.length := List.length_zipWith

theorem xor_xor {a b : List UInt8} (h : a.length = b.length) : xor a (xor a b) = b := by
  induction a generalizing b with
  | nil =>
      cases b with
      | nil => rfl
      | cons y b => cases h
  | cons x a ih =>
      cases b with
      | nil => cases h
      | cons y b =>
          have hrest := ih (Nat.succ.inj h)
          have hhead : x ^^^ (x ^^^ y) = y := by rw [← UInt8.xor_assoc, UInt8.xor_self, UInt8.zero_xor]
          simp only [xor, List.zipWith_cons_cons] at hrest ⊢
          rw [hhead, hrest]

theorem foldl_or_eq_zero (l : List (UInt8 × UInt8)) (acc : UInt8) :
    l.foldl (fun acc p => acc ||| (p.1 ^^^ p.2)) acc = 0 ↔ acc = 0 ∧ ∀ p ∈ l, p.1 = p.2 := by
  induction l generalizing acc with
  | nil => simp
  | cons p l ih =>
      rw [List.foldl_cons, ih, UInt8.or_eq_zero_iff, UInt8.xor_eq_zero_iff, List.forall_mem_cons, and_assoc]

theorem sameBytes_iff {a b : List UInt8} : Csrf.sameBytes a b = true ↔ a = b := by
  simp only [Csrf.sameBytes, Bool.and_eq_true, decide_eq_true_eq, foldl_or_eq_zero, true_and]
  constructor
  · rintro ⟨hlen, hall⟩
    apply List.ext_getElem hlen
    intro i ha hb
    have hmem : (a[i], b[i]) ∈ a.zip b := by
      rw [← List.getElem_zip (h := by simpa using ⟨ha, hb⟩)]
      exact List.getElem_mem _
    exact hall _ hmem
  · rintro rfl
    refine ⟨rfl, fun p hp => ?_⟩
    obtain ⟨i, hi, rfl⟩ := List.getElem_of_mem hp
    rw [List.getElem_zip]

/-! ## What verifies -/

namespace Csrf

/-- Every masking of the token verifies. -/
def Usable (csrf : Csrf) : Prop := ∀ pad : Pad, csrf.verify (csrf.masked (some pad)) = .ok

theorem byteLength_masked (pad : Pad) (h : fromHex s = some bytes) :
    byteLength ((⟨s⟩ : Csrf).masked (some pad)) = 2 * tokenBytes + 2 * min tokenBytes bytes.length := by
  have happ : ∀ a b : Text, byteLength (a ++ b) = byteLength a + byteLength b := by
    simp [byteLength]
  simp only [masked, h, happ, byteLength_toHex, length_xor, pad.property]

theorem ne_nil_of_length (pad : Pad) (h : bytes ≠ []) : pad.val ≠ [] ∧ xor pad.val bytes ≠ [] := by
  have hpos : 0 < bytes.length := List.length_pos_iff.mpr h
  have hx := length_xor pad.val bytes
  have hp := pad.property
  unfold tokenBytes at hp
  constructor
  · rw [← List.length_pos_iff]
    omega
  · rw [← List.length_pos_iff]
    omega

/-- A page value with both halves whole unmasks to the bytes the mask covers. -/
theorem unmask_masked {pad : Pad} (h : fromHex s = some bytes) (hlen : tokenBytes ≤ bytes.length) :
    unmask ((⟨s⟩ : Csrf).masked (some pad)) = .ok (xor pad.val (xor pad.val bytes)) := by
  have hbytes := byteLength_masked pad h
  have hsplit : splitAt (tokenBytes * 2) (toHex pad.val ++ toHex (xor pad.val bytes)) =
      some (toHex pad.val, toHex (xor pad.val bytes)) := by
    have hcut : tokenBytes * 2 = (toHex pad.val).length := by
      rw [length_toHex, pad.property]
      rfl
    rw [hcut]
    exact splitAt_append (digits_toHex pad.val) _
  have hne : bytes ≠ [] := by
    rintro rfl
    exact absurd hlen (by decide)
  obtain ⟨hpad, hxor⟩ := ne_nil_of_length pad hne
  rw [Nat.min_eq_left hlen] at hbytes
  simp only [masked, h] at hbytes ⊢
  rw [unmask, hbytes, if_neg (by decide), if_pos (by decide), hsplit]
  simp only [fromHex_toHex hpad, fromHex_toHex hxor, bind, Except.bind]

theorem verify_masked {pad : Pad} (h : fromHex s = some bytes) (hlen : bytes.length = tokenBytes) :
    (⟨s⟩ : Csrf).verify ((⟨s⟩ : Csrf).masked (some pad)) = .ok := by
  rw [verify]
  simp only [h, unmask_masked h (Nat.le_of_eq hlen.symm)]
  rw [xor_xor (pad.property.trans hlen.symm), if_pos (sameBytes_iff.mpr rfl)]

/-- A token of another length has no page value that verifies. -/
theorem verify_masked_of_ne {pad : Pad} (h : fromHex s = some bytes) (hlen : bytes.length ≠ tokenBytes) :
    (⟨s⟩ : Csrf).verify ((⟨s⟩ : Csrf).masked (some pad)) = .forbidden := by
  rw [verify]
  simp only [h]
  by_cases hshort : bytes.length < tokenBytes
  · -- The second half is too short, and the whole is no value of either length.
    have hpos : 0 < bytes.length := by
      obtain ⟨hne, hpairs⟩ := fromHex_some h
      have hchars := (hexPairs_some hpairs).1
      have hs : 0 < s.length := List.length_pos_iff.mpr hne
      omega
    have hbytes := byteLength_masked pad h
    have hmin : min tokenBytes bytes.length = bytes.length := Nat.min_eq_right (Nat.le_of_lt hshort)
    rw [unmask, if_neg (by omega), if_neg (by omega)]
  · -- The value unmasks to thirty-two bytes of a longer token.
    have hle : tokenBytes ≤ bytes.length := Nat.not_lt.mp hshort
    have hdiff : bytes ≠ xor pad.val (xor pad.val bytes) := by
      intro heq
      have hsame := congrArg List.length heq
      rw [length_xor, length_xor, pad.property] at hsame
      omega
    simp only [unmask_masked h hle]
    rw [if_neg fun hsame => hdiff (sameBytes_iff.mp hsame)]

theorem usable_iff (h : fromHex s = some bytes) : (⟨s⟩ : Csrf).Usable ↔ bytes.length = tokenBytes := by
  constructor
  · intro husable
    by_contra hne
    have hok := husable ⟨List.replicate tokenBytes 0, List.length_replicate⟩
    rw [verify_masked_of_ne h hne] at hok
    cases hok
  · intro hlen pad
    exact verify_masked h hlen

end Csrf

/-! ## The middleware -/

/-- The browser holds the token after the response: it sent it, or it is handed it. -/
def Issued.Held (issued : Issued) (http : Http) (secureCookies : Bool) (cookies : List HeaderValue) :
    Prop :=
  cookieValue http cookies (csrfCookieName secureCookies) = some issued.csrf.token ∨
    ∃ v ∈ issued.setCookie, stored v = some (csrfCookieName secureCookies, issued.csrf.token)

theorem csrfCookieName_plain (secureCookies : Bool) :
    ∀ c ∈ csrfCookieName secureCookies, isVisibleAscii c = true ∧ c ≠ ';' ∧ c ≠ '=' ∧
      c.isWhitespace = false :=
  Text.forall_mem (by cases secureCookies <;> decide)

theorem plain_of_toDigit (h : (toDigit c).isSome = true) :
    isVisibleAscii c = true ∧ c ≠ ';' ∧ c.isWhitespace = false := by
  obtain ⟨hlow, hhigh, hsemi, -⟩ := toNat_of_toDigit h
  have hne (d : Char) (hd : d.toNat < 48) : c ≠ d := by
    rintro rfl
    omega
  refine ⟨?_, ?_, ?_⟩
  · simp only [isVisibleAscii, Bool.or_eq_true, Bool.and_eq_true, decide_eq_true_eq]
    omega
  · rintro rfl
    exact hsemi rfl
  · simp [Char.isWhitespace, hne ' ' (by decide), hne '\t' (by decide), hne '\r' (by decide),
      hne '\n' (by decide)]

/-- The cookie's name and token come first, then its attributes. -/
theorem csrfSetCookie_eq (secureCookies : Bool) (token : Text) : ∃ attributes,
    csrfSetCookie secureCookies token =
      (csrfCookieName secureCookies ++ '=' :: token) ++ ';' :: attributes ∧
    attributes.all isVisibleAscii = true := by
  have hlead : "; Path=/; HttpOnly; SameSite=Lax; Max-Age=".toList =
      ';' :: " Path=/; HttpOnly; SameSite=Lax; Max-Age=".toList := by decide
  refine ⟨" Path=/; HttpOnly; SameSite=Lax; Max-Age=".toList ++ (Text.decimal (sessionTtlMs / 1000) ++
    (if secureCookies then "; Secure".toList else [])), ?_, ?_⟩
  · rw [csrfSetCookie, hlead]
    simp only [List.append_assoc, List.cons_append]
  · cases secureCookies <;> decide

theorem stored_csrfSetCookie (secureCookies : Bool) (fresh : Pad) :
    ∃ v, http.fromStr (csrfSetCookie secureCookies (toHex fresh.val)) = some v ∧
      stored v = some (csrfCookieName secureCookies, toHex fresh.val) := by
  obtain ⟨attributes, heq, hattributes⟩ := csrfSetCookie_eq secureCookies (toHex fresh.val)
  have hname := csrfCookieName_plain secureCookies
  have htoken (c : Char) (hc : c ∈ toHex fresh.val) := plain_of_toDigit (digits_toHex fresh.val c hc)
  have hvisible : (csrfSetCookie secureCookies (toHex fresh.val)).all isVisibleAscii = true := by
    rw [heq]
    simp only [List.all_append, List.all_cons, hattributes, Bool.and_true, Bool.and_eq_true]
    exact ⟨⟨List.all_eq_true.mpr fun c hc => (hname c hc).1, by decide,
      List.all_eq_true.mpr fun c hc => (htoken c hc).1⟩, by decide⟩
  refine ⟨_, Http.fromStr_eq hvisible, ?_⟩
  rw [heq]
  exact stored_append (fun c hc => (hname c hc).2) fun c hc => (htoken c hc).2

theorem csrfLayer_kept {secureCookies : Bool} {cookies : List HeaderValue} {fresh : Pad} {v : Text}
    (h : cookieValue http cookies (csrfCookieName secureCookies) = some v) (hhex : (fromHex v).isSome = true) :
    csrfLayer http secureCookies cookies fresh = ⟨⟨v⟩, none⟩ := by
  simp only [csrfLayer, h, Option.filter_some, hhex, if_true]

theorem csrfLayer_fresh {secureCookies : Bool} {cookies : List HeaderValue} {fresh : Pad}
    (h : ∀ v, cookieValue http cookies (csrfCookieName secureCookies) = some v → fromHex v = none) :
    csrfLayer http secureCookies cookies fresh = ⟨⟨toHex fresh.val⟩,
      http.fromStr (csrfSetCookie secureCookies (toHex fresh.val))⟩ := by
  have hnone : (cookieValue http cookies (csrfCookieName secureCookies)).filter
      (fun v => (fromHex v).isSome) = none := by
    rw [Option.filter_eq_none_iff]
    intro v hv
    simp [h v hv]
  simp only [csrfLayer, hnone]

/-- The token of a request is usable and held by the browser exactly if the cookie was missing, was no
hexadecimal, or has the length of a token. -/
theorem csrf_token_usable_iff (http : Http) (secureCookies : Bool) (cookies : List HeaderValue) (fresh : Pad) :
    ((csrfLayer http secureCookies cookies fresh).csrf.Usable ∧
      (csrfLayer http secureCookies cookies fresh).Held http secureCookies cookies) ↔
    ∀ v, cookieValue http cookies (csrfCookieName secureCookies) = some v → (fromHex v).isSome = true →
      v.length = 2 * tokenBytes := by
  by_cases hkept : ∃ v, cookieValue http cookies (csrfCookieName secureCookies) = some v ∧
      (fromHex v).isSome = true
  · obtain ⟨v, hv, hhex⟩ := hkept
    obtain ⟨bytes, hbytes⟩ := Option.isSome_iff_exists.mp hhex
    have hlen := (hexPairs_some (fromHex_some hbytes).2).1
    rw [csrfLayer_kept hv hhex, Csrf.usable_iff hbytes]
    constructor
    · rintro ⟨hwhole, -⟩ v' hv' -
      obtain rfl : v = v' := Option.some.inj (hv.symm.trans hv')
      omega
    · intro hall
      have hv64 := hall v hv hhex
      exact ⟨by omega, .inl hv⟩
  · have hfresh : ∀ v, cookieValue http cookies (csrfCookieName secureCookies) = some v → fromHex v = none := by
      intro v hv
      by_contra hne
      exact hkept ⟨v, hv, Option.isSome_iff_ne_none.mpr hne⟩
    have hne : fresh.val ≠ [] := by
      intro hnil
      have hp := fresh.property
      rw [hnil] at hp
      cases hp
    rw [csrfLayer_fresh hfresh, Csrf.usable_iff (fromHex_toHex hne)]
    constructor
    · intro _ v hv hhex
      rw [hfresh v hv] at hhex
      cases hhex
    · intro _
      exact ⟨fresh.property, .inr (stored_csrfSetCookie secureCookies fresh)⟩

/-- A cookie of one byte is kept, and no form of its visitor is ever accepted. -/
theorem short_token_is_kept :
    ¬ ((csrfLayer opaqueOctets false ["wow_tracker_csrf=ab".toList] ⟨List.replicate tokenBytes 0, rfl⟩).csrf.Usable ∧
      (csrfLayer opaqueOctets false ["wow_tracker_csrf=ab".toList] ⟨List.replicate tokenBytes 0, rfl⟩).Held opaqueOctets false
        ["wow_tracker_csrf=ab".toList]) := by
  rintro ⟨husable, -⟩
  have hrefused : (csrfLayer opaqueOctets false ["wow_tracker_csrf=ab".toList]
      ⟨List.replicate tokenBytes 0, rfl⟩).csrf = ⟨"ab".toList⟩ := by decide
  rw [hrefused] at husable
  have hok := husable ⟨List.replicate tokenBytes 0, rfl⟩
  revert hok
  decide

end Gavel.Web
