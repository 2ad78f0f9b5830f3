import Gavel.Lib.Unicode

/-!
# Header values and cookies

What a header value may hold, and how one cookie is read out of a request.
-/

namespace Gavel.Web

/-- A character a header value is written with. -/
def isVisibleAscii (c : Char) : Bool := (32 ≤ c.toNat && c.toNat < 127) || c = '\t'

/-- A header value, one character for each byte. -/
abbrev HeaderValue := Text

/-- The bytes of a text, as a header value has them. -/
def octets (s : Text) : HeaderValue := s.bytes.map fun b => Char.ofNat b.toNat

/-- The header values of another crate. A text of visible ASCII is taken; whatever is taken has the bytes
of its text; and a value is read as a text exactly if it is visible ASCII. -/
structure Http where
  fromStr : Text → Option HeaderValue
  toStr : HeaderValue → Option Text
  fromStr_visible : ∀ s, s.all isVisibleAscii = true → (fromStr s).isSome = true
  fromStr_octets : ∀ s v, fromStr s = some v → v = octets s
  toStr_iff : ∀ v s, toStr v = some s ↔ v.all isVisibleAscii = true ∧ v = s

/-- The text without the white space around it; the text of a header has none but blanks and tabs. -/
def trim (s : Text) : Text :=
  ((s.dropWhile Char.isWhitespace).reverse.dropWhile Char.isWhitespace).reverse

/-- Value of one cookie from the request headers. -/
def cookieValue (http : Http) (cookies : List HeaderValue) (name : Text) : Option Text :=
  let pairs := ((cookies.filterMap http.toStr).flatMap (·.splitOn ';')).filterMap (Text.splitOnce '=')
  (pairs.find? fun pair => trim pair.1 = name).map fun pair => trim pair.2

/-- The cookie a browser stores for a `Set-Cookie` value: what stands before the attributes. -/
def stored (v : HeaderValue) : Option (Text × Text) :=
  (Text.splitOnce '=' (v.takeWhile (· ≠ ';'))).map fun pair => (trim pair.1, trim pair.2)

variable {http : Http} {s name : Text} {v : HeaderValue} {cookies : List HeaderValue} {c : Char}

/-! ## Bytes of a text -/

theorem isAscii_of_visible (h : isVisibleAscii c = true) : isAscii c = true := by
  simp only [isVisibleAscii, Bool.or_eq_true, Bool.and_eq_true, decide_eq_true_eq] at h
  rcases h with h | rfl
  · simp only [isAscii, decide_eq_true_eq]
    omega
  · decide

theorem octets_append (s t : Text) : octets (s ++ t) = octets s ++ octets t := by
  rw [octets, Text.bytes_append, List.map_append]
  rfl

theorem octets_cons (c : Char) (s : Text) :
    octets (c :: s) = (String.utf8EncodeChar c).map (fun b => Char.ofNat b.toNat) ++ octets s := by
  rw [octets, Text.bytes_cons, List.map_append]
  rfl

/-- ASCII is sent as it is. -/
theorem octets_of_ascii (h : ∀ c ∈ s, isAscii c = true) : octets s = s := by
  induction s with
  | nil => rfl
  | cons c s ih =>
      obtain ⟨hc, hs⟩ := List.forall_mem_cons.mp h
      have hlt : c.toNat < 128 := of_decide_eq_true hc
      have hbyte : c.val.toUInt8.toNat = c.toNat := by
        rw [UInt32.toNat_toUInt8]
        exact Nat.mod_eq_of_lt (Nat.lt_trans hlt (by decide))
      rw [octets_cons, String.utf8EncodeChar_eq_singleton (utf8Size_of_ascii hc), ih hs, List.map_singleton,
        hbyte, Char.ofNat_toNat, List.singleton_append]

theorem octets_ascii_append (hc : isAscii c = true) (s t : Text) :
    octets (s ++ c :: t) = octets s ++ c :: octets t := by
  have hself : octets [c] = [c] := octets_of_ascii (by simpa using hc)
  rw [← List.singleton_append, octets_append, octets_append, hself, List.singleton_append]

theorem toNat_octet (b : UInt8) : (Char.ofNat b.toNat).toNat = b.toNat := by
  have hvalid : b.toNat.isValidChar := .inl (Nat.lt_trans b.toNat_lt (by decide))
  rw [Char.ofNat, dif_pos hvalid]
  rfl

/-- A byte of a text is one of its ASCII characters, or beyond ASCII. -/
theorem mem_octets (h : c ∈ octets s) : c ∈ s ∧ isAscii c = true ∨ 128 ≤ c.toNat := by
  obtain ⟨b, hb, rfl⟩ := List.mem_map.mp h
  obtain ⟨d, hd, hbyte⟩ := List.mem_flatMap.mp hb
  cases hascii : isAscii d with
  | true =>
      have hself : octets [d] = [d] := octets_of_ascii (by simpa using hascii)
      have hmem : Char.ofNat b.toNat ∈ octets [d] :=
        List.mem_map_of_mem (List.mem_flatMap.mpr ⟨d, by simp, hbyte⟩)
      rw [hself, List.mem_singleton] at hmem
      rw [hmem]
      exact .inl ⟨hd, hascii⟩
  | false =>
      right
      rw [toNat_octet]
      exact high_of_mem_utf8EncodeChar hascii hbyte

/-- A text beyond ASCII has such a byte. -/
theorem exists_high_octet (hc : c ∈ s) (hascii : isAscii c = false) : ∃ o ∈ octets s, 128 ≤ o.toNat := by
  obtain ⟨b, hb⟩ := List.exists_mem_of_ne_nil (String.utf8EncodeChar c) String.utf8EncodeChar_ne_nil
  refine ⟨_, List.mem_map_of_mem (List.mem_flatMap.mpr ⟨c, hc, hb⟩), ?_⟩
  rw [toNat_octet]
  exact high_of_mem_utf8EncodeChar hascii hb

/-! ## Values sent and read -/

/-- A text of visible ASCII is sent as it is. -/
theorem Http.fromStr_eq (h : s.all isVisibleAscii = true) : http.fromStr s = some s := by
  obtain ⟨v, hv⟩ := Option.isSome_iff_exists.mp (http.fromStr_visible s h)
  have hself : octets s = s :=
    octets_of_ascii fun c hc => isAscii_of_visible (List.all_eq_true.mp h c hc)
  rw [hv, http.fromStr_octets s v hv, hself]

theorem Http.toStr_eq (h : v.all isVisibleAscii = true) : http.toStr v = some v :=
  (http.toStr_iff v v).mpr ⟨h, rfl⟩

/-- A value with a byte beyond ASCII is not read. -/
theorem Http.toStr_none (hc : c ∈ v) (hhigh : 128 ≤ c.toNat) : http.toStr v = none := by
  rw [Option.eq_none_iff_forall_ne_some]
  intro s hs
  have hascii := isAscii_of_visible (List.all_eq_true.mp ((http.toStr_iff v s).mp hs).1 c hc)
  exact Nat.not_lt.mpr hhigh (of_decide_eq_true hascii)

/-- Values that may hold every byte but the control characters, a tab apart. -/
def opaqueOctets : Http where
  fromStr s :=
    if (octets s).all (fun c => (32 ≤ c.toNat && c.toNat ≠ 127) || c = '\t') then some (octets s) else none
  toStr v := if v.all isVisibleAscii then some v else none
  fromStr_visible s h := by
    have hself : octets s = s :=
      octets_of_ascii fun c hc => isAscii_of_visible (List.all_eq_true.mp h c hc)
    have hall : s.all (fun c => (32 ≤ c.toNat && c.toNat ≠ 127) || c = '\t') = true := by
      refine List.all_eq_true.mpr fun c hc => ?_
      have hvisible := List.all_eq_true.mp h c hc
      simp only [isVisibleAscii, Bool.or_eq_true, Bool.and_eq_true, decide_eq_true_eq] at hvisible ⊢
      exact hvisible.imp_left fun hrange => ⟨hrange.1, Nat.ne_of_lt hrange.2⟩
    rw [hself, if_pos hall]
    rfl
  fromStr_octets s v h := (Option.some.inj (Option.ite_none_right_eq_some.mp h).2).symm
  toStr_iff v s := by
    rw [Option.ite_none_right_eq_some, Option.some.injEq]

/-! ## Cookies -/

theorem dropWhile_of_head {l : Text} (h : ∀ c ∈ l.head?, c.isWhitespace = false) :
    l.dropWhile Char.isWhitespace = l := by
  cases l with
  | nil => rfl
  | cons c l => simp [h c rfl]

theorem trim_of_forall (h : ∀ c ∈ s, c.isWhitespace = false) : trim s = s := by
  have hfront : s.dropWhile Char.isWhitespace = s :=
    dropWhile_of_head fun c hc => h c (List.mem_of_mem_head? hc)
  have hback : s.reverse.dropWhile Char.isWhitespace = s.reverse :=
    dropWhile_of_head fun c hc => h c (List.mem_reverse.mp (List.mem_of_mem_head? hc))
  rw [trim, hfront, hback, List.reverse_reverse]

theorem mem_of_mem_dropWhile {l : Text} {p : Char → Bool} (h : c ∈ l.dropWhile p) : c ∈ l :=
  (List.dropWhile_sublist p).subset h

theorem mem_of_mem_trim (h : c ∈ trim s) : c ∈ s := by
  have hdrop := mem_of_mem_dropWhile (List.mem_reverse.mp h)
  exact mem_of_mem_dropWhile (List.mem_reverse.mp hdrop)

theorem visible_of_cookieValue (h : cookieValue http cookies name = some s) (hc : c ∈ s) :
    isVisibleAscii c = true := by
  simp only [cookieValue, Option.map_eq_some_iff] at h
  obtain ⟨pair, hfind, rfl⟩ := h
  obtain ⟨raw, hraw, hsplit⟩ := List.mem_filterMap.mp (List.mem_of_find?_eq_some hfind)
  obtain ⟨whole, hwhole, hpiece⟩ := List.mem_flatMap.mp hraw
  obtain ⟨v, -, hv⟩ := List.mem_filterMap.mp hwhole
  have hin : c ∈ raw := by
    rw [Text.eq_append_of_splitOnce hsplit]
    exact List.mem_append_right _ (List.mem_cons_of_mem _ (mem_of_mem_trim hc))
  obtain ⟨hvisible, rfl⟩ := (http.toStr_iff v whole).mp hv
  exact List.all_eq_true.mp hvisible c (Text.mem_of_mem_splitOn hpiece hin)

theorem stored_append {value attributes : Text}
    (hname : ∀ c ∈ name, c ≠ ';' ∧ c ≠ '=' ∧ c.isWhitespace = false)
    (hvalue : ∀ c ∈ value, c ≠ ';' ∧ c.isWhitespace = false) :
    stored ((name ++ '=' :: value) ++ ';' :: attributes) = some (name, value) := by
  have hbefore : ((name ++ '=' :: value) ++ ';' :: attributes).takeWhile (· ≠ ';') =
      name ++ '=' :: value := by
    rw [List.takeWhile_append_of_pos]
    · simp
    · intro c hc
      rcases List.mem_append.mp hc with hc | hc
      · simpa using (hname c hc).1
      · rcases List.mem_cons.mp hc with rfl | hc
        · decide
        · simpa using (hvalue c hc).1
  rw [stored, hbefore, Text.splitOnce_append fun hmem => (hname '=' hmem).2.1 rfl, Option.map_some,
    trim_of_forall fun c hc => (hname c hc).2.2, trim_of_forall fun c hc => (hvalue c hc).2]

/-- The header of a request that carries one cookie. -/
def cookieHeader (cookie : Text × Text) : HeaderValue := cookie.1 ++ '=' :: cookie.2

theorem cookieValue_cookieHeader {value : Text}
    (hname : ∀ c ∈ name, isVisibleAscii c = true ∧ c ≠ ';' ∧ c ≠ '=' ∧ c.isWhitespace = false)
    (hvalue : ∀ c ∈ value, isVisibleAscii c = true ∧ c ≠ ';' ∧ c.isWhitespace = false) :
    cookieValue http [cookieHeader (name, value)] name = some value := by
  have hvisible : (cookieHeader (name, value)).all isVisibleAscii = true := by
    simp only [cookieHeader, List.all_append, List.all_cons, Bool.and_eq_true, List.all_eq_true]
    exact ⟨fun c hc => (hname c hc).1, by decide, fun c hc => (hvalue c hc).1⟩
  have hwhole : (cookieHeader (name, value)).splitOn ';' = [cookieHeader (name, value)] := by
    have hnot : ';' ∉ cookieHeader (name, value) := by
      simp only [cookieHeader, List.mem_append, List.mem_cons, not_or]
      exact ⟨fun hc => (hname _ hc).2.1 rfl, by decide, fun hc => (hvalue _ hc).2.1 rfl⟩
    have hjoin : ([';'].intercalate [cookieHeader (name, value)]).splitOn ';' =
        [cookieHeader (name, value)] := List.splitOn_intercalate ';' (by simpa using hnot) (by simp)
    simpa using hjoin
  have hpair : Text.splitOnce '=' (cookieHeader (name, value)) = some (name, value) :=
    Text.splitOnce_append fun hc => (hname _ hc).2.2.1 rfl
  simp [cookieValue, Http.toStr_eq hvisible, hwhole, hpair,
    trim_of_forall fun c hc => (hname c hc).2.2.2, trim_of_forall fun c hc => (hvalue c hc).2.2]

/-- A request whose only header has a byte beyond ASCII carries no cookie. -/
theorem cookieValue_none (hc : c ∈ v) (hhigh : 128 ≤ c.toNat) : cookieValue http [v] name = none := by
  simp [cookieValue, Http.toStr_none hc hhigh]

end Gavel.Web
