import Gavel.Web.Prefs

/-!
# Preferences are remembered

The cookie a response sets resolves to the choices it was set for, as long as a header gives them back.
All of them are ASCII but the slug of a realm.
-/

namespace Gavel.Web

/-!
## Slugs

What a slug is made of, and that a slug which is ASCII is its own slug.
-/

section

variable {tables : CharTables} {raw s out : Text} {c : Char}

/-- No two hyphens in a row. -/
def SingleHyphens (s : Text) : Prop := s.IsChain fun a b => ¬ (a = '-' ∧ b = '-')

/-- What a slug holds: hyphens, and what letters are in lower case. -/
def FromLetters (tables : CharTables) (s : Text) : Prop :=
  ∀ d ∈ s, d = '-' ∨ ∃ c, tables.isAlphanumeric c = true ∧ d ∈ tables.toLowercase c

theorem not_alphanumeric_hyphen (tables : CharTables) : tables.isAlphanumeric '-' = false := by
  rw [tables.alphanumeric_ascii '-' (by decide)]
  decide

theorem hyphen_not_mem_lowercase (h : tables.isAlphanumeric c = true) :
    '-' ∉ tables.toLowercase c := by
  intro hmem
  have hkept := (tables.lowercase_kept c '-' h hmem (by decide)).1
  exact absurd hkept (by decide)

/-- What a letter is in lower case, as far as it is ASCII, is a letter in lower case. -/
theorem letter_of_lowercase {d : Char} (h : tables.isAlphanumeric c = true)
    (hd : d ∈ tables.toLowercase c) (hascii : isAscii d = true) :
    tables.isAlphanumeric d = true ∧ tables.toLowercase d = [d] := by
  obtain ⟨halnum, hlower⟩ := tables.lowercase_kept c d h hd hascii
  rw [tables.alphanumeric_ascii d hascii, tables.lowercase_ascii d hascii, hlower]
  exact ⟨halnum, rfl⟩

theorem singleHyphens_of_not_mem (h : '-' ∉ s) : SingleHyphens s := by
  induction s with
  | nil => exact .nil
  | cons a s ih =>
      refine (ih (List.not_mem_of_not_mem_cons h)).cons fun b _ hab => ?_
      exact h (hab.1 ▸ List.mem_cons_self)

theorem slugStep_singleHyphens (h : SingleHyphens out) (c : Char) :
    SingleHyphens (slugStep tables out c) := by
  unfold slugStep
  split
  · rename_i hc
    have hnot := hyphen_not_mem_lowercase hc
    refine List.IsChain.append h (singleHyphens_of_not_mem hnot) fun a _ b hb hab => ?_
    exact hnot (hab.2 ▸ List.mem_of_mem_head? hb)
  · split
    · exact h
    · rename_i hlast
      refine List.IsChain.append h (.singleton _) fun a ha b _ hab => ?_
      exact hlast (hab.1 ▸ ha)

theorem slugStep_fromLetters (h : FromLetters tables out) (c : Char) :
    FromLetters tables (slugStep tables out c) := by
  unfold slugStep
  split
  · rename_i hc
    intro d hd
    rcases List.mem_append.mp hd with hd | hd
    · exact h d hd
    · exact .inr ⟨c, hc, hd⟩
  · split
    · exact h
    · intro d hd
      rcases List.mem_append.mp hd with hd | hd
      · exact h d hd
      · exact .inl (List.mem_singleton.mp hd)

theorem foldl_slugStep (h : SingleHyphens out ∧ FromLetters tables out) (raw : Text) :
    SingleHyphens (raw.foldl (slugStep tables) out) ∧
      FromLetters tables (raw.foldl (slugStep tables) out) := by
  induction raw generalizing out with
  | nil => exact h
  | cons c raw ih => exact ih ⟨slugStep_singleHyphens h.1 c, slugStep_fromLetters h.2 c⟩

/-- A slug is hyphens and lower case letters, with no hyphen at its ends or after another. -/
structure IsSlug (tables : CharTables) (s : Text) : Prop where
  nonempty : s ≠ []
  head : s.head? ≠ some '-'
  last : s.getLast? ≠ some '-'
  single : SingleHyphens s
  letters : FromLetters tables s

theorem isSlug_of_slug (h : slug tables raw = some s) : IsSlug tables s := by
  have hempty : SingleHyphens [] ∧ FromLetters tables [] := ⟨.nil, fun d hd => absurd hd (by simp)⟩
  obtain ⟨hsingle, hletters⟩ := foldl_slugStep hempty raw
  simp only [slug] at h
  split at h
  · cases h
  · rename_i hne
    cases h
    have hwithin := Text.trimMatches_within (· = '-') (raw.foldl (slugStep tables) [])
    exact {
      nonempty := by simpa using hne
      head := fun hc => by simpa using Text.head_trimMatches hc
      last := fun hc => by simpa using Text.last_trimMatches hc
      single := hsingle.infix hwithin
      letters := fun d hd => hletters d (hwithin.subset hd) }

/-- Steps over letters in lower case and single hyphens change nothing. -/
theorem foldl_slugStep_self (hletters : FromLetters tables s) (hascii : ∀ d ∈ s, isAscii d = true)
    (hsingle : SingleHyphens (out ++ s)) : s.foldl (slugStep tables) out = out ++ s := by
  induction s generalizing out with
  | nil => simp
  | cons d s ih =>
      have hsplit : out ++ d :: s = (out ++ [d]) ++ s := by simp
      have hstep : slugStep tables out d = out ++ [d] := by
        rcases hletters d (by simp) with rfl | ⟨c, hc, hd⟩
        · have hlast : out.getLast? ≠ some '-' := fun hlast =>
            (List.isChain_append.mp hsingle).2.2 '-' hlast '-' rfl ⟨rfl, rfl⟩
          simp [slugStep, not_alphanumeric_hyphen, hlast]
        · obtain ⟨halnum, hlower⟩ := letter_of_lowercase hc hd (hascii d (by simp))
          simp [slugStep, halnum, hlower]
      rw [List.foldl_cons, hstep, hsplit]
      exact ih (fun e he => hletters e (by simp [he])) (fun e he => hascii e (by simp [he]))
        (hsplit ▸ hsingle)

theorem IsSlug.slug_self (h : IsSlug tables s) (hascii : ∀ d ∈ s, isAscii d = true) :
    slug tables s = some s := by
  have hfold : s.foldl (slugStep tables) [] = s := foldl_slugStep_self h.letters hascii h.single
  have hhyphen {d : Char} (hd : d ≠ '-') : decide (d = '-') = false := by simp [hd]
  have htrim : Text.trimMatches (· = '-') s = s :=
    Text.trimMatches_self (fun d hd => hhyphen fun heq => h.head (heq ▸ hd))
      (fun d hd => hhyphen fun heq => h.last (heq ▸ hd))
  simp only [slug, hfold, htrim]
  rw [if_neg (by simpa using h.nonempty)]

theorem slugStep_ascii (hout : ∀ d ∈ out, isAscii d = true) (hc : isAscii c = true) :
    ∀ d ∈ slugStep tables out c, isAscii d = true := by
  unfold slugStep
  split
  · intro d hd
    rcases List.mem_append.mp hd with hd | hd
    · exact hout d hd
    · rw [tables.lowercase_ascii c hc, List.mem_singleton] at hd
      exact hd ▸ isAscii_toLower hc
  · split
    · exact hout
    · intro d hd
      rcases List.mem_append.mp hd with hd | hd
      · exact hout d hd
      · exact List.mem_singleton.mp hd ▸ by decide

theorem foldl_slugStep_ascii (hout : ∀ d ∈ out, isAscii d = true)
    (hraw : ∀ d ∈ raw, isAscii d = true) :
    ∀ d ∈ raw.foldl (slugStep tables) out, isAscii d = true := by
  induction raw generalizing out with
  | nil => exact hout
  | cons c raw ih =>
      exact ih (slugStep_ascii hout (hraw c (by simp))) fun d hd => hraw d (by simp [hd])

theorem isAscii_of_slug (hraw : ∀ d ∈ raw, isAscii d = true) (h : slug tables raw = some s) :
    ∀ d ∈ s, isAscii d = true := by
  have hfold : ∀ d ∈ raw.foldl (slugStep tables) [], isAscii d = true :=
    foldl_slugStep_ascii (by simp) hraw
  simp only [slug] at h
  split at h
  · cases h
  · cases h
    exact fun d hd => hfold d ((Text.trimMatches_within (· = '-') _).subset hd)

end

open Gavel.Market (Region)

variable {http : Http} {tables : CharTables} {fromStr : Text → Option (List (Text × Text))}
  {collected : List Region} {s : Text} {c : Char}

/-! ## The cookie -/

/-- A character that stands in a field of the cookie as it is. -/
def FieldChar (c : Char) : Prop :=
  isVisibleAscii c = true ∧ c ≠ ';' ∧ c.isWhitespace = false ∧ c ≠ '|'

instance decidableFieldChar (c : Char) : Decidable (FieldChar c) :=
  inferInstanceAs (Decidable (_ ∧ _))

theorem fieldChar_region (region : Region) : ∀ c ∈ region.asStr, FieldChar c :=
  Text.forall_mem (by cases region <;> decide)

theorem fieldChar_code (locale : Locale) : ∀ c ∈ locale.code, FieldChar c :=
  Text.forall_mem (by cases locale <;> decide)

theorem fieldChar_alphanum (h : c.isAlphanum = true) (hascii : isAscii c = true) : FieldChar c :=
  forall_ascii (P := fun c => c.isAlphanum = true → FieldChar c) (by decide) hascii h

theorem fieldChar_decimal (n : Nat) : ∀ c ∈ Text.decimal n, FieldChar c := by
  intro c hc
  obtain ⟨d, hd, rfl⟩ := Text.exists_digit (Text.isDigit_of_mem_decimal hc)
  have hall : ∀ i : Fin 10, FieldChar i.val.digitChar := by decide
  exact hall ⟨d, hd⟩

theorem fieldChar_slug (h : IsSlug tables s) (hc : c ∈ s) (hascii : isAscii c = true) : FieldChar c := by
  rcases h.letters c hc with rfl | ⟨d, hd, hmem⟩
  · decide
  · exact fieldChar_alphanum (tables.lowercase_kept d c hd hmem hascii).1 hascii

/-- A realm choice a header gives back: all realms, or an ASCII slug. -/
def Writable (tables : CharTables) (realm : RealmChoice) : Prop :=
  ∀ s ∈ realm, IsSlug tables s ∧ ∀ c ∈ s, isAscii c = true

theorem fieldChar_realm {realm : RealmChoice} (h : Writable tables realm) :
    ∀ c ∈ realm.getD [], FieldChar c := by
  cases realm with
  | none => simp
  | some s => exact fun c hc => fieldChar_slug (h s rfl).1 hc ((h s rfl).2 c hc)

theorem slug_getD {realm : RealmChoice} (h : Writable tables realm) :
    slug tables (realm.getD []) = realm := by
  cases realm with
  | none => rfl
  | some s => exact (h s rfl).1.slug_self (h s rfl).2

theorem parse_asStr (region : Region) : Region.parse region.asStr = some region := by
  cases region <;> decide

theorem parse_code (locale : Locale) : Locale.parse locale.code = some locale := by
  cases locale <;> decide

/-- A window of the menu. -/
def OnMenu (days : Nat) : Prop := days ∈ baselineChoices.map Prod.fst

theorem parseBaseline_decimal {days : Nat} (h : OnMenu days) :
    parseBaseline (Text.decimal days) = some days := by
  have hall : ∀ days ∈ baselineChoices.map Prod.fst, parseBaseline (Text.decimal days) = some days := by
    decide
  exact hall days h

theorem onMenu_of_parseBaseline {raw : Text} {days : Nat} (h : parseBaseline raw = some days) :
    OnMenu days := by
  obtain ⟨-, hany⟩ := Option.filter_eq_some_iff.mp h
  simpa [OnMenu] using hany

namespace MarketPrefs

variable {prefs : MarketPrefs} {realm : RealmChoice}

theorem cookieValue_eq (prefs : MarketPrefs) (realm : RealmChoice) : prefs.cookieValue realm =
    prefs.region.asStr ++ '|' :: (prefs.locale.code ++ '|' ::
      (Text.decimal prefs.baselineDays ++ '|' :: realm.getD [])) := by
  simp [cookieValue, List.intercalate]

theorem parseCookie_cookieValue (hmenu : OnMenu prefs.baselineDays) (hrealm : Writable tables realm) :
    parseCookie tables (prefs.cookieValue realm) =
      ⟨some prefs.region, some prefs.locale, some prefs.baselineDays, some realm⟩ := by
  have hsplit : (prefs.cookieValue realm).splitOn '|' =
      [prefs.region.asStr, prefs.locale.code, Text.decimal prefs.baselineDays, realm.getD []] := by
    apply List.splitOn_intercalate
    · simp only [List.mem_cons, List.not_mem_nil, or_false]
      rintro field (rfl | rfl | rfl | rfl) hmem
      · exact (fieldChar_region _ _ hmem).2.2.2 rfl
      · exact (fieldChar_code _ _ hmem).2.2.2 rfl
      · exact (fieldChar_decimal _ _ hmem).2.2.2 rfl
      · exact (fieldChar_realm hrealm _ hmem).2.2.2 rfl
    · simp
  simp [parseCookie, hsplit, parse_asStr, parse_code, parseBaseline_decimal hmenu, slug_getD hrealm]

/-- What stands in the value is a character of its own fields, or of the realm. -/
theorem mem_cookieValue (h : c ∈ prefs.cookieValue realm) : isVisibleAscii c = true ∧ c ≠ ';' ∧
    c.isWhitespace = false ∨ ∃ s ∈ realm, c ∈ s := by
  have hplain {field : Text} (hfield : ∀ c ∈ field, FieldChar c) (hc : c ∈ field) :
      isVisibleAscii c = true ∧ c ≠ ';' ∧ c.isWhitespace = false :=
    ⟨(hfield c hc).1, (hfield c hc).2.1, (hfield c hc).2.2.1⟩
  rw [cookieValue_eq] at h
  simp only [List.mem_append, List.mem_cons] at h
  rcases h with hc | rfl | hc | rfl | hc | rfl | hc
  · exact .inl (hplain (fieldChar_region _) hc)
  · exact .inl (by decide)
  · exact .inl (hplain (fieldChar_code _) hc)
  · exact .inl (by decide)
  · exact .inl (hplain (fieldChar_decimal _) hc)
  · exact .inl (by decide)
  · cases realm with
    | none => exact absurd hc List.not_mem_nil
    | some s => exact .inr ⟨s, rfl, hc⟩

/-- The value is one a header gives back, if the realm is. -/
theorem plain_cookieValue (prefs : MarketPrefs) (hrealm : Writable tables realm) :
    ∀ c ∈ prefs.cookieValue realm, isVisibleAscii c = true ∧ c ≠ ';' ∧ c.isWhitespace = false := by
  intro c hc
  rcases mem_cookieValue hc with hplain | ⟨s, hs, hmem⟩
  · exact hplain
  · have hfield := fieldChar_slug (hrealm s hs).1 hmem ((hrealm s hs).2 c hmem)
    exact ⟨hfield.1, hfield.2.1, hfield.2.2.1⟩

/-- The bytes of a value with any slug neither end it nor are white space. -/
theorem plain_octets (prefs : MarketPrefs) (hslug : IsSlug tables s) :
    ∀ c ∈ octets (prefs.cookieValue (some s)), c ≠ ';' ∧ c.isWhitespace = false := by
  intro c hc
  rcases mem_octets hc with ⟨hmem, hascii⟩ | hhigh
  · rcases mem_cookieValue hmem with hplain | ⟨s', hs', hin⟩
    · exact hplain.2
    · cases hs'
      have hfield := fieldChar_slug hslug hin hascii
      exact ⟨hfield.2.1, hfield.2.2.1⟩
  · have hne (d : Char) (hd : d.toNat < 128) : c ≠ d := by
      rintro rfl
      omega
    refine ⟨hne ';' (by decide), ?_⟩
    simp [Char.isWhitespace, hne ' ' (by decide), hne '\t' (by decide), hne '\r' (by decide),
      hne '\n' (by decide)]

end MarketPrefs

/-! ## What a request resolves to -/

/-- The last realm a query names. -/
def realmNamed (fromStr : Text → Option (List (Text × Text))) (query : Option Text) : Option Text :=
  ((query.bind fromStr).bind fun pairs =>
    (pairs.filter fun pair => pair.1 = "realm".toList).getLast?).map Prod.snd

theorem note_realm (choice : Choice) (pair : Text × Text) : (choice.note tables pair).realm =
    if pair.1 = "realm".toList then some (slug tables pair.2) else choice.realm := by
  unfold Choice.note
  split
  · rename_i h
    rw [h, if_neg (by decide)]
  · split
    · rename_i h
      rw [h, if_neg (by decide)]
    · split
      · rename_i h
        rw [h, if_neg (by decide)]
      · split <;> rfl

theorem foldl_note_realm (choice : Choice) (pairs : List (Text × Text)) :
    (pairs.foldl (Choice.note tables) choice).realm =
      ((pairs.filter fun pair => pair.1 = "realm".toList).getLast?.map
        fun pair => slug tables pair.2).or choice.realm := by
  induction pairs generalizing choice with
  | nil => rfl
  | cons pair pairs ih =>
      rw [List.foldl_cons, ih, note_realm]
      by_cases h : pair.1 = "realm".toList
      · rw [if_pos h, List.filter_cons, if_pos (decide_eq_true h), List.getLast?_cons]
        cases (pairs.filter fun pair => pair.1 = "realm".toList).getLast? <;> rfl
      · rw [if_neg h, List.filter_cons, if_neg fun hd => h (of_decide_eq_true hd)]

theorem note_baseline {choice : Choice} (h : ∀ days ∈ choice.baseline, OnMenu days)
    (pair : Text × Text) : ∀ days ∈ (choice.note tables pair).baseline, OnMenu days := by
  unfold Choice.note
  split
  · exact h
  · split
    · exact h
    · split
      · exact fun days hdays => onMenu_of_parseBaseline hdays
      · split <;> exact h

theorem foldl_note_baseline {choice : Choice} (h : ∀ days ∈ choice.baseline, OnMenu days)
    (pairs : List (Text × Text)) :
    ∀ days ∈ (pairs.foldl (Choice.note tables) choice).baseline, OnMenu days := by
  induction pairs generalizing choice with
  | nil => exact h
  | cons pair pairs ih => exact ih (note_baseline h pair)

/-- What a query chooses: windows of the menu, and the slug of the last realm it names. -/
theorem fromQuery_spec {query : Option Text} {choice : Choice}
    (h : fromQuery tables fromStr query = some choice) :
    (∀ days ∈ choice.baseline, OnMenu days) ∧
      choice.realm = (realmNamed fromStr query).map (slug tables) := by
  cases query with
  | none =>
      cases h
      exact ⟨fun days hdays => absurd hdays (by simp [Choice.empty]), rfl⟩
  | some query =>
      simp only [fromQuery, Option.ite_none_right_eq_some, Option.map_eq_some_iff] at h
      obtain ⟨-, pairs, hpairs, rfl⟩ := h
      refine ⟨foldl_note_baseline (fun days hdays => absurd hdays (by simp [Choice.empty])) pairs, ?_⟩
      rw [foldl_note_realm, realmNamed, Option.bind_some, hpairs, Option.bind_some, Option.map_map]
      exact Option.or_none

/-- The choices of the cookie a request carries. -/
def cookieChoice (http : Http) (tables : CharTables) (request : PrefsRequest) : Choice :=
  ((cookieValue http request.cookies marketCookie).map (MarketPrefs.parseCookie tables)).getD .empty

/-- What a cookie chooses: windows of the menu, and a realm a header gives back. -/
theorem cookieChoice_spec (http : Http) (tables : CharTables) (request : PrefsRequest) :
    (∀ days ∈ (cookieChoice http tables request).baseline, OnMenu days) ∧
      Writable tables (cookieChoice http tables request).realm.join := by
  unfold cookieChoice
  cases hcookie : cookieValue http request.cookies marketCookie with
  | none => exact ⟨by simp [Choice.empty], by simp [Choice.empty, Writable]⟩
  | some raw =>
      simp only [Option.map_some, Option.getD_some, MarketPrefs.parseCookie]
      constructor
      · intro days hdays
        obtain ⟨field, -, hparse⟩ := Option.bind_eq_some_iff.mp hdays
        exact onMenu_of_parseBaseline hparse
      · intro s hs
        obtain ⟨field, hfield, hslug⟩ : ∃ field ∈ raw.splitOn '|', slug tables field = some s := by
          rw [Option.mem_def, Option.join_eq_some_iff, Option.map_eq_some_iff] at hs
          obtain ⟨field, hfield, hslug⟩ := hs
          exact ⟨field, List.mem_of_getElem? hfield, hslug⟩
        refine ⟨isSlug_of_slug hslug, isAscii_of_slug (fun d hd => ?_) hslug⟩
        exact isAscii_of_visible (visible_of_cookieValue hcookie (Text.mem_of_mem_splitOn hfield hd))

theorem or_baseline {a b : Option Nat} (ha : ∀ days ∈ a, OnMenu days) (hb : ∀ days ∈ b, OnMenu days) :
    OnMenu ((a.or b).getD defaultBaselineDays) := by
  cases a with
  | some days => exact ha days rfl
  | none =>
      cases b with
      | some days => exact hb days rfl
      | none => simp [OnMenu, baselineChoices, defaultBaselineDays]

/-- The region is one that is collected, or the default of an instance that collects none. -/
theorem resolve_region (http : Http) (tables : CharTables) (collected : List Region) (query cookie : Choice)
    (header : Option HeaderValue) :
    (resolve http tables collected query cookie header).1.region ∈ collected ∨
      collected = [] ∧ (resolve http tables collected query cookie header).1.region = .eu := by
  have hor {a b : Option Region} {P : Region → Prop} (ha : ∀ r ∈ a, P r) (hb : ∀ r ∈ b, P r) :
      ∀ r ∈ a.or b, P r := by
    cases a with
    | none => exact hb
    | some r => exact ha
  have hallowed (choice : Option Region) :
      ∀ r ∈ choice.filter (fun r => r ∈ collected), r ∈ collected := by
    intro r hr
    simpa using (Option.filter_eq_some_iff.mp hr).2
  have hchosen := hor (hor (hallowed query.region) (hallowed cookie.region))
    fun r hr => List.mem_of_mem_head? (l := collected) hr
  simp only [resolve]
  cases hregion : ((query.region.filter fun r => r ∈ collected).or
      (cookie.region.filter fun r => r ∈ collected)).or collected.head? with
  | some r => exact .inl (hchosen r hregion)
  | none =>
      right
      refine ⟨?_, rfl⟩
      simpa using (Option.or_eq_none_iff.mp hregion).2

/-- Without a query, a cookie that chose everything decides it. -/
theorem resolve_cookie {prefs : MarketPrefs} {realm : RealmChoice}
    (hregion : prefs.region ∈ collected ∨ collected = [] ∧ prefs.region = .eu)
    (header : Option HeaderValue) :
    resolve http tables collected .empty
        ⟨some prefs.region, some prefs.locale, some prefs.baselineDays, some realm⟩ header =
      (prefs, realm) := by
  rcases hregion with hin | ⟨rfl, heu⟩
  · have hkept : (some prefs.region).filter (fun r => r ∈ collected) = some prefs.region := by
      rw [Option.filter_some, if_pos (by simpa using hin)]
    simp [resolve, Choice.empty, hkept]
  · simp [resolve, Choice.empty, ← heu]

/-! ## Remembering -/

/-- The response sets the market cookie, and a request that carries only that cookie resolves to the
same choices. -/
def Remembered (http : Http) (tables : CharTables) (fromStr : Text → Option (List (Text × Text)))
    (collected : List Region) (first : PrefsRequest) : Prop :=
  ∃ resolved, prefsLayer http tables fromStr collected first = .ok resolved ∧
    ∃ v ∈ resolved.setCookie, ∃ value, stored v = some (marketCookie, value) ∧
      ∀ second : PrefsRequest, second.query = none →
        second.cookies = [cookieHeader (marketCookie, value)] →
          ∃ next, prefsLayer http tables fromStr collected second = .ok next ∧
            next.prefs = resolved.prefs ∧ next.realm = resolved.realm

theorem marketCookie_plain : ∀ c ∈ marketCookie,
    isVisibleAscii c = true ∧ c ≠ ';' ∧ c ≠ '=' ∧ c.isWhitespace = false :=
  Text.forall_mem (by decide)

/-- The cookie's name and value come first, then its attributes. -/
theorem marketSetCookie_eq (prefs : MarketPrefs) (realm : RealmChoice) : ∃ attributes,
    marketSetCookie prefs realm =
      (marketCookie ++ '=' :: prefs.cookieValue realm) ++ ';' :: attributes ∧
    attributes.all isVisibleAscii = true := by
  have hlead : "; Path=/; SameSite=Lax; Max-Age=".toList =
      ';' :: " Path=/; SameSite=Lax; Max-Age=".toList := by decide
  refine ⟨" Path=/; SameSite=Lax; Max-Age=".toList ++ Text.decimal cookieMaxAge, ?_, by decide⟩
  rw [marketSetCookie, hlead]
  simp only [List.append_assoc, List.cons_append]

/-- The realm of a request is one a header gives back, unless the query names another. -/
theorem writable_iff {first : PrefsRequest} {query : Choice}
    (h : fromQuery tables fromStr first.query = some query) :
    Writable tables (query.realm.or (cookieChoice http tables first).realm).join ↔
      ∀ name ∈ realmNamed fromStr first.query, ∀ s ∈ slug tables name, ∀ c ∈ s,
        isAscii c = true := by
  rw [(fromQuery_spec h).2]
  cases realmNamed fromStr first.query with
  | none => simpa using (cookieChoice_spec http tables first).2
  | some name =>
      simp only [Option.map_some, Option.some_or, Option.join_some, Option.mem_some_iff,
        forall_eq']
      constructor
      · exact fun hw s hs => (hw s hs).2
      · exact fun hascii s hs => ⟨isSlug_of_slug hs, hascii s hs⟩

theorem prefsLayer_eq (http : Http) (collected : List Region) {request : PrefsRequest} {query : Choice}
    (haccepted : fromQuery tables fromStr request.query = some query) :
    prefsLayer http tables fromStr collected request =
      let resolved := resolve http tables collected query (cookieChoice http tables request)
        request.acceptLanguage
      .ok ⟨resolved.1, resolved.2, if query ≠ .empty then
        http.fromStr (marketSetCookie resolved.1 resolved.2) else none⟩ := by
  simp only [prefsLayer, haccepted]
  rfl

/-- The bytes a browser stores of a value beyond ASCII are not read in the request they come back with. -/
theorem cookieValue_of_not_ascii {prefs : MarketPrefs} {v : HeaderValue} {value : Text}
    (hslug : IsSlug tables s) (hc : c ∈ s) (hascii : isAscii c = false)
    (hset : http.fromStr (marketSetCookie prefs (some s)) = some v)
    (hstored : stored v = some (marketCookie, value)) :
    cookieValue http [cookieHeader (marketCookie, value)] marketCookie = none := by
  obtain ⟨attributes, heq, -⟩ := marketSetCookie_eq prefs (some s)
  have hname : octets marketCookie = marketCookie :=
    octets_of_ascii fun d hd => isAscii_of_visible (marketCookie_plain d hd).1
  have hv : v = (marketCookie ++ '=' :: octets (prefs.cookieValue (some s))) ++ ';' :: octets attributes := by
    rw [http.fromStr_octets _ v hset, heq, octets_ascii_append (by decide), octets_ascii_append (by decide),
      hname]
  have hkept : stored v = some (marketCookie, octets (prefs.cookieValue (some s))) := by
    rw [hv]
    exact stored_append (fun d hd => (marketCookie_plain d hd).2) (prefs.plain_octets hslug)
  rw [hstored, Option.some.injEq, Prod.mk.injEq] at hkept
  obtain ⟨o, ho, hhigh⟩ : ∃ o ∈ octets (prefs.cookieValue (some s)), 128 ≤ o.toNat := by
    refine exists_high_octet (c := c) ?_ hascii
    rw [MarketPrefs.cookieValue_eq]
    simp [hc]
  refine cookieValue_none (c := o) ?_ hhigh
  rw [cookieHeader, hkept.2]
  exact List.mem_append_right _ (List.mem_cons_of_mem _ ho)

/-- A value with a realm a header gives back is set, stored and read back. -/
theorem marketSetCookie_stored {prefs : MarketPrefs} {realm : RealmChoice}
    (hrealm : Writable tables realm) :
    ∃ v, http.fromStr (marketSetCookie prefs realm) = some v ∧
      stored v = some (marketCookie, prefs.cookieValue realm) ∧
      cookieValue http [cookieHeader (marketCookie, prefs.cookieValue realm)] marketCookie =
        some (prefs.cookieValue realm) := by
  obtain ⟨attributes, heq, hattributes⟩ := marketSetCookie_eq prefs realm
  have hname := marketCookie_plain
  have hvalue := prefs.plain_cookieValue hrealm
  have hvisible : (marketSetCookie prefs realm).all isVisibleAscii = true := by
    rw [heq]
    simp only [List.all_append, List.all_cons, hattributes, Bool.and_true, Bool.and_eq_true]
    exact ⟨⟨List.all_eq_true.mpr fun c hc => (hname c hc).1, by decide,
      List.all_eq_true.mpr fun c hc => (hvalue c hc).1⟩, by decide⟩
  refine ⟨_, Http.fromStr_eq hvisible, ?_, cookieValue_cookieHeader hname hvalue⟩
  rw [heq]
  exact stored_append (fun c hc => (hname c hc).2) fun c hc => (hvalue c hc).2

/-- A realm that is remembered is ASCII: another is not in the choices of the next request. -/
theorem isAscii_of_remembered {first : PrefsRequest} {query : Choice}
    (haccepted : fromQuery tables fromStr first.query = some query) (hchoice : query ≠ .empty)
    (hrealm : query.realm = some (some s)) (h : Remembered http tables fromStr collected first) :
    ∀ c ∈ s, isAscii c = true := by
  intro c hc
  by_contra hascii
  obtain ⟨resolved, hresolved, v, hv, value, hstored, hnext⟩ := h
  rw [prefsLayer_eq http collected haccepted] at hresolved
  cases hresolved
  have hresolve : (resolve http tables collected query (cookieChoice http tables first)
      first.acceptLanguage).2 = some s := by simp [resolve, hrealm]
  have hslug : IsSlug tables s := by
    rw [(fromQuery_spec haccepted).2, Option.map_eq_some_iff] at hrealm
    obtain ⟨name, -, hname⟩ := hrealm
    exact isSlug_of_slug hname
  simp only [if_pos hchoice, Option.mem_def, hresolve] at hv
  have hnone := cookieValue_of_not_ascii hslug hc (Bool.eq_false_iff.mpr hascii) hv hstored
  obtain ⟨next, hlayer, -, hkept⟩ := hnext ⟨none, [cookieHeader (marketCookie, value)], none⟩ rfl rfl
  have hempty : cookieChoice http tables ⟨none, [cookieHeader (marketCookie, value)], none⟩ = .empty := by
    rw [cookieChoice, hnone]
    rfl
  have hquery : fromQuery tables fromStr none = some .empty := rfl
  rw [prefsLayer_eq http collected hquery, hempty] at hlayer
  cases hlayer
  rw [hresolve] at hkept
  cases hkept

/-- A choice is remembered exactly if the last realm the query names, if it names one, has an ASCII
slug. -/
theorem remembered_iff {first : PrefsRequest} {query : Choice}
    (haccepted : fromQuery tables fromStr first.query = some query) (hchoice : query ≠ .empty) :
    Remembered http tables fromStr collected first ↔
      ∀ name ∈ realmNamed fromStr first.query, ∀ s ∈ slug tables name, ∀ c ∈ s,
        isAscii c = true := by
  constructor
  · intro hremembered name hname s hs
    have hrealm : query.realm = some (some s) := by
      rw [(fromQuery_spec haccepted).2, hname, ← hs]
      rfl
    exact isAscii_of_remembered haccepted hchoice hrealm hremembered
  · intro hascii
    have hlayer := prefsLayer_eq http collected haccepted
    simp only [if_pos hchoice] at hlayer
    have hwritable : Writable tables (resolve http tables collected query (cookieChoice http tables first)
        first.acceptLanguage).2 := (writable_iff haccepted).mpr hascii
    have hmenu : OnMenu (resolve http tables collected query (cookieChoice http tables first)
        first.acceptLanguage).1.baselineDays :=
      or_baseline (fromQuery_spec haccepted).1 (cookieChoice_spec http tables first).1
    have hregion := resolve_region http tables collected query (cookieChoice http tables first)
      first.acceptLanguage
    generalize resolve http tables collected query (cookieChoice http tables first) first.acceptLanguage =
      resolved at hlayer hwritable hmenu hregion
    obtain ⟨prefs, realm⟩ := resolved
    obtain ⟨v, hset, hstored, hread⟩ := marketSetCookie_stored hwritable
    refine ⟨_, hlayer, v, hset, prefs.cookieValue realm, hstored, fun second hquery hcookies => ?_⟩
    have hnone : fromQuery tables fromStr second.query = some .empty := by
      rw [hquery]
      rfl
    have hcookie : cookieChoice http tables second =
        ⟨some prefs.region, some prefs.locale, some prefs.baselineDays, some realm⟩ := by
      rw [cookieChoice, hcookies, hread, Option.map_some, Option.getD_some,
        MarketPrefs.parseCookie_cookieValue hmenu hwritable]
    refine ⟨_, prefsLayer_eq http collected hnone, ?_⟩
    rw [hcookie, resolve_cookie hregion]
    exact ⟨rfl, rfl⟩

/-! ## Two realms -/

theorem toLower_of_not_ascii (h : isAscii c = false) : c.toLower = c := by
  have hge : 128 ≤ c.toNat := Nat.le_of_not_lt (of_decide_eq_false h)
  unfold Char.toLower
  split
  · rename_i hupper
    have hle : c.toNat ≤ 90 := UInt32.le_iff_toNat_le.mp hupper.2
    omega
  · rfl

/-- The tables on ASCII and the ideographs, which have no case. -/
def ideographTables : CharTables where
  isAlphanumeric c := c.isAlphanum || (0x4e00 ≤ c.toNat && c.toNat ≤ 0x9fff)
  toLowercase c := [c.toLower]
  alphanumeric_ascii c hc := by
    have hlt : c.toNat < 128 := of_decide_eq_true hc
    have hnot : decide (0x4e00 ≤ c.toNat) = false := by
      simp only [decide_eq_false_iff_not]
      omega
    rw [hnot, Bool.false_and, Bool.or_false]
  lowercase_ascii _ _ := rfl
  lowercase_kept c d halnum hd hascii := by
    rw [List.mem_singleton] at hd
    cases hc : isAscii c with
    | true =>
        have hlt : c.toNat < 128 := of_decide_eq_true hc
        have hplain : c.isAlphanum = true := by
          simp only [Bool.or_eq_true, Bool.and_eq_true, decide_eq_true_eq] at halnum
          rcases halnum with h | h
          · exact h
          · omega
        rw [hd]
        exact forall_ascii (P := fun c => c.isAlphanum = true →
          c.toLower.isAlphanum = true ∧ c.toLower.toLower = c.toLower) (by decide) hc hplain
    | false =>
        rw [hd, toLower_of_not_ascii hc, hc] at hascii
        cases hascii

/-- A realm named in ASCII is remembered. -/
theorem tarren_mill_is_remembered :
    Remembered opaqueOctets ideographTables formPairs [.eu, .us]
      ⟨some "region=us&realm=Tarren+Mill".toList, [], none⟩ := by
  have haccepted : fromQuery ideographTables formPairs (some "region=us&realm=Tarren+Mill".toList) =
      some ⟨some .us, none, none, some (some "tarren-mill".toList)⟩ := by decide
  have hnamed : realmNamed formPairs (some "region=us&realm=Tarren+Mill".toList) =
      some "Tarren Mill".toList := by decide
  have hslug : slug ideographTables "Tarren Mill".toList = some "tarren-mill".toList := by
    decide
  refine (remembered_iff haccepted (by decide)).mpr fun name hname s hs => ?_
  rw [hnamed] at hname
  cases hname
  rw [hslug] at hs
  cases hs
  exact Text.forall_mem (by decide)

/-- The query of a realm in ideographs is accepted, and its cookie is set in bytes the next request is not
read with. Nor is it remembered where such a cookie cannot be set. -/
theorem ideograph_realm_is_forgotten :
    let first : PrefsRequest := ⟨some "realm=%E9%9B%B7%E6%96%87%E5%BE%B7%E6%96%AF".toList, [], none⟩
    (∃ query, fromQuery ideographTables formPairs first.query = some query ∧ query ≠ .empty) ∧
      (∃ resolved, prefsLayer opaqueOctets ideographTables formPairs [.eu, .us] first = .ok resolved ∧
        resolved.setCookie.isSome = true ∧ resolved.realm = some "雷文德斯".toList) ∧
      ∀ http, ¬ Remembered http ideographTables formPairs [.eu, .us] first := by
  intro first
  have haccepted : fromQuery ideographTables formPairs first.query =
      some ⟨none, none, none, some (some "雷文德斯".toList)⟩ := by decide
  refine ⟨⟨_, haccepted, by decide⟩, ⟨_, prefsLayer_eq _ _ haccepted, by decide, rfl⟩, fun http hremembered => ?_⟩
  have hascii := isAscii_of_remembered haccepted (by decide) rfl hremembered '雷' (by decide)
  exact absurd hascii (by decide)

end Gavel.Web
