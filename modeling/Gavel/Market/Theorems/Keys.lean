import Gavel.Market.Catalog

/-!
# Keys as text

A market key and a window key are stored as text and read back. Every key that the constructors make
is read back. A text that is accepted is the stored form of its key unless its region is in capitals or
a number in it has a sign or a leading zero, and a window is read back unless its id ends in a `d`.
-/

namespace Gavel.Market

open Text (decimal parseNat Plain)

variable {s t : Text} {r : Region} {k : MarketKey}

/-! ## Regions and tracks -/

namespace Region

theorem lower_asStr (r : Region) : r.asStr.map Char.toLower = r.asStr := by
  cases r <;> rfl

theorem parse_asStr (r : Region) : parse r.asStr = some r := by
  cases r <;> rfl

theorem lower_of_parse (h : parse s = some r) : s.map Char.toLower = r.asStr := by
  have heq : r.asStr.map Char.toLower = s.map Char.toLower := by simpa using List.find?_some h
  rw [← heq, lower_asStr]

theorem toLower_of_not_isUpper {c : Char} (h : c.isUpper = false) : c.toLower = c :=
  dif_neg (of_decide_eq_false h)

/-- A region's text is the stored one exactly when none of it is in capitals. -/
theorem eq_asStr_iff (h : parse s = some r) : s = r.asStr ↔ ∀ c ∈ s, c.isUpper = false := by
  constructor
  · rintro rfl
    cases r <;> simp [asStr]
  · intro hlow
    have hmap : s.map Char.toLower = s.map id :=
      List.map_congr_left fun c hc => toLower_of_not_isUpper (hlow c hc)
    rw [← lower_of_parse h, hmap, List.map_id]

end Region

namespace Track

theorem eq_slug {t : Track} (h : fromSlug s = some t) : t.slug = s := by
  simpa using List.find?_some h

end Track

/-! ## Market keys -/

namespace MarketKey

/-- The keys that the constructors make, of identifiers and ranks that their types hold. -/
inductive Built : MarketKey → Prop
  | commodity (region : Region) {item rank : Nat} (hitem : item ≤ maxU32) (hrank : rank ≤ maxU8) :
      Built (ofCommodity region item rank)
  | recipe (region : Region) {realm item : Nat} (hrealm : realm ≤ maxU32) (hitem : item ≤ maxU32) :
      Built (.recipe region realm item)
  | boe (region : Region) {realm item : Nat} (hrealm : realm ≤ maxU32) (hitem : item ≤ maxU32)
      (track : Option Track) : Built (.boe region realm item track)

/-- How a track is written in a key. -/
def trackText (track : Option Track) : Text :=
  match track with
  | none => ['-']
  | some track => track.slug

/-- The parts of a key's stored form, between the colons. -/
def parts : MarketKey → List Text
  | .commodity region item rank => [['c'], region.asStr, decimal item, decimal rank]
  | .recipe region realm item => [['r'], region.asStr, decimal realm, decimal item]
  | .boe region realm item track => [['b'], region.asStr, decimal realm, decimal item, trackText track]

theorem display_eq (k : MarketKey) : k.display = [':'].intercalate k.parts := by
  cases k with
  | commodity region item rank => simp [display, parts, tag, MarketKey.region, List.intercalate]
  | recipe region realm item => simp [display, parts, tag, MarketKey.region, List.intercalate]
  | boe region realm item track =>
      cases track <;> simp [display, parts, tag, MarketKey.region, trackText, List.intercalate]

theorem not_mem_parts (k : MarketKey) : ∀ p ∈ k.parts, ':' ∉ p := by
  have hnum : ∀ n, ':' ∉ decimal n := Text.not_mem_decimal (by decide)
  have hreg : ∀ r : Region, ':' ∉ r.asStr := by intro r; cases r <;> decide
  have htrack : ∀ t, ':' ∉ trackText t := by
    intro t
    rcases t with _ | t
    · decide
    · cases t <;> decide
  cases k <;> simp [parts, hnum, hreg, htrack]

theorem splitOn_display (k : MarketKey) : k.display.splitOn ':' = k.parts := by
  rw [display_eq]
  exact List.splitOn_intercalate ':' k.not_mem_parts (by cases k <;> simp [parts])

/-- A text is a key's stored form exactly when its parts are the key's. -/
theorem eq_display_iff (s : Text) (k : MarketKey) : s = k.display ↔ s.splitOn ':' = k.parts := by
  constructor
  · rintro rfl
    exact splitOn_display k
  · intro h
    rw [display_eq, ← h, List.intercalate_splitOn]

theorem parseTrack_trackText (track : Option Track) : parseTrack (trackText track) = some track := by
  rcases track with _ | track
  · rfl
  · cases track <;> rfl

theorem parse_display (h : Built k) : parse k.display = some k := by
  rw [parse, splitOn_display]
  cases h with
  | commodity region hitem hrank =>
      have hrank' := Text.parseNat_decimal (max_le hrank (show 1 ≤ maxU8 by decide))
      simp [parts, ofCommodity, parseParts, Region.parse_asStr, Text.parseNat_decimal hitem, hrank']
  | recipe region hrealm hitem =>
      simp [parts, parseParts, Region.parse_asStr, Text.parseNat_decimal hrealm,
        Text.parseNat_decimal hitem]
  | boe region hrealm hitem track =>
      simp [parts, parseParts, Region.parse_asStr, Text.parseNat_decimal hrealm,
        Text.parseNat_decimal hitem, parseTrack_trackText]

theorem eq_trackText {track : Option Track} (h : parseTrack s = some track) : s = trackText track := by
  rw [parseTrack] at h
  split at h
  · rename_i hdash
    cases h
    exact hdash
  · obtain ⟨t, ht, rfl⟩ := Option.map_eq_some_iff.mp h
    exact (Track.eq_slug ht).symm

theorem parse_some (h : parse s = some k) : ∃ tag region a b tail n m most,
    s.splitOn ':' = tag :: region :: a :: b :: tail ∧ Region.parse region = some k.region ∧
    parseNat maxU32 a = some n ∧ parseNat most b = some m ∧
    k.parts = tag :: k.region.asStr :: decimal n :: decimal m :: tail := by
  rw [parse] at h
  split at h
  · rename_i tag region parts hs
    simp only [Option.bind_eq_bind, Option.bind_eq_some_iff, Option.ite_none_right_eq_some,
      List.isEmpty_iff, Option.some.injEq, Prod.exists] at h
    obtain ⟨r, hr, key, rest, hkey, rfl, rfl⟩ := h
    unfold parseParts at hkey
    split at hkey
    · rename_i item rank rest
      simp only [Option.bind_eq_bind, Option.bind_eq_some_iff, Option.ite_none_left_eq_some,
        Option.some.injEq, Prod.mk.injEq] at hkey
      obtain ⟨n, hn, m, hm, -, rfl, rfl⟩ := hkey
      exact ⟨_, _, _, _, _, n, m, _, hs, hr, hn, hm, rfl⟩
    · simp only [Option.bind_eq_bind, Option.bind_eq_some_iff, Option.some.injEq, Prod.mk.injEq] at hkey
      obtain ⟨n, hn, m, hm, rfl, rfl⟩ := hkey
      exact ⟨_, _, _, _, _, n, m, _, hs, hr, hn, hm, rfl⟩
    · simp only [Option.bind_eq_bind, Option.bind_eq_some_iff, Option.some.injEq, Prod.mk.injEq] at hkey
      obtain ⟨n, hn, m, hm, track, htrack, rfl, rfl⟩ := hkey
      refine ⟨_, _, _, _, _, n, m, _, hs, hr, hn, hm, ?_⟩
      rw [eq_trackText htrack]
      rfl
    · cases hkey
  · cases h

/-- A text whose region is in small letters and whose two numbers have no sign and no leading zero. -/
def PlainlySpelt (s : Text) : Prop :=
  match s.splitOn ':' with
  | _ :: region :: a :: b :: _ => (∀ c ∈ region, c.isUpper = false) ∧ Plain a ∧ Plain b
  | _ => False

/-- A text that is accepted is its key's stored form exactly when it is plainly spelt. -/
theorem eq_display_iff_plainlySpelt (h : parse s = some k) : s = k.display ↔ PlainlySpelt s := by
  obtain ⟨tag, region, a, b, tail, n, m, most, hs, hregion, ha, hb, hparts⟩ := parse_some h
  rw [eq_display_iff, PlainlySpelt, hs, hparts]
  simp only [List.cons.injEq, true_and, and_true, Region.eq_asStr_iff hregion, Text.eq_decimal_iff ha,
    Text.eq_decimal_iff hb]

theorem fromStr_ok_iff : fromStr s = .ok k ↔ parse s = some k := by
  rw [fromStr]
  split <;> simp_all

/-- A text in capitals is accepted, and so is a number with a sign or a leading zero. -/
theorem almost_keys_accepted :
    fromStr "c:EU:7:1".toList = .ok (ofCommodity .eu 7 1) ∧
    fromStr "c:eu:+7:1".toList = .ok (ofCommodity .eu 7 1) ∧
    fromStr "c:eu:007:1".toList = .ok (ofCommodity .eu 7 1) ∧
    (ofCommodity .eu 7 1).display = "c:eu:7:1".toList := by
  decide

/-- Every key is read back. An accepted text is its key's stored form exactly when it is plainly spelt, so
that no two plainly spelt texts name one market, and no two markets share a text. -/
theorem canonical_iff (k l : MarketKey) (s t : Text) :
    (Built k → fromStr k.display = .ok k) ∧
    (fromStr s = .ok k → (s = k.display ↔ PlainlySpelt s)) ∧
    (PlainlySpelt s → PlainlySpelt t → fromStr s = .ok k → fromStr t = .ok k → s = t) ∧
    (Built k → Built l → k.display = l.display → k = l) := by
  refine ⟨fun hk => fromStr_ok_iff.mpr (parse_display hk), ?_, ?_, ?_⟩
  · intro h
    exact eq_display_iff_plainlySpelt (fromStr_ok_iff.mp h)
  · intro hs ht hks hkt
    have heqs := (eq_display_iff_plainlySpelt (fromStr_ok_iff.mp hks)).mpr hs
    have heqt := (eq_display_iff_plainlySpelt (fromStr_ok_iff.mp hkt)).mpr ht
    rw [heqs, heqt]
  · intro hk hl h
    have hread := parse_display hk
    rw [h, parse_display hl] at hread
    exact (Option.some.inj hread).symm

theorem canonical_potion :
    fromStr (ofCommodity .eu 212265 3).display = .ok (ofCommodity .eu 212265 3) ∧
    ("c:EU:7:1".toList = (ofCommodity .eu 7 1).display ↔ PlainlySpelt "c:EU:7:1".toList) :=
  ⟨(canonical_iff (ofCommodity .eu 212265 3) (ofCommodity .eu 7 1) [] []).1
      (.commodity .eu (by decide) (by decide)),
    (canonical_iff (ofCommodity .eu 7 1) (ofCommodity .eu 7 1) "c:EU:7:1".toList []).2.1 (by decide)⟩

end MarketKey

/-! ## Window keys -/

namespace Window

variable {w : Window}

/-- The windows of the source's types, with an id where one is needed. -/
def Sound : Window → Prop
  | .days n => n ≤ maxU64
  | .patch id | .tier id => id ≠ []
  | .expansion | .all => True

/-- The free text of a window: the id of its patch or tier. -/
def freeText : Window → Text
  | .patch id | .tier id => id
  | .days _ | .expansion | .all => []

theorem parseNat_eq_none {c : Char} {most : Nat} (hd : c.isDigit = false) (hc : c ≠ '+') :
    parseNat most (c :: s) = none := by
  cases h : parseNat most (c :: s) with
  | none => rfl
  | some n =>
      obtain ⟨digits, hs, -, hdigits, -⟩ := Text.parseNat_some h
      rcases hs with hs | rfl
      · cases hs
        exact absurd rfl hc
      · rw [hdigits c List.mem_cons_self] at hd
        cases hd

theorem key_days (n : Nat) : key (.days n) = decimal n ++ ['d'] := rfl

theorem key_patch (id : Text) : key (.patch id) = "patch:".toList ++ id := rfl

theorem key_tier (id : Text) : key (.tier id) = "tier:".toList ++ id := rfl

theorem parse_key_days {n : Nat} (h : n ≤ maxU64) : parse (key (.days n)) = some (.days n) := by
  have hlast : ∀ t : Text, t.getLast? ≠ some 'd' → decimal n ++ ['d'] ≠ t := by
    rintro t ht rfl
    simp at ht
  rw [key_days, parse, if_neg (hlast _ (by decide)), if_neg (hlast _ (by decide)), Text.dropLast?_append]
  simp [Text.parseNat_decimal h]

/-- An id that ends in a `d` is taken for a number of days and refused. -/
theorem parse_key_patch {id : Text} (h : id ≠ []) :
    parse (key (.patch id)) = if id.getLast? = some 'd' then none else some (.patch id) := by
  have hlast : ("patch:".toList ++ id).getLast? = id.getLast? := List.getLast?_append_of_ne_nil _ h
  rw [key_patch, parse, if_neg (by simp), if_neg (by simp)]
  by_cases hd : id.getLast? = some 'd'
  · rw [if_pos hd, Text.dropLast?, if_pos (hlast.trans hd)]
    simp [parseNat_eq_none]
  · rw [if_neg hd, Text.dropLast?_eq_none (by rwa [hlast]), Text.dropFirst?_append]
    simp [h]

theorem parse_key_tier {id : Text} (h : id ≠ []) :
    parse (key (.tier id)) = if id.getLast? = some 'd' then none else some (.tier id) := by
  have hlast : ("tier:".toList ++ id).getLast? = id.getLast? := List.getLast?_append_of_ne_nil _ h
  have hpatch : Text.dropFirst? "patch:".toList ("tier:".toList ++ id) = none := rfl
  rw [key_tier, parse, if_neg (by simp), if_neg (by simp)]
  by_cases hd : id.getLast? = some 'd'
  · rw [if_pos hd, Text.dropLast?, if_pos (hlast.trans hd)]
    simp [parseNat_eq_none]
  · rw [if_neg hd, Text.dropLast?_eq_none (by rwa [hlast]), hpatch, Text.dropFirst?_append]
    simp [h]

/-- A window is read back exactly when its free text does not end in a `d`. -/
theorem parse_key_iff (hw : w.Sound) : parse w.key = some w ↔ w.freeText.getLast? ≠ some 'd' := by
  cases w with
  | days n => simpa [freeText] using parse_key_days hw
  | patch id =>
      rw [parse_key_patch hw]
      simp [freeText]
  | tier id =>
      rw [parse_key_tier hw]
      simp [freeText]
  | expansion => decide
  | all => decide

/-- The first character of a key tells its shape. -/
def first : Window → Char
  | .days n => (decimal n).headI
  | .patch _ => 'p'
  | .tier _ => 't'
  | .expansion => 'e'
  | .all => 'a'

theorem head_key (w : Window) : w.key.head? = some w.first := by
  cases w with
  | days n =>
      rw [key_days, List.head?_append_of_ne_nil _ (Text.decimal_ne_nil n), first,
        ← List.cons_head!_tail (Text.decimal_ne_nil n)]
      rfl
  | patch id => rfl
  | tier id => rfl
  | expansion => rfl
  | all => rfl

theorem isDigit_first (n : Nat) : (first (.days n)).isDigit = true := by
  cases hn : decimal n with
  | nil => exact absurd hn (Text.decimal_ne_nil n)
  | cons c l =>
      have hmem : c ∈ decimal n := by
        rw [hn]
        exact List.mem_cons_self
      rw [first, hn]
      exact Text.isDigit_of_mem_decimal hmem

theorem eq_days {n : Nat} (h : first (.days n) = w.first) : ∃ m, w = .days m := by
  have hdigit := isDigit_first n
  rw [h] at hdigit
  cases w with
  | days m => exact ⟨m, rfl⟩
  | _ => simp [first] at hdigit

theorem decimal_injective {n m : Nat} (h : decimal n = decimal m) : n = m := by
  have hread := Text.parseNat_decimal (le_max_left n m)
  rw [h, Text.parseNat_decimal (le_max_right n m)] at hread
  exact (Option.some.inj hread).symm

/-- Distinct windows have distinct keys, whatever their ids. -/
theorem key_injective : Function.Injective key := by
  intro v w h
  have hfirst : v.first = w.first := by
    have hhead := head_key v
    rw [h, head_key w] at hhead
    exact (Option.some.inj hhead).symm
  cases v with
  | days n =>
      obtain ⟨m, rfl⟩ := eq_days hfirst
      exact congrArg _ (decimal_injective (List.append_cancel_right h))
  | patch id =>
      cases w with
      | days m => cases eq_days hfirst.symm with | intro _ hm => cases hm
      | patch id' => exact congrArg _ (List.append_cancel_left h)
      | _ => simp [first] at hfirst
  | tier id =>
      cases w with
      | days m => cases eq_days hfirst.symm with | intro _ hm => cases hm
      | tier id' => exact congrArg _ (List.append_cancel_left h)
      | _ => simp [first] at hfirst
  | expansion =>
      cases w with
      | days m => cases eq_days hfirst.symm with | intro _ hm => cases hm
      | expansion => rfl
      | _ => simp [first] at hfirst
  | all =>
      cases w with
      | days m => cases eq_days hfirst.symm with | intro _ hm => cases hm
      | all => rfl
      | _ => simp [first] at hfirst

theorem raidTier_d_refused :
    parse (key (.tier "undermined".toList)) = none ∧ parse (key (.patch "11.1.0d".toList)) = none := by
  decide

/-- A window is read back exactly when its free text does not end in a `d`: so are all the windows of a
catalogue exactly when no id of its patches and tiers does. Distinct windows always have distinct keys. -/
theorem roundTrip_iff (c : Catalog) (w : Window) :
    (w.Sound → (parse w.key = some w ↔ w.freeText.getLast? ≠ some 'd')) ∧
    ((∀ w ∈ allFor c, w.Sound) → ((∀ w ∈ allFor c, parse w.key = some w) ↔
      ∀ w ∈ allFor c, w.freeText.getLast? ≠ some 'd')) ∧
    Function.Injective key := by
  refine ⟨fun hw => parse_key_iff hw, ?_, key_injective⟩
  intro hc
  exact forall₂_congr fun w hw => parse_key_iff (hc w hw)

theorem roundTrip_voidspire :
    parse (key (.tier "voidspire".toList)) = some (.tier "voidspire".toList) :=
  ((roundTrip_iff ⟨[], [], .active, 1, [], [], [], [], [], [], []⟩ (.tier "voidspire".toList)).1
    (by simp [Sound])).mpr (by decide)

end Window

end Gavel.Market
