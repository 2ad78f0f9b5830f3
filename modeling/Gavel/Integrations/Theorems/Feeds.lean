import Gavel.Integrations.Theorems.Timestamps
import Gavel.Lib.Fractions

/-!
# The feeds are read faithfully

What a feed returns are the rows of the wanted items in their order, each with its own numbers, all of one
instant: except that an identifier too wide for an item is cut down to one, and that a rate a little above
one is taken for one.
-/

namespace Gavel.Integrations

open Gavel.Cluster (Millis)
open Gavel.Market Gavel.Text

variable {α Value : Type} {D : Decimals Value} {table : CsvTable} {row : List Text} {index : Nat} {n : Nat}
  {column : String} {raw : Text} {m : Millis}

/-! ## What a row holds -/

namespace CsvTable

/-- The cell of a row under the first of some names that the header has. -/
def cell (t : CsvTable) (names : List String) (row : List Text) : Option Text :=
  (names.findSome? fun name => t.columns.get? name.toList).bind fun index => row[index]?

/-- The number that cell spells. -/
def spelled (t : CsvTable) (names : List String) (row : List Text) : Option Nat :=
  (t.cell names row).bind (parseNat maxU64)

/-- The rows whose identifier is a wanted item. -/
def wantedRows (t : CsvTable) (wanted : List ItemId) : List (List Text) :=
  t.rows.filter fun row => (t.spelled ["itemId"] row).any fun id => id ∈ wanted

end CsvTable

/-- An instant as a cell gives it: spelled, in seconds or in milliseconds. -/
def Dates (cell : Text) (m : Millis) : Prop :=
  (∃ t : UtcTime, cell = t.text ∧ m = t.millis) ∨
    ∃ n, parseNat maxU64 cell = some n ∧ m = if n < 100000000000 then n * 1000 else n

/-- The decimal number a text spells: digits, perhaps after a plus sign, and the digits after the point. -/
def decimalValue (s : Text) : Option ℚ :=
  let parts := (splitOnce '.' s).getD (s, [])
  let whole := if parts.1.head? = some '+' then parts.1.tail else parts.1
  if whole.isEmpty ∨ ¬ whole.all Char.isDigit ∨ ¬ parts.2.all Char.isDigit then none
  else some (Nat.ofDigitChars 10 whole 0 + fraction parts.2)

/-- A sample with the numbers of a row. -/
structure OwnCommodity (t : CsvTable) (region : Region) (row : List Text) (s : TsmCommoditySample) : Prop where
  item : t.spelled ["itemId"] row = some s.item
  region : s.region = region
  marketValue : t.spelled ["marketValue", "regionMarketValue"] row = some s.marketValue
  minBuyout : t.spelled ["minBuyout"] row = some s.minBuyout
  recent : t.spelled ["recent"] row = some s.recent
  historical : t.spelled ["historical", "regionHistorical"] row = some s.historical
  updatedAt : ∃ cell, t.cell ["updatedAt"] row = some cell ∧ Dates cell s.updatedAt
  observedAt : s.observedAt = s.updatedAt

/-- A rate from zero to one in basis points, rounded half up. -/
def InBasisPoints (rate : ℚ) (bp : Nat) : Prop :=
  0 ≤ rate ∧ rate ≤ 1 ∧ (bp : ℤ) = ⌊10000 * rate + 1 / 2⌋

structure OwnDaily (D : Decimals Value) (t : CsvTable) (region : Region) (row : List Text)
    (s : TsmRegionDaily Value) : Prop where
  item : t.spelled ["itemId"] row = some s.item
  region : s.region = region
  day : s.day = s.updatedAt / 86400000 * 86400000
  marketValue : t.spelled ["marketValue", "regionMarketValue"] row = some s.marketValue
  historical : t.spelled ["historical", "regionHistorical"] row = some s.historical
  avgSalePrice : t.spelled ["avgSalePrice", "regionSaleAvg"] row = some s.avgSalePrice
  saleRate : ∃ rate, (t.cell ["saleRate", "regionSaleRate"] row).bind decimalValue = some rate ∧
    InBasisPoints rate s.saleRateBp
  soldPerDay : (t.cell ["soldPerDay", "regionSoldPerDay"] row).bind D.parse = some s.soldPerDay
  updatedAt : ∃ cell, t.cell ["updatedAt"] row = some cell ∧ Dates cell s.updatedAt

/-- One sample for each of some rows, in their order, and all of one instant. -/
structure Faithful (own : List Text → α → Prop) (updatedAt : α → Millis) (rows : List (List Text))
    (out : List α) : Prop where
  own : List.Forall₂ own rows out
  shared : ∀ a ∈ out, ∀ b ∈ out, updatedAt a = updatedAt b

/-- No identifier is too wide for an item and ends in the bits of a wanted one. -/
def NarrowIds (t : CsvTable) (wanted : List ItemId) : Prop :=
  ∀ row ∈ t.rows, ∀ id, t.spelled ["itemId"] row = some id → 2 ^ 32 ≤ id → id % 2 ^ 32 ∉ wanted

/-- No wanted row has a rate above one that rounds to one. -/
def RatesApart (t : CsvTable) (wanted : List ItemId) : Prop :=
  ∀ row ∈ t.wantedRows wanted, ∀ rate,
    (t.cell ["saleRate", "regionSaleRate"] row).bind decimalValue = some rate →
      ¬ (1 < rate ∧ rate < 1 + 1 / 20000)

/-! ## Cells -/

theorem bind_ok {β ε : Type} {x : Except ε α} {f : α → Except ε β} {b : β} (h : (x >>= f) = .ok b) :
    ∃ a, x = .ok a ∧ f a = .ok b := by
  cases x with
  | error why => cases h
  | ok a => exact ⟨a, rfl, h⟩

theorem parse_ok {most : Nat} {f : IntFault → FeedError}
    (h : (parseUnsigned most raw).mapError f = .ok n) : parseNat most raw = some n := by
  unfold parseUnsigned at h
  split at h
  · rename_i hn
    cases h
    exact hn
  · cases h

theorem value_ok (h : value row index column = .ok raw) : row[index]? = some raw := by
  unfold value at h
  split at h
  · rename_i cell hcell
    cases h
    exact (Option.filter_eq_some_iff.mp hcell).1
  · cases h

theorem number_ok (h : number row index column = .ok n) :
    (row[index]?).bind (parseNat maxU64) = some n := by
  obtain ⟨raw, hraw, h⟩ := bind_ok h
  rw [value_ok hraw, Option.bind_some, parse_ok h]

theorem decimal_ok {x : Value} (h : decimal D row index column = .ok x) :
    (row[index]?).bind D.parse = some x := by
  obtain ⟨raw, hraw, h⟩ := bind_ok h
  rw [value_ok hraw, Option.bind_some]
  split at h
  · rename_i hx
    cases h
    exact (Option.filter_eq_some_iff.mp hx).1
  · cases h

theorem timestamp_ok (h : timestamp row index = .ok m) :
    ∃ cell, row[index]? = some cell ∧ Dates cell m := by
  obtain ⟨raw, hraw, h⟩ := bind_ok h
  refine ⟨raw, value_ok hraw, ?_⟩
  split at h
  · rename_i hspelled
    cases h
    exact .inl ((rfc3339Utc_iff raw m).mp hspelled)
  · split at h
    · rename_i n hn
      cases h
      refine .inr ⟨n, hn, ?_⟩
      split
      · have hfits : n * 1000 ≤ maxU64 := by
          unfold maxU64
          omega
        rw [Nat.min_eq_left hfits]
      · rfl
    · cases h

theorem unsigned_eq {most : Nat} (h : parseNat most raw = some n) :
    ∃ digits : Text, (if raw.head? = some '+' then raw.tail else raw) = digits ∧ digits.isEmpty = false ∧
      digits.all Char.isDigit = true ∧ n = Nat.ofDigitChars 10 digits 0 := by
  obtain ⟨digits, hraw, hne, hdigits, hn, -⟩ := parseNat_some h
  refine ⟨digits, ?_, List.isEmpty_eq_false_iff.mpr hne, List.all_eq_true.mpr hdigits, hn⟩
  rcases hraw with rfl | rfl
  · rfl
  · rw [if_neg]
    intro hhead
    exact absurd (hdigits _ (List.mem_of_mem_head? hhead)) (by decide)

/-- The digits of a rate as basis points, and the digit that rounds them. -/
theorem floor_rate {w : Nat} {digits : Text} (hd : ∀ c ∈ digits, c.isDigit = true) :
    ⌊10000 * ((w : ℚ) + fraction digits) + 1 / 2⌋ =
      ((w * 10000 + Nat.ofDigitChars 10 (places 4 digits) 0 +
        if digits[4]?.any ('5' ≤ ·) = true then 1 else 0 : Nat) : ℤ) := by
  have hsplit : 10000 * ((w : ℚ) + fraction digits) + 1 / 2 =
      ((w * 10000 : Nat) : ℚ) + (10 ^ 4 * fraction digits + 1 / 2) := by
    push_cast
    ring
  rw [hsplit, Int.floor_natCast_add, floor_fraction hd, ← add_assoc]
  push_cast
  rfl

/-- A rate of at most one and its places leave room for the rounding. -/
theorem rounded_eq {w kept : Nat} (hw : w ≤ 1) (hkept : kept < 10000) (up : Bool) :
    (if up = true then min (w * 10000 + kept + 1) maxU16 else w * 10000 + kept) =
      w * 10000 + kept + if up = true then 1 else 0 := by
  have hsum : w * 10000 + kept + 1 ≤ 20000 := by omega
  split
  · exact Nat.min_eq_left (hsum.trans (by decide))
  · exact (Nat.add_zero _).symm

theorem lt_of_floor_le {rate : ℚ} (h : ⌊10000 * rate + 1 / 2⌋ ≤ 10000) : rate < 1 + 1 / 20000 := by
  have hlt := Int.floor_lt.mp (Int.lt_add_one_of_le h)
  norm_num at hlt
  linarith

/-- A rate that is accepted is one below 1.00005, and is rounded half up. -/
theorem basisPoints_ok {bp : Nat} (h : basisPoints raw = .ok bp) :
    ∃ rate, decimalValue raw = some rate ∧ 0 ≤ rate ∧ rate < 1 + 1 / 20000 ∧
      (bp : ℤ) = ⌊10000 * rate + 1 / 2⌋ := by
  unfold basisPoints at h
  unfold decimalValue
  generalize (splitOnce '.' raw).getD (raw, []) = parts at h ⊢
  obtain ⟨whole, digits⟩ := parts
  simp only at h ⊢
  obtain ⟨w, hw, h⟩ := bind_ok h
  obtain ⟨wholeDigits, hwhole, hne, hall, rfl⟩ := unsigned_eq (parse_ok hw)
  split at h
  · cases h
  · rename_i hrange
    push Not at hrange
    obtain ⟨hw1, hdigits⟩ := hrange
    have hd := List.all_eq_true.mp hdigits
    have hplaces : parseNat maxU16 (digits.take 4 ++ List.replicate (4 - (digits.take 4).length) '0') =
        some (Nat.ofDigitChars 10 (places 4 digits) 0) := parseNat_places hd (by decide) (by decide)
    have hkept := ofDigitChars_lt fun c hc => isDigit_of_mem_places (k := 4) hd hc
    have hfloor := floor_rate (w := Nat.ofDigitChars 10 wholeDigits 0) hd
    rw [length_places] at hkept
    rw [hplaces, Option.getD_some, rounded_eq hw1 hkept] at h
    rw [hwhole, if_neg (by simp [hne, hall, hdigits])]
    refine ⟨_, rfl, add_nonneg (Nat.cast_nonneg _) (fraction_nonneg digits), ?_⟩
    rw [hfloor]
    generalize (Nat.ofDigitChars 10 wholeDigits 0 * 10000 + Nat.ofDigitChars 10 (places 4 digits) 0 +
      if digits[4]?.any ('5' ≤ ·) = true then 1 else 0) = total at h hfloor ⊢
    split at h
    · rename_i hle
      obtain rfl := Except.ok.inj h
      refine ⟨lt_of_floor_le ?_, rfl⟩
      rw [hfloor]
      exact Int.ofNat_le.mpr hle
    · cases h

/-! ## Columns and rows -/

theorem required_ok {name : String} (h : table.required name = .ok index) (row : List Text) :
    table.cell [name] row = row[index]? := by
  unfold CsvTable.required at h
  split at h
  · rename_i found hfound
    cases h
    simp [CsvTable.cell, List.findSome?, hfound]
  · cases h

theorem requiredAny_ok {names : List String} (h : table.requiredAny names = .ok index) (row : List Text) :
    table.cell names row = row[index]? := by
  unfold CsvTable.requiredAny at h
  split at h
  · rename_i found hfound
    cases h
    rw [CsvTable.cell, hfound, Option.bind_some]
  · cases h

theorem spelled_eq {names : List String} (hcell : ∀ row, table.cell names row = row[index]?)
    (row : List Text) : table.spelled names row = (row[index]?).bind (parseNat maxU64) := by
  rw [CsvTable.spelled, hcell]

theorem spelled_ok {names : List String} (hcell : ∀ row, table.cell names row = row[index]?)
    (h : number row index column = .ok n) : table.spelled names row = some n :=
  (spelled_eq hcell row).trans (number_ok h)

theorem dates_ok {names : List String} (hcell : ∀ row, table.cell names row = row[index]?)
    (h : timestamp row index = .ok m) : ∃ cell, table.cell names row = some cell ∧ Dates cell m := by
  rw [hcell]
  exact timestamp_ok h

/-- Whether the identifier of a row ends in the bits of a wanted one. -/
def readsRow (item : Nat) (wanted : List ItemId) (row : List Text) : Bool :=
  ((row[item]?).bind (parseNat maxU64)).any fun id => id % 2 ^ 32 ∈ wanted

/-- The rows that are read. -/
def readRows (item : Nat) (wanted : List ItemId) (rows : List (List Text)) : List (List Text) :=
  rows.filter (readsRow item wanted)

theorem readWanted_ok {item : Nat} {wanted : List ItemId} {sample : ItemId → List Text → Except FeedError α}
    {rows : List (List Text)} {out : List α} (h : readWanted item wanted sample rows = .ok out) :
    List.Forall₂ (fun row a => ∃ id, (row[item]?).bind (parseNat maxU64) = some id ∧
      sample (id % 2 ^ 32) row = .ok a) (readRows item wanted rows) out := by
  induction rows generalizing out with
  | nil =>
      cases h
      exact .nil
  | cons row rows ih =>
      obtain ⟨id, hid, h⟩ := bind_ok h
      have hread := number_ok hid
      simp only at h
      split at h
      · rename_i hmem
        obtain ⟨first, hfirst, h⟩ := bind_ok h
        obtain ⟨rest, hrest, h⟩ := bind_ok h
        cases h
        have hany : readsRow item wanted row = true := by
          rw [readsRow, hread]
          exact decide_eq_true hmem
        rw [readRows, List.filter_cons_of_pos hany]
        exact .cons ⟨id, hread, hfirst⟩ (ih hrest)
      · rename_i hmem
        have hany : ¬ readsRow item wanted row = true := by
          rw [readsRow, hread]
          simpa using hmem
        rw [readRows, List.filter_cons_of_neg hany]
        exact ih h

theorem sameUpdatedAt_ok {values : List Millis} (h : sameUpdatedAt values = .ok ()) :
    ∀ a ∈ values, ∀ b ∈ values, a = b := by
  have hall : (values.zip values.tail).all (fun pair => pair.1 = pair.2) = true := by
    unfold sameUpdatedAt at h
    split at h
    · assumption
    · cases h
  have hfirst : ∀ first rest, ((first :: rest).zip rest).all (fun pair => pair.1 = pair.2) = true →
      ∀ a ∈ first :: rest, a = (first : Millis) := by
    intro first rest
    induction rest generalizing first with
    | nil => simp
    | cons second rest ih =>
        intro hpairs a ha
        rw [List.zip_cons_cons, List.all_cons, Bool.and_eq_true, decide_eq_true_eq] at hpairs
        obtain ⟨heq, hpairs⟩ := hpairs
        rcases List.mem_cons.mp ha with rfl | ha
        · rfl
        · exact (ih second hpairs a ha).trans heq.symm
  intro a ha b hb
  cases values with
  | nil => cases ha
  | cons first rest => rw [hfirst first rest hall a ha, hfirst first rest hall b hb]

/-! ## Identifiers -/

section Ids

variable {item : Nat} {wanted : List ItemId} {own : List Text → α → Prop} {updatedAt : α → Millis}
  {out : List α}

theorem any_mod_of_any (hwanted : ∀ id ∈ wanted, id < 2 ^ 32) {id : Option Nat}
    (h : id.any (fun id => id ∈ wanted) = true) : id.any (fun id => id % 2 ^ 32 ∈ wanted) = true := by
  cases id with
  | none => cases h
  | some id =>
      rw [Option.any_some, decide_eq_true_eq] at h ⊢
      rwa [Nat.mod_eq_of_lt (hwanted id h)]

theorem wantedRows_eq (hcell : ∀ row, table.cell ["itemId"] row = row[item]?)
    (hwanted : ∀ id ∈ wanted, id < 2 ^ 32) :
    table.wantedRows wanted = (readRows item wanted table.rows).filter fun row =>
      (table.spelled ["itemId"] row).any fun id => id ∈ wanted := by
  rw [readRows, List.filter_filter, CsvTable.wantedRows]
  refine List.filter_congr fun row _ => ?_
  rw [spelled_eq hcell, readsRow]
  cases hany : ((row[item]?).bind (parseNat maxU64)).any fun id => id ∈ wanted with
  | false => rw [Bool.false_and]
  | true => rw [any_mod_of_any hwanted hany, Bool.true_and]

/-- The rows that are read are the wanted ones exactly when their identifiers are narrow. -/
theorem readRows_eq_iff (hcell : ∀ row, table.cell ["itemId"] row = row[item]?)
    (hwanted : ∀ id ∈ wanted, id < 2 ^ 32) :
    (table.wantedRows wanted).length = (readRows item wanted table.rows).length ↔ NarrowIds table wanted := by
  rw [wantedRows_eq hcell hwanted, List.length_filter_eq_length_iff]
  constructor
  · intro hall row hrow id hid hwide hmem
    rw [spelled_eq hcell] at hid
    have hread : row ∈ readRows item wanted table.rows := by
      refine List.mem_filter.mpr ⟨hrow, ?_⟩
      rw [readsRow, hid]
      exact decide_eq_true hmem
    have hany := hall row hread
    rw [spelled_eq hcell, hid, Option.any_some, decide_eq_true_eq] at hany
    exact absurd (hwanted id hany) (Nat.not_lt.mpr hwide)
  · intro hnarrow row hread
    obtain ⟨hrow, hany⟩ := List.mem_filter.mp hread
    rw [readsRow] at hany
    rw [spelled_eq hcell]
    cases hid : (row[item]?).bind (parseNat maxU64) with
    | none =>
        rw [hid] at hany
        cases hany
    | some id =>
        rw [hid, Option.any_some, decide_eq_true_eq] at hany
        have hlt : id < 2 ^ 32 := by
          by_contra hge
          exact hnarrow row hrow id ((spelled_eq hcell row).trans hid) (Nat.le_of_not_lt hge) hany
        rw [Option.any_some, decide_eq_true_eq]
        rwa [Nat.mod_eq_of_lt hlt] at hany

/-- A faithful feed has read no more rows than are wanted. -/
theorem narrow_of_faithful {sample : ItemId → List Text → Except FeedError α}
    (hcell : ∀ row, table.cell ["itemId"] row = row[item]?) (hwanted : ∀ id ∈ wanted, id < 2 ^ 32)
    (hread : readWanted item wanted sample table.rows = .ok out)
    (h : Faithful own updatedAt (table.wantedRows wanted) out) : NarrowIds table wanted := by
  refine (readRows_eq_iff hcell hwanted).mp ?_
  rw [h.own.length_eq, (readWanted_ok hread).length_eq]

/-- With narrow identifiers a feed is faithful if each of its samples is. -/
theorem faithful_of_narrow {sample : ItemId → List Text → Except FeedError α}
    (hcell : ∀ row, table.cell ["itemId"] row = row[item]?) (hwanted : ∀ id ∈ wanted, id < 2 ^ 32)
    (hread : readWanted item wanted sample table.rows = .ok out)
    (hsame : sameUpdatedAt (out.map updatedAt) = .ok ()) (hnarrow : NarrowIds table wanted)
    (hown : ∀ row ∈ table.wantedRows wanted, ∀ id a, table.spelled ["itemId"] row = some id →
      sample id row = .ok a → own row a) : Faithful own updatedAt (table.wantedRows wanted) out := by
  have hrows : table.wantedRows wanted = readRows item wanted table.rows := by
    have hlength := (readRows_eq_iff hcell hwanted).mpr hnarrow
    rw [wantedRows_eq hcell hwanted] at hlength ⊢
    exact List.filter_sublist.eq_of_length hlength
  constructor
  · have hsamples := readWanted_ok hread
    rw [← hrows] at hsamples
    refine ((List.forall₂_and_left ..).mpr ⟨fun row hrow => hrow, hsamples⟩).imp ?_
    rintro row a ⟨hrow, id, hid, ha⟩
    have hspelled : table.spelled ["itemId"] row = some id := (spelled_eq hcell row).trans hid
    obtain ⟨htable, hany⟩ := List.mem_filter.mp hrow
    rw [hspelled, Option.any_some, decide_eq_true_eq] at hany
    rw [Nat.mod_eq_of_lt (hwanted id hany)] at ha
    exact hown row hrow id a hspelled ha
  · intro a ha b hb
    exact sameUpdatedAt_ok hsame _ (List.mem_map_of_mem ha) _ (List.mem_map_of_mem hb)

end Ids

/-! ## The samples -/

theorem TsmCommoditySample.read_ok {region : Region} {marketValue minBuyout recent historical updatedAt : Nat}
    {id : ItemId} {s : TsmCommoditySample}
    (h : TsmCommoditySample.read region marketValue minBuyout recent historical updatedAt id row = .ok s)
    (hmarket : ∀ row, table.cell ["marketValue", "regionMarketValue"] row = row[marketValue]?)
    (hbuyout : ∀ row, table.cell ["minBuyout"] row = row[minBuyout]?)
    (hrecent : ∀ row, table.cell ["recent"] row = row[recent]?)
    (hhistorical : ∀ row, table.cell ["historical", "regionHistorical"] row = row[historical]?)
    (hupdated : ∀ row, table.cell ["updatedAt"] row = row[updatedAt]?)
    (hid : table.spelled ["itemId"] row = some id) : OwnCommodity table region row s := by
  obtain ⟨at', hat, h⟩ := bind_ok h
  obtain ⟨m, hm, h⟩ := bind_ok h
  obtain ⟨b, hb, h⟩ := bind_ok h
  obtain ⟨r, hr, h⟩ := bind_ok h
  obtain ⟨g, hg, h⟩ := bind_ok h
  cases h
  exact
    { item := hid
      region := rfl
      marketValue := spelled_ok hmarket hm
      minBuyout := spelled_ok hbuyout hb
      recent := spelled_ok hrecent hr
      historical := spelled_ok hhistorical hg
      updatedAt := dates_ok hupdated hat
      observedAt := rfl }

theorem TsmRegionDaily.read_ok {region : Region}
    {marketValue historical avgSalePrice saleRate soldPerDay updatedAt : Nat} {id : ItemId}
    {s : TsmRegionDaily Value}
    (h : TsmRegionDaily.read D region marketValue historical avgSalePrice saleRate soldPerDay updatedAt id row =
      .ok s)
    (hmarket : ∀ row, table.cell ["marketValue", "regionMarketValue"] row = row[marketValue]?)
    (hhistorical : ∀ row, table.cell ["historical", "regionHistorical"] row = row[historical]?)
    (hprice : ∀ row, table.cell ["avgSalePrice", "regionSaleAvg"] row = row[avgSalePrice]?)
    (hrate : ∀ row, table.cell ["saleRate", "regionSaleRate"] row = row[saleRate]?)
    (hsold : ∀ row, table.cell ["soldPerDay", "regionSoldPerDay"] row = row[soldPerDay]?)
    (hupdated : ∀ row, table.cell ["updatedAt"] row = row[updatedAt]?)
    (hid : table.spelled ["itemId"] row = some id)
    (hapart : ∀ rate, (table.cell ["saleRate", "regionSaleRate"] row).bind decimalValue = some rate →
      ¬ (1 < rate ∧ rate < 1 + 1 / 20000)) : OwnDaily D table region row s := by
  obtain ⟨at', hat, h⟩ := bind_ok h
  obtain ⟨m, hm, h⟩ := bind_ok h
  obtain ⟨g, hg, h⟩ := bind_ok h
  obtain ⟨p, hp, h⟩ := bind_ok h
  obtain ⟨raw, hraw, h⟩ := bind_ok h
  obtain ⟨bp, hbp, h⟩ := bind_ok h
  obtain ⟨sold, hsold', h⟩ := bind_ok h
  cases h
  obtain ⟨rate, hvalue, hnonneg, hbelow, hfloor⟩ := basisPoints_ok hbp
  have hcell : (table.cell ["saleRate", "regionSaleRate"] row).bind decimalValue = some rate := by
    rw [hrate, value_ok hraw, Option.bind_some, hvalue]
  exact
    { item := hid
      region := rfl
      day := rfl
      marketValue := spelled_ok hmarket hm
      historical := spelled_ok hhistorical hg
      avgSalePrice := spelled_ok hprice hp
      saleRate := ⟨rate, hcell, hnonneg, not_lt.mp fun hlt => hapart rate hcell ⟨hlt, hbelow⟩, hfloor⟩
      soldPerDay := by rw [hsold, decimal_ok hsold']
      updatedAt := dates_ok hupdated hat }

/-- A rate within bounds is none that was taken for one. -/
theorem OwnDaily.rate_apart {region : Region} {s : TsmRegionDaily Value} (h : OwnDaily D table region row s)
    (rate : ℚ) (hvalue : (table.cell ["saleRate", "regionSaleRate"] row).bind decimalValue = some rate) :
    ¬ (1 < rate ∧ rate < 1 + 1 / 20000) := by
  obtain ⟨rate', hvalue', -, hle, -⟩ := h.saleRate
  obtain rfl := Option.some.inj (hvalue.symm.trans hvalue')
  exact fun habove => not_lt.mpr hle habove.1

/-! ## The feeds -/

section Feeds

variable {csv : Csv} {region : Region} {wanted : List ItemId}

theorem parseCommodities_iff (htable : CsvTable.new csv = .ok table) (hwanted : ∀ id ∈ wanted, id < 2 ^ 32)
    {out : List TsmCommoditySample} (h : parseCommodities csv region wanted = .ok out) :
    Faithful (OwnCommodity table region) TsmCommoditySample.updatedAt (table.wantedRows wanted) out ↔
      NarrowIds table wanted := by
  obtain ⟨table', htable', h⟩ := bind_ok h
  obtain rfl := Except.ok.inj (htable.symm.trans htable')
  obtain ⟨item, hitem, h⟩ := bind_ok h
  obtain ⟨marketValue, hmarket, h⟩ := bind_ok h
  obtain ⟨minBuyout, hbuyout, h⟩ := bind_ok h
  obtain ⟨recent, hrecent, h⟩ := bind_ok h
  obtain ⟨historical, hhistorical, h⟩ := bind_ok h
  obtain ⟨updatedAt, hupdated, h⟩ := bind_ok h
  obtain ⟨out', hread, h⟩ := bind_ok h
  obtain ⟨_, hsame, h⟩ := bind_ok h
  obtain rfl := Except.ok.inj h
  constructor
  · exact narrow_of_faithful (required_ok hitem) hwanted hread
  · intro hnarrow
    refine faithful_of_narrow (required_ok hitem) hwanted hread hsame hnarrow fun row _ id s hid hs => ?_
    exact TsmCommoditySample.read_ok hs (requiredAny_ok hmarket) (required_ok hbuyout) (required_ok hrecent)
      (requiredAny_ok hhistorical) (required_ok hupdated) hid

theorem parseRegionItems_iff (htable : CsvTable.new csv = .ok table) (hwanted : ∀ id ∈ wanted, id < 2 ^ 32)
    {out : List (TsmRegionDaily Value)} (h : parseRegionItems D csv region wanted = .ok out) :
    Faithful (OwnDaily D table region) TsmRegionDaily.updatedAt (table.wantedRows wanted) out ↔
      NarrowIds table wanted ∧ RatesApart table wanted := by
  obtain ⟨table', htable', h⟩ := bind_ok h
  obtain rfl := Except.ok.inj (htable.symm.trans htable')
  obtain ⟨item, hitem, h⟩ := bind_ok h
  obtain ⟨marketValue, hmarket, h⟩ := bind_ok h
  obtain ⟨historical, hhistorical, h⟩ := bind_ok h
  obtain ⟨avgSalePrice, hprice, h⟩ := bind_ok h
  obtain ⟨saleRate, hrate, h⟩ := bind_ok h
  obtain ⟨soldPerDay, hsold, h⟩ := bind_ok h
  obtain ⟨updatedAt, hupdated, h⟩ := bind_ok h
  obtain ⟨out', hread, h⟩ := bind_ok h
  obtain ⟨_, hsame, h⟩ := bind_ok h
  obtain rfl := Except.ok.inj h
  constructor
  · intro hfaithful
    refine ⟨narrow_of_faithful (required_ok hitem) hwanted hread hfaithful, ?_⟩
    exact ((List.forall₂_and_left ..).mp (hfaithful.own.imp fun row s hs => ⟨hs.rate_apart, hs⟩)).1
  · rintro ⟨hnarrow, hapart⟩
    refine faithful_of_narrow (required_ok hitem) hwanted hread hsame hnarrow fun row hrow id s hid hs => ?_
    exact TsmRegionDaily.read_ok hs (requiredAny_ok hmarket) (requiredAny_ok hhistorical)
      (requiredAny_ok hprice) (requiredAny_ok hrate) (requiredAny_ok hsold) (required_ok hupdated) hid
      (hapart row hrow)

/-- A feed that is accepted is read faithfully exactly if no identifier is too wide for an item and ends in
the bits of a wanted one, and no rate of a wanted row is above one and rounds to one. -/
theorem feeds_faithful_iff (D : Decimals Value) (csv : Csv) (table : CsvTable) (region : Region)
    (wanted : List ItemId) (htable : CsvTable.new csv = .ok table) (hwanted : ∀ id ∈ wanted, id < 2 ^ 32) :
    (∀ out, parseCommodities csv region wanted = .ok out →
      (Faithful (OwnCommodity table region) TsmCommoditySample.updatedAt (table.wantedRows wanted) out ↔
        NarrowIds table wanted)) ∧
    ∀ out, parseRegionItems D csv region wanted = .ok out →
      (Faithful (OwnDaily D table region) TsmRegionDaily.updatedAt (table.wantedRows wanted) out ↔
        NarrowIds table wanted ∧ RatesApart table wanted) :=
  ⟨fun _ h => parseCommodities_iff htable hwanted h, fun _ h => parseRegionItems_iff htable hwanted h⟩

end Feeds

/-! ## A table -/

def feedHeader : List Text :=
  ["itemId", "marketValue", "minBuyout", "recent", "historical", "avgSalePrice", "saleRate", "soldPerDay",
    "updatedAt"].map String.toList

/-- One row, with an identifier and a rate. -/
def feedRow (id rate : Text) : List Text := [id, ['5'], ['5'], ['5'], ['5'], ['5'], rate, ['1'], ['9']]

def feed (rows : List (List Text)) : Csv := ⟨.ok feedHeader, rows.map .ok⟩

def feedTable (rows : List (List Text)) : CsvTable := ⟨insertColumns Keyed.empty 0 feedHeader, rows⟩

/-- Fractions as the exact numbers they spell. -/
def exactDecimals : Decimals ℚ := ⟨decimalValue, fun x => 0 ≤ x⟩

def feedCommodity (item : ItemId) : TsmCommoditySample :=
  { item
    region := .eu
    observedAt := 9000
    marketValue := 5
    minBuyout := 5
    recent := 5
    historical := 5
    updatedAt := 9000 }

def feedDaily (item : ItemId) (saleRateBp : Nat) : TsmRegionDaily ℚ :=
  { item
    region := .eu
    day := 0
    marketValue := 5
    historical := 5
    avgSalePrice := 5
    saleRateBp
    soldPerDay := 1
    updatedAt := 9000 }

/-- Rows of items 9 and 7, sold at rates of a half and of one, and between them one of item 8, which nobody
wants. -/
def threeRows : List (List Text) := [feedRow ['9'] ['0', '.', '5'], feedRow ['8'] ['2'], feedRow ['7'] ['1']]

theorem feeds_faithful_three :
    let table := feedTable threeRows
    Faithful (OwnCommodity table .eu) TsmCommoditySample.updatedAt (table.wantedRows [7, 9])
        [feedCommodity 9, feedCommodity 7] ∧
      Faithful (OwnDaily exactDecimals table .eu) TsmRegionDaily.updatedAt (table.wantedRows [7, 9])
        [feedDaily 9 5000, feedDaily 7 10000] := by
  intro table
  have hids : threeRows.map (table.spelled ["itemId"]) = [some 9, some 8, some 7] := by decide
  have hwanted : table.wantedRows [7, 9] = [feedRow ['9'] ['0', '.', '5'], feedRow ['7'] ['1']] := by decide
  have hrates : (table.wantedRows [7, 9]).map
      (fun row => (table.cell ["saleRate", "regionSaleRate"] row).bind decimalValue) =
        [some (1 / 2), some 1] := by
    decide +kernel
  have hnarrow : NarrowIds table [7, 9] := by
    intro row hrow id hspelled hwide
    have hmem : some id ∈ threeRows.map (table.spelled ["itemId"]) := hspelled ▸ List.mem_map_of_mem hrow
    rw [hids] at hmem
    simp only [List.mem_cons, Option.some.injEq, List.not_mem_nil, or_false] at hmem
    omega
  have hapart : RatesApart table [7, 9] := by
    intro row hrow rate hvalue habove
    have hmem := List.mem_map_of_mem
      (f := fun row => (table.cell ["saleRate", "regionSaleRate"] row).bind decimalValue) hrow
    rw [hrates, hvalue] at hmem
    simp only [List.mem_cons, Option.some.injEq, List.not_mem_nil, or_false] at hmem
    rcases hmem with rfl | rfl
    · exact absurd habove.1 (by norm_num)
    · exact absurd habove.1 (lt_irrefl _)
  obtain ⟨hcommodities, hdaily⟩ := feeds_faithful_iff exactDecimals (feed threeRows) table .eu [7, 9] rfl
    (by decide)
  exact ⟨(hcommodities [feedCommodity 9, feedCommodity 7] (by decide +kernel)).mpr hnarrow,
    (hdaily [feedDaily 9 5000, feedDaily 7 10000] (by decide +kernel)).mpr ⟨hnarrow, hapart⟩⟩

/-- The row of item 4294967303 is returned as one of item 7, and a rate of 1.00001 as one. -/
theorem foreign_row_and_rate_accepted :
    let wide := [feedRow "4294967303".toList ['1']]
    let above := [feedRow ['7'] "1.00001".toList]
    (parseCommodities (feed wide) .eu [7] = .ok [feedCommodity 7] ∧
      ¬ Faithful (OwnCommodity (feedTable wide) .eu) TsmCommoditySample.updatedAt
        ((feedTable wide).wantedRows [7]) [feedCommodity 7]) ∧
    parseRegionItems exactDecimals (feed above) .eu [7] = .ok [feedDaily 7 10000] ∧
      ¬ Faithful (OwnDaily exactDecimals (feedTable above) .eu) TsmRegionDaily.updatedAt
        ((feedTable above).wantedRows [7]) [feedDaily 7 10000] := by
  intro wide above
  have hrows : (feedTable wide).wantedRows [7] = [] := by decide
  have hrate : ((feedTable above).cell ["saleRate", "regionSaleRate"]
      (feedRow ['7'] "1.00001".toList)).bind decimalValue = some (100001 / 100000) := by
    decide +kernel
  refine ⟨⟨by decide +kernel, fun h => ?_⟩, by decide +kernel, fun h => ?_⟩
  · have hlength := h.own.length_eq
    rw [hrows] at hlength
    cases hlength
  · have hwanted : (feedTable above).wantedRows [7] = above := by decide
    have hown := h.own
    rw [hwanted] at hown
    obtain ⟨rate, hvalue, -, hle, -⟩ := (List.forall₂_cons.mp hown).1.saleRate
    obtain rfl := Option.some.inj (hrate.symm.trans hvalue)
    exact absurd hle (by norm_num)

end Gavel.Integrations
