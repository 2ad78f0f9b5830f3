import Gavel.Lib.Collect
import Gavel.Market.Depth

/-!
# Ladders as units by price

A ladder is determined by its units at each price. What is offered in all, the cheapest and the
dearest price, and the stored form are read off these units.
-/

namespace Gavel.Market.Ladder

variable {l l' : Ladder} {u entries : List (Nat × Nat)} {p q j : Nat}

/-- The units at each price. -/
def units (l : Ladder) : List (Nat × Nat) := l.steps.map fun s => (s.price, s.quantity)

theorem stepsFrom_units (c : Nat) (u : List (Nat × Nat)) :
    (stepsFrom c u).map (fun s => (s.price, s.quantity)) = u := by
  induction u generalizing c with
  | nil => rfl
  | cons e u ih => simp [stepsFrom, ih]

@[simp] theorem units_ofUnits (u : List (Nat × Nat)) : (ofUnits u).units = u := stepsFrom_units 0 u

theorem stepsFrom_last (c : Nat) (u : List (Nat × Nat)) :
    ((stepsFrom c u).getLast?.map Step.cumulative).getD c = c + (u.map Prod.snd).sum := by
  induction u generalizing c with
  | nil => rfl
  | cons e u ih =>
      have hlast := ih (c + e.2)
      cases hsteps : stepsFrom (c + e.2) u with
      | nil =>
          rw [hsteps] at hlast
          simp only [stepsFrom, hsteps, List.getLast?_singleton, Option.map_some, Option.getD_some]
          simp only [List.getLast?_nil, Option.map_none, Option.getD_none] at hlast
          rw [List.map_cons, List.sum_cons]
          omega
      | cons s rest =>
          rw [hsteps] at hlast
          simp only [stepsFrom, hsteps, List.getLast?_cons_cons, List.map_cons, List.sum_cons]
          rw [List.getLast?_eq_some_getLast (List.cons_ne_nil s rest)] at hlast ⊢
          simp only [Option.map_some, Option.getD_some] at hlast ⊢
          omega

@[simp] theorem total_ofUnits (u : List (Nat × Nat)) : (ofUnits u).total = (u.map Prod.snd).sum := by
  have h := stepsFrom_last 0 u
  rw [Nat.zero_add] at h
  exact h

theorem cheapest_eq (l : Ladder) : l.cheapest = l.units.head?.map Prod.fst := by
  simp [cheapest, units, Function.comp_def]

theorem dearest_eq (l : Ladder) : l.dearest = l.units.getLast?.map Prod.fst := by
  simp [dearest, units, Function.comp_def]

theorem isEmpty_iff : l.isEmpty = true ↔ l.units = [] := by
  simp [isEmpty, units]

theorem isEmpty_eq_false (h : 0 < l.total) : l.isEmpty = false := by
  by_contra hempty
  rw [Bool.not_eq_false, isEmpty, List.isEmpty_iff] at hempty
  rw [total, hempty] at h
  exact Nat.lt_irrefl 0 h

/-! ## Pooling -/

/-- Pool units by price. -/
def pooled (entries : List (Nat × Nat)) : List (Nat × Nat) :=
  entries.foldl (fun units e => addAt e.1 e.2 units) []

theorem sum_addAt : ((addAt p q u).map Prod.snd).sum = (u.map Prod.snd).sum + q := by
  induction u with
  | nil => simp [addAt, Assoc.alter]
  | cons e u ih =>
      simp only [addAt] at ih
      simp only [addAt, Assoc.alter]
      split
      · simp
        omega
      · split
        · simp
          omega
        · simp only [List.map_cons, List.sum_cons, ih]
          omega

theorem pooled_eq (entries : List (Nat × Nat)) :
    pooled entries = Assoc.collect Prod.fst (fun e held => held.getD 0 + e.2) entries := rfl

theorem pooled_concat (entries : List (Nat × Nat)) (e : Nat × Nat) :
    pooled (entries ++ [e]) = addAt e.1 e.2 (pooled entries) := Assoc.collect_concat entries e

theorem pooled_sorted (entries : List (Nat × Nat)) : Assoc.Sorted (pooled entries) :=
  Assoc.sorted_collect entries

theorem mem_keys_pooled : j ∈ (pooled entries).map Prod.fst ↔ j ∈ entries.map Prod.fst := by
  rw [pooled_eq, Assoc.mem_keys_collect, List.mem_map]

theorem sum_pooled : ((pooled entries).map Prod.snd).sum = (entries.map Prod.snd).sum := by
  induction entries using List.reverseRecOn with
  | nil => rfl
  | append_singleton entries e ih =>
      rw [pooled_concat, sum_addAt, ih]
      simp

theorem pooled_pos (h : ∀ e ∈ entries, 0 < e.2) : ∀ e ∈ pooled entries, 0 < e.2 := by
  rw [pooled_eq]
  apply Assoc.forall_collect
  intro e he held _
  exact Nat.add_pos_right _ (h e he)

theorem head_pooled : (pooled entries).head?.map Prod.fst = (entries.map Prod.fst).min? := by
  rw [(pooled_sorted entries).head_min]
  exact Assoc.min?_congr fun _ => mem_keys_pooled

theorem last_pooled : (pooled entries).getLast?.map Prod.fst = (entries.map Prod.fst).max? := by
  rw [(pooled_sorted entries).last_max]
  exact Assoc.max?_congr fun _ => mem_keys_pooled

theorem foldl_addAt_steps (u : List (Nat × Nat)) (l : Ladder) :
    l.steps.foldl (fun u step => addAt step.price step.quantity u) u =
      l.units.foldl (fun u e => addAt e.1 e.2 u) u := by
  rw [units, List.foldl_map]

theorem merged_eq (ladders : List Ladder) :
    merged ladders = ofUnits (pooled (ladders.flatMap units)) := by
  simp only [merged, pooled, foldl_addAt_steps, List.foldl_flatMap]

theorem total_merged (ladders : List Ladder) :
    (merged ladders).total = (ladders.map fun l => (l.units.map Prod.snd).sum).sum := by
  rw [merged_eq, total_ofUnits, sum_pooled]
  induction ladders with
  | nil => rfl
  | cons l ladders ih => simp [List.flatMap_cons, ih]

/-- The cheapest price of a merged ladder is the cheapest of its parts. -/
theorem cheapest_merged (ladders : List Ladder) :
    (merged ladders).cheapest = (ladders.flatMap fun l => l.units.map Prod.fst).min? := by
  rw [merged_eq, cheapest_eq, units_ofUnits, head_pooled, List.map_flatMap]

theorem of_eq {listings : List Listing} (h : ∀ l ∈ listings, l.quantity ≠ 0) :
    Ladder.of listings = ofUnits (pooled (listings.map fun l => (l.unitPrice, l.quantity))) := by
  simp only [Ladder.of, pooled, List.foldl_map]
  congr 1
  apply List.foldl_ext
  intro u l hl
  rw [if_neg (h l hl)]

theorem total_of (listings : List Listing) :
    (Ladder.of listings).total = ((Ladder.of listings).units.map Prod.snd).sum := by
  rw [Ladder.of, total_ofUnits, units_ofUnits]

/-! ## The stored form -/

theorem not_mem_encodeStep (s : Step) : ',' ∉ encodeStep s := by
  have hprice := Text.not_mem_decimal (c := ',') (by decide) s.price
  have hquantity := Text.not_mem_decimal (c := ',') (by decide) s.quantity
  simp [encodeStep, hprice, hquantity]

theorem splitOnce_encodeStep (s : Step) :
    Text.splitOnce ':' (encodeStep s) = some (Text.decimal s.price, Text.decimal s.quantity) :=
  Text.splitOnce_append (Text.not_mem_decimal (by decide) s.price)

/-- A ladder that is not empty is stored as a text that is not, of which the rungs are the parts. -/
theorem encode_parts (h : l.units ≠ []) :
    l.encode ≠ [] ∧ l.encode.splitOn ',' = l.steps.map encodeStep := by
  have hsteps : l.steps ≠ [] := by simpa [units] using h
  have hparts : l.encode.splitOn ',' = l.steps.map encodeStep := by
    apply List.splitOn_intercalate
    · intro part hpart
      obtain ⟨s, -, rfl⟩ := List.mem_map.mp hpart
      exact not_mem_encodeStep s
    · simpa using hsteps
  refine ⟨?_, hparts⟩
  intro hnil
  obtain ⟨s, rest, hs⟩ := List.exists_cons_of_ne_nil hsteps
  rw [hnil, hs] at hparts
  have hempty : encodeStep s = [] := by simpa using (List.cons.inj hparts).1.symm
  simp [encodeStep] at hempty

/-- The numbers a rung spells. -/
def rungOf (raw : Text) : Option (Nat × Nat) :=
  (Text.splitOnce ':' raw).map fun r => (Nat.ofDigitChars 10 r.1 0, Nat.ofDigitChars 10 r.2 0)

theorem rungOf_encodeStep (s : Step) : rungOf (encodeStep s) = some (s.price, s.quantity) := by
  simp only [rungOf, splitOnce_encodeStep, Option.map_some, Text.decimal,
    Nat.ofDigitChars_ten_toDigits]

theorem encode_units (h : l.encode = l'.encode) (hl : l.units ≠ []) (hl' : l'.units ≠ []) :
    l.units = l'.units := by
  have hmap : l.steps.map encodeStep = l'.steps.map encodeStep := by
    rw [← (encode_parts hl).2, ← (encode_parts hl').2, h]
  have hrungs : ∀ l : Ladder, (l.steps.map encodeStep).map rungOf = l.units.map some := by
    intro l
    simp only [units, List.map_map, Function.comp_def, rungOf_encodeStep]
  apply List.map_injective_iff.mpr (Option.some_injective _)
  rw [← hrungs, ← hrungs, hmap]

theorem decodeStep_encodeStep {s : Step} (hprice : 0 < s.price ∧ s.price ≤ maxU64)
    (hquantity : 0 < s.quantity ∧ s.quantity ≤ maxU64) :
    decodeStep (encodeStep s) = some (s.price, s.quantity) := by
  simp [decodeStep, splitOnce_encodeStep, Text.parseNat_decimal hprice.2,
    Text.parseNat_decimal hquantity.2, hprice.1, hquantity.1]

theorem decodeStep_free {s : Step} (hprice : s.price = 0) : decodeStep (encodeStep s) = none := by
  have hzero : Text.parseNat maxU64 (Text.decimal 0) = some 0 := Text.parseNat_decimal (Nat.zero_le _)
  cases hread : Text.parseNat maxU64 (Text.decimal s.quantity) with
  | none => simp [decodeStep, splitOnce_encodeStep, hprice, hzero, hread]
  | some q => simp [decodeStep, splitOnce_encodeStep, hprice, hzero, hread]

/-- Of a ladder with positive 64-bit quantities the rungs that have a price are read back. -/
theorem decode_encode_priced (h : l.units ≠ [])
    (hpos : ∀ e ∈ l.units, e.1 ≤ maxU64 ∧ 0 < e.2 ∧ e.2 ≤ maxU64) :
    decode l.encode = ofUnits (l.units.filter fun e => 0 < e.1) := by
  obtain ⟨hne, hparts⟩ := encode_parts h
  have hread : ∀ s ∈ l.steps, decodeStep (encodeStep s) =
      if 0 < s.price then some (s.price, s.quantity) else none := by
    intro s hs
    have hunit := hpos (s.price, s.quantity) (List.mem_map.mpr ⟨s, hs, rfl⟩)
    by_cases hprice : 0 < s.price
    · rw [if_pos hprice, decodeStep_encodeStep ⟨hprice, hunit.1⟩ hunit.2]
    · rw [if_neg hprice, decodeStep_free (Nat.eq_zero_of_not_pos hprice)]
  have hunits : (l.steps.map encodeStep).filterMap decodeStep = l.units.filter fun e => 0 < e.1 := by
    rw [units, ← List.filterMap_eq_filter, List.filterMap_map, List.filterMap_map]
    apply List.filterMap_congr
    intro s hs
    rw [Function.comp_apply, hread s hs]
    by_cases hprice : 0 < s.price <;> simp [Option.guard, hprice]
  rw [decode, if_neg (by simpa using hne), hparts, hunits]

/-- What is stored of a ladder with positive 64-bit prices and quantities is read back. -/
theorem decode_encode (h : l.units ≠ [])
    (hpos : ∀ e ∈ l.units, (0 < e.1 ∧ e.1 ≤ maxU64) ∧ 0 < e.2 ∧ e.2 ≤ maxU64) :
    decode l.encode = ofUnits l.units := by
  rw [decode_encode_priced h fun e he => ⟨(hpos e he).1.2, (hpos e he).2⟩, List.filter_eq_self.mpr]
  intro e he
  simpa using (hpos e he).1.1

/-- A ladder is read back exactly when none of its rungs is free. -/
theorem decode_encode_iff {u : List (Nat × Nat)}
    (hu : ∀ e ∈ u, e.1 ≤ maxU64 ∧ 0 < e.2 ∧ e.2 ≤ maxU64) :
    decode (ofUnits u).encode = ofUnits u ↔ ∀ e ∈ u, e.1 ≠ 0 := by
  by_cases hnil : u = []
  · subst hnil
    simp [ofUnits, stepsFrom, encode, decode, empty]
  · rw [decode_encode_priced (by rwa [units_ofUnits]) (by rwa [units_ofUnits]), units_ofUnits]
    constructor
    · intro heq e he
      have hfilter : u.filter (fun e => 0 < e.1) = u := by
        rw [← units_ofUnits (u.filter _), heq, units_ofUnits]
      have hkept := List.filter_eq_self.mp hfilter e he
      simp only [decide_eq_true_eq] at hkept
      omega
    · intro hpriced
      rw [List.filter_eq_self.mpr]
      intro e he
      simpa using Nat.pos_of_ne_zero (hpriced e he)

end Gavel.Market.Ladder
