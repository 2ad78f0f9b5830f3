import Gavel.Lib.Groups
import Gavel.Server.AnalysisWork

/-!
# Partitioned analysis is the same analysis

Cutting a region's history and trimming the catalogue of every partition changes no row: the rows of
the partitions, one after the other, are those each item's history gives against its owner's whole
catalogue.
-/

namespace Gavel.Server

open Gavel.Cluster (Millis)
open Gavel.Market

variable {F : Floating} {region : Region} {ladders : Table Ladder} {owner : ItemId → Catalog}
  {windows : Catalog → List Window} {now : Millis} {history : List PriceSample}

/-! ## What the reduction reads from a catalogue -/

section Trim

variable {c : Catalog} {items : List ItemId} {item : ItemId} {w : Window} {key : MarketKey}
  {rows : List PriceSample} {ladder : Ladder} {ws : List Window}

@[simp] theorem bounds_trim : w.bounds (trim c items) now = w.bounds c now := by
  cases w <;> rfl

@[simp] theorem expectedBuckets_trim :
    w.expectedBuckets (trim c items) now = w.expectedBuckets c now := by
  simp [Window.expectedBuckets]

theorem mem_itemIds_of_rankOf {entry : CatalogItem} (h : (entry.rankOf item).isSome = true) :
    item ∈ entry.itemIds := by
  simp only [CatalogItem.rankOf, Option.isSome_map, List.find?_isSome, decide_eq_true_eq] at h
  obtain ⟨rank, hmem, rfl⟩ := h
  exact List.mem_map_of_mem hmem

theorem find_trim (h : item ∈ items) : (trim c items).find item = c.find item := by
  simp only [Catalog.find, trim, List.find?_filter]
  congr 1
  funext entry
  cases hrank : (entry.rankOf item).isSome with
  | false => simp
  | true =>
      have hkeep : entry.itemIds.any (items.contains ·) = true :=
        List.any_eq_true.mpr ⟨item, mem_itemIds_of_rankOf hrank, by simpa using h⟩
      simp only [hkeep, and_self, decide_true]

/-- A trimmed catalogue gives a kept market the rows the whole one gives it. -/
theorem commodity_trim (h : key.item ∈ items) :
    commodity F key rows ladder (trim c items) ws now = commodity F key rows ladder c ws now := by
  simp only [commodity, Catalog.targetOf, find_trim h, summarise, bounds_trim, expectedBuckets_trim]

end Trim

/-! ## Cutting -/

/-- What a market is sent as: its rows under the key and the ladder of its first one. -/
def sent (ladders : Table Ladder) (owner : ItemId → Catalog) (first : PriceSample)
    (rows : List PriceSample) : Sent :=
  let key := (owner first.item).marketOf first
  (key, rows, (ladders[key.item]?).getD Ladder.empty)

/-- The market of one run of rows. -/
def sentOf (ladders : Table Ladder) (owner : ItemId → Catalog) (rows : List PriceSample) :
    Option Sent :=
  rows.head?.map fun first => sent ladders owner first rows

@[simp] theorem sent_item {first : PriceSample} {rows : List PriceSample} :
    (sent ladders owner first rows).1.item = first.item := rfl

/-- Put a market into what is being filled. -/
def Cut.put (ladders : Table Ladder) (owner : ItemId → Catalog) (first : PriceSample)
    (rows : List PriceSample) (c : Cut) : Cut :=
  { c with
    current := c.current ++ [sent ladders owner first rows]
    catalog := some (owner first.item) }

/-- Taking a market is putting it into what has room for it. -/
theorem Cut.take_cons (c : Cut) (first : PriceSample) (rows : List PriceSample) :
    c.take region ladders owner windows now (first :: rows) =
      (if c.full (owner first.item) then c.close region windows now else some c).map
        (Cut.put ladders owner first (first :: rows)) := by
  simp only [Cut.take, List.head?_cons, Option.bind_eq_bind, Option.bind_some, Option.pure_def]
  split
  · cases c.close region windows now <;> rfl
  · rfl

theorem Cut.ne_nil_of_full {c : Cut} {catalog : Catalog} (h : c.full catalog = true) :
    c.current ≠ [] := by
  intro hnil
  simp [Cut.full, hnil, partitionMarkets] at h

theorem Cut.room_of_not_full {c : Cut} {catalog : Catalog} (h : c.full catalog = false) :
    c.current.length < partitionMarkets ∧
      (c.current = [] ∨ c.catalog.any (·.id = catalog.id) = true) := by
  simp only [Cut.full, Bool.or_eq_false_iff, decide_eq_false_iff_not, Nat.not_le] at h
  refine ⟨h.2, ?_⟩
  cases hsame : c.catalog.any (·.id = catalog.id) with
  | true => exact .inr rfl
  | false => exact .inl (by simpa [hsame] using h.1)

/-- A partition as it is sealed: some markets, not too many, of one catalogue. -/
structure Sealed (region : Region) (owner : ItemId → Catalog) (windows : Catalog → List Window)
    (now : Millis) (input : Input) (c : Catalog) : Prop where
  eq : input = finish region c input.markets windows now
  nonempty : input.markets ≠ []
  few : input.markets.length ≤ partitionMarkets
  owned : ∀ m ∈ input.markets, owner m.1.item = c

/-- What holds of a cut after the runs in `done`. -/
structure Cut.Holds (region : Region) (ladders : Table Ladder) (owner : ItemId → Catalog)
    (windows : Catalog → List Window) (now : Millis) (done : List (List PriceSample)) (c : Cut) :
    Prop where
  markets : c.out.flatMap Input.markets ++ c.current = done.filterMap (sentOf ladders owner)
  closed : ∀ input ∈ c.out, ∃ catalog, Sealed region owner windows now input catalog
  few : c.current.length ≤ partitionMarkets
  owned : ∀ m ∈ c.current, c.catalog = some (owner m.1.item)
  empty : c.current = [] → c.catalog = none

namespace Cut.Holds

variable {done : List (List PriceSample)} {c : Cut}

theorem initial : Holds region ladders owner windows now [] ⟨[], [], none⟩ :=
  ⟨rfl, by simp, by simp, by simp, fun _ => rfl⟩

/-- Markets being filled have a catalogue, and it is the owner of each of them. -/
theorem catalog_eq (h : Holds region ladders owner windows now done c) (hne : c.current ≠ []) :
    ∃ held, c.catalog = some held ∧ ∀ m ∈ c.current, owner m.1.item = held := by
  obtain ⟨m, hm⟩ := List.exists_mem_of_ne_nil _ hne
  refine ⟨owner m.1.item, h.owned m hm, ?_⟩
  intro m' hm'
  have heq := (h.owned m hm).symm.trans (h.owned m' hm')
  exact (Option.some.inj heq).symm

/-- Sealing what is being filled never misses a catalogue and loses no market. -/
theorem close (h : Holds region ladders owner windows now done c) (hne : c.current ≠ []) :
    ∃ c', c.close region windows now = some c' ∧ c'.current = [] ∧
      Holds region ladders owner windows now done c' := by
  obtain ⟨held, hcat, hown⟩ := h.catalog_eq hne
  refine ⟨⟨c.out ++ [finish region held c.current windows now], [], none⟩, ?_, rfl, ?_⟩
  · simp only [Cut.close, hcat, Option.map_some]
  constructor
  · simp only [List.flatMap_append, List.flatMap_cons, List.flatMap_nil, finish, List.append_nil]
    exact h.markets
  · intro input hin
    rcases List.mem_append.mp hin with hin | hin
    · exact h.closed input hin
    · rw [List.mem_singleton.mp hin]
      exact ⟨held, rfl, hne, h.few, hown⟩
  · simp
  · simp
  · intro _
    rfl

/-- One more run of rows is taken whole, into a partition of its own catalogue that has room. -/
theorem push (howner : ∀ i j, (owner i).id = (owner j).id → owner i = owner j)
    (h : Holds region ladders owner windows now done c) {first : PriceSample}
    {rows : List PriceSample} (hroom : c.current.length < partitionMarkets)
    (hsame : c.current = [] ∨ c.catalog.any (·.id = (owner first.item).id) = true) :
    Holds region ladders owner windows now (done ++ [first :: rows])
      (c.put ladders owner first (first :: rows)) := by
  have hown : ∀ m ∈ c.current, owner m.1.item = owner first.item := by
    intro m hm
    rcases hsame with hnil | hsame
    · rw [hnil] at hm
      cases hm
    · rw [h.owned m hm] at hsame
      exact howner _ _ (by simpa using hsame)
  constructor
  · simp only [Cut.put, ← List.append_assoc, h.markets, List.filterMap_append]
    rfl
  · exact h.closed
  · simp only [Cut.put, List.length_append, List.length_singleton]
    omega
  · intro m hm
    rcases List.mem_append.mp hm with hm | hm
    · rw [hown m hm]
      rfl
    · rw [List.mem_singleton.mp hm, sent_item]
      rfl
  · intro hnil
    simp [Cut.put] at hnil

/-- Taking a market goes through and keeps what holds. -/
theorem take (howner : ∀ i j, (owner i).id = (owner j).id → owner i = owner j)
    (h : Holds region ladders owner windows now done c) {group : List PriceSample}
    (hgroup : group ≠ []) :
    ∃ c', c.take region ladders owner windows now group = some c' ∧
      Holds region ladders owner windows now (done ++ [group]) c' := by
  obtain ⟨first, rows, rfl⟩ := List.exists_cons_of_ne_nil hgroup
  rw [take_cons]
  cases hfull : c.full (owner first.item) with
  | true =>
      obtain ⟨c', hclose, hnil, h'⟩ := h.close (ne_nil_of_full hfull)
      refine ⟨_, ?_, h'.push howner (by simp [hnil, partitionMarkets]) (.inl hnil)⟩
      simp only [if_true, hclose, Option.map_some]
  | false =>
      obtain ⟨hroom, hsame⟩ := room_of_not_full hfull
      refine ⟨_, ?_, h.push howner hroom hsame⟩
      simp only [Bool.false_eq_true, if_false, Option.map_some]

theorem takes (howner : ∀ i j, (owner i).id = (owner j).id → owner i = owner j)
    {groups : List (List PriceSample)} (hgroups : ∀ g ∈ groups, g ≠ [])
    (h : Holds region ladders owner windows now done c) :
    ∃ c', groups.foldlM (Cut.take region ladders owner windows now) c = some c' ∧
      Holds region ladders owner windows now (done ++ groups) c' := by
  induction groups generalizing c done with
  | nil => exact ⟨c, rfl, by simpa using h⟩
  | cons g groups ih =>
      obtain ⟨c₁, hc₁, h₁⟩ := h.take howner (hgroups g List.mem_cons_self)
      obtain ⟨c', hc', h'⟩ := ih (fun g' hg' => hgroups g' (List.mem_cons_of_mem _ hg')) h₁
      refine ⟨c', ?_, by simpa using h'⟩
      simp only [List.foldlM_cons, hc₁, Option.bind_eq_bind, Option.bind_some]
      exact hc'

end Cut.Holds

/-- A cut seals every market of the history, in order, each partition with its own catalogue. -/
theorem partition_sealed (howner : ∀ i j, (owner i).id = (owner j).id → owner i = owner j) :
    ∃ inputs, partition region ladders owner windows now history = some inputs ∧
      inputs.flatMap Input.markets = (grouped history).filterMap (sentOf ladders owner) ∧
      ∀ input ∈ inputs, ∃ catalog, Sealed region owner windows now input catalog := by
  have hgroups : ∀ g ∈ grouped history, g ≠ [] := fun g hg => List.ne_nil_of_mem_splitBy hg
  obtain ⟨c, hc, h⟩ := Cut.Holds.takes howner hgroups
    (@Cut.Holds.initial region ladders owner windows now)
  simp only [List.nil_append] at h
  by_cases hnil : c.current = []
  · refine ⟨c.out, ?_, ?_, h.closed⟩
    · simp only [partition, hc, Option.bind_eq_bind, Option.bind_some, h.empty hnil, Option.pure_def]
    · have hmarkets := h.markets
      rwa [hnil, List.append_nil] at hmarkets
  · obtain ⟨held, hcat, -⟩ := h.catalog_eq hnil
    obtain ⟨c', hclose, hnil', h'⟩ := h.close hnil
    have hout : c'.out = c.out ++ [finish region held c.current windows now] := by
      simp only [Cut.close, hcat, Option.map_some, Option.some.injEq] at hclose
      rw [← hclose]
    refine ⟨c'.out, ?_, ?_, h'.closed⟩
    · simp only [partition, hc, Option.bind_eq_bind, Option.bind_some, hcat, Option.pure_def, hout]
    · have hmarkets := h'.markets
      rwa [hnil', List.append_nil] at hmarkets

/-! ## The rows -/

/-- The items of a history, in order. -/
def itemsOf (history : List PriceSample) : List ItemId :=
  Groups.keys (· ≤ ·) PriceSample.item history

/-- The rows of one item. -/
def rowsOf (history : List PriceSample) (item : ItemId) : List PriceSample :=
  history.filter (·.item = item)

/-- The result of one item's rows against its owner's untrimmed catalogue. -/
def direct (F : Floating) (ladders : Table Ladder) (owner : ItemId → Catalog)
    (windows : Catalog → List Window) (now : Millis) (history : List PriceSample) (item : ItemId) :
    Option Materialised :=
  (rowsOf history item).head?.map fun first =>
    let key := (owner item).marketOf first
    commodity F key (rowsOf history item) ((ladders[key.item]?).getD Ladder.empty) (owner item)
      (windows (owner item)) now

/-- The runs of an ordered history are the rows of its items. -/
theorem grouped_eq (hordered : history.Pairwise fun a b => a.item ≤ b.item) :
    grouped history = (itemsOf history).map (rowsOf history) :=
  Groups.splitBy_eq_groups hordered

theorem item_of_head_rowsOf {item : ItemId} {first : PriceSample}
    (h : (rowsOf history item).head? = some first) : first.item = item := by
  have hmem : first ∈ rowsOf history item := List.mem_of_head? h
  simpa [rowsOf] using (List.mem_filter.mp hmem).2

/-- The market an item's rows are sent as, reduced against the whole catalogue, is the direct one. -/
theorem direct_eq_sentOf (item : ItemId) :
    direct F ladders owner windows now history item =
      (sentOf ladders owner (rowsOf history item)).map fun m =>
        commodity F m.1 m.2.1 m.2.2 (owner m.1.item) (windows (owner m.1.item)) now := by
  simp only [direct, sentOf, Option.map_map]
  cases hhead : (rowsOf history item).head? with
  | none => rfl
  | some first =>
      have hitem := item_of_head_rowsOf hhead
      subst hitem
      rfl

/-- A sealed partition gives each of its markets the rows the owner's whole catalogue gives it. -/
theorem Sealed.rows_eq {input : Input} {c : Catalog} (h : Sealed region owner windows now input c) :
    input.rows F = input.markets.map fun m =>
      commodity F m.1 m.2.1 m.2.2 (owner m.1.item) (windows (owner m.1.item)) now := by
  simp only [Input.rows]
  apply List.map_congr_left
  intro m hm
  have hkept : m.1.item ∈ input.markets.map fun m => m.1.item := List.mem_map_of_mem hm
  rw [h.owned m hm, h.eq]
  simp only [finish]
  exact commodity_trim hkept

/-- The markets sent, with their rows: those of the items, each once and whole. -/
theorem filterMap_sentOf_items (history : List PriceSample) :
    ((itemsOf history).filterMap fun i => sentOf ladders owner (rowsOf history i)).map
        (fun m => (m.1.item, m.2.1)) =
      (itemsOf history).map fun i => (i, rowsOf history i) := by
  rw [List.map_filterMap, ← List.filterMap_eq_map]
  apply List.filterMap_congr
  intro i hi
  obtain ⟨a, ha, hitem⟩ := Groups.mem_keys.mp hi
  have hmem : a ∈ rowsOf history i := List.mem_filter.mpr ⟨ha, by simpa using hitem⟩
  obtain ⟨first, hfirst⟩ : ∃ first, (rowsOf history i).head? = some first := by
    cases hrows : rowsOf history i with
    | nil => rw [hrows] at hmem; cases hmem
    | cons first rest => exact ⟨first, rfl⟩
  simp [sentOf, hfirst, sent, item_of_head_rowsOf hfirst, Catalog.marketOf, MarketKey.ofCommodity,
    MarketKey.item]

/-- Partitioning preserves the analysis: the rows of the partitions are, market by market and in
order, the direct results over each item's rows; no market is lost, duplicated or split; every
partition is non-empty and holds at most `partitionMarkets` markets of one catalogue. -/
theorem partition_same_analysis (F : Floating) (region : Region) (ladders : Table Ladder)
    (owner : ItemId → Catalog) (windows : Catalog → List Window) (now : Millis)
    (history : List PriceSample) (hordered : history.Pairwise fun a b => a.item ≤ b.item)
    (howner : ∀ i j, (owner i).id = (owner j).id → owner i = owner j) :
    ∃ inputs, partition region ladders owner windows now history = some inputs ∧
      inputs.flatMap (Input.rows F) =
        (itemsOf history).filterMap (direct F ladders owner windows now history) ∧
      (inputs.flatMap Input.markets).map (fun m => (m.1.item, m.2.1)) =
        (itemsOf history).map (fun i => (i, rowsOf history i)) ∧
      ∀ input ∈ inputs, input.markets ≠ [] ∧ input.markets.length ≤ partitionMarkets ∧
        ∃ catalog, ∀ m ∈ input.markets, owner m.1.item = catalog := by
  obtain ⟨inputs, hpart, hmarkets, hsealed⟩ :=
    @partition_sealed region ladders owner windows now history howner
  rw [grouped_eq hordered, List.filterMap_map] at hmarkets
  refine ⟨inputs, hpart, ?_, ?_, ?_⟩
  · have hrows : inputs.flatMap (Input.rows F) = (inputs.flatMap Input.markets).map fun m =>
        commodity F m.1 m.2.1 m.2.2 (owner m.1.item) (windows (owner m.1.item)) now := by
      rw [List.map_flatMap]
      apply List.flatMap_congr
      intro input hin
      obtain ⟨catalog, h⟩ := hsealed input hin
      exact h.rows_eq
    rw [hrows, hmarkets, List.map_filterMap]
    apply List.filterMap_congr
    intro item _
    exact (direct_eq_sentOf item).symm
  · rw [hmarkets]
    exact filterMap_sentOf_items history
  · intro input hin
    obtain ⟨catalog, h⟩ := hsealed input hin
    exact ⟨h.nonempty, h.few, catalog, h.owned⟩

/-- An observation of an item on sale at a hundred copper. -/
def hundred (item : ItemId) (at' : Millis) : PriceSample := ⟨item, .eu, at', 90, 100, 110, 5, 2⟩

/-- A catalogue with one item of two ranks. -/
def flasks : Catalog :=
  { id := "flasks".toList
    expansion := "flasks".toList
    status := .active
    catalogVersion := 1
    patches := [⟨"1.0".toList, "first".toList, "2026-01-06".toList⟩]
    raidTiers := []
    items := [⟨"flask".toList, .consumable, [⟨1, 7⟩, ⟨2, 8⟩], none, none⟩]
    itemLevels := []
    tracks := []
    modifiers := []
    notes := [] }

/-- Item 7 is read against one catalogue and every other item against another. -/
def splitOwner (item : ItemId) : Catalog := if item = 7 then flasks else { flasks with id := "herbs".toList }

/-- Three observations of two items are cut between the catalogues. -/
theorem partition_same_analysis_cut :
    ∃ inputs,
      partition .eu ∅ splitOwner Window.allFor (3 * hourMs)
          [hundred 7 hourMs, hundred 7 (2 * hourMs), hundred 8 hourMs] = some inputs ∧
        inputs.map (fun input => input.markets.length) = [1, 1] ∧
        (inputs.flatMap Input.markets).map (fun m => (m.1.item, m.2.1)) =
          [(7, [hundred 7 hourMs, hundred 7 (2 * hourMs)]), (8, [hundred 8 hourMs])] := by
  have howner : ∀ i j, (splitOwner i).id = (splitOwner j).id → splitOwner i = splitOwner j := by
    intro i j hid
    unfold splitOwner at hid ⊢
    split_ifs at hid ⊢ <;> first | rfl | exact absurd hid (by decide)
  obtain ⟨inputs, hpart, -, hmarkets, -⟩ := partition_same_analysis
    ⟨fun prices _ => prices.headD 0, fun _ _ => none⟩ .eu ∅ splitOwner Window.allFor (3 * hourMs)
    [hundred 7 hourMs, hundred 7 (2 * hourMs), hundred 8 hourMs] (by decide) howner
  have hcut : (partition .eu ∅ splitOwner Window.allFor (3 * hourMs)
      [hundred 7 hourMs, hundred 7 (2 * hourMs), hundred 8 hourMs]).map
        (fun inputs => inputs.map fun input => input.markets.length) = some [1, 1] := by rfl
  rw [hpart] at hcut
  exact ⟨inputs, hpart, Option.some.inj hcut, hmarkets⟩

end Gavel.Server
