import Gavel.Market.Release

/-!
# One item, one owner

The page of one item takes the first entry of its catalogue, the index of all items the last one.
-/

namespace Gavel.Market

/-!
## What an item is found under

The entry the index holds for an item is the last that lists it, in the first public catalogue in
display order that has one.
-/

section

variable {β : Type} {s : CatalogSet} {states : ReleaseStates} {c : Catalog} {item : ItemId}

/-- An entry is about an item. -/
def CatalogItem.lists (entry : CatalogItem) (item : ItemId) : Bool := (entry.rankOf item).isSome

theorem CatalogItem.lists_iff {entry : CatalogItem} : entry.lists item = true ↔ item ∈ entry.itemIds := by
  simp [CatalogItem.lists, CatalogItem.rankOf, CatalogItem.itemIds]

/-- The last entry about an item. -/
def Catalog.last (c : Catalog) (item : ItemId) : Option CatalogItem := c.items.reverse.find? (·.lists item)

theorem get_insertIds (b : β) (ids : List ItemId) (m : Table β) (item : Nat) :
    (ids.foldl (fun m id => m.insert id b) m)[item]? = if item ∈ ids then some b else m[item]? := by
  induction ids generalizing m with
  | nil => rfl
  | cons id ids ih =>
      rw [List.foldl_cons, ih, Table.get_insert]
      by_cases heq : id = item
      · simp [heq]
      · simp [heq, Ne.symm heq]

/-- A catalogue's items are written over what is there, the last entry last. -/
theorem get_insertItems (value : CatalogItem → β) (m : Table β) (c : Catalog) (item : Nat) :
    (insertItems value m c)[item]? = ((c.last item).map value).or m[item]? := by
  rw [insertItems, Table.get_foldl_or (f := fun i => if i.lists item then some (value i) else none)]
  · congr 1
    rw [Catalog.last]
    induction c.items.reverse with
    | nil => rfl
    | cons i items ih =>
        rw [List.findSome?_cons, List.find?_cons, ih]
        by_cases h : i.lists item = true <;> simp [h]
  · intro m i
    rw [get_insertIds]
    by_cases h : i.lists item = true
    · rw [if_pos h, if_pos (CatalogItem.lists_iff.mp h), Option.some_or]
    · rw [if_neg h, if_neg (mt CatalogItem.lists_iff.mpr h), Option.none_or]

/-- In a pass over the catalogues from the last to the first, the first that lists an item stands. -/
theorem get_foldl_insertItems (value : Catalog → CatalogItem → β) (l : List Catalog) (item : Nat) :
    (l.reverse.foldl (fun m c => insertItems (value c) m c) ∅)[item]? =
      l.findSome? fun c => (c.last item).map (value c) := by
  rw [Table.get_foldl_or (fun m c => get_insertItems (value c) m c item), List.reverse_reverse,
    Table.get_empty, Option.or_none]

theorem get_publicOwners : (publicOwners s states)[item]? =
    (publicAll s states).findSome? fun c => (c.last item).map fun _ => c :=
  get_foldl_insertItems (fun c _ => c) _ _

theorem get_publicIndex : (publicIndex s states)[item]? =
    (publicAll s states).findSome? fun c => (c.last item).map fun entry => (c, entry) :=
  get_foldl_insertItems (fun c entry => (c, entry)) _ _

end

variable {s : CatalogSet} {states : ReleaseStates} {item : ItemId}

end Gavel.Market
