import Gavel.Lib.Text

/-!
# Rendered fragments

A bounded cache of rendered fragments. A key has one cell, which one call at a time may fill; a cell that
was dropped for its age may still be held by whoever found it before.
-/

namespace Gavel.Web

/-- Everything that decides what a fragment says, as one text. -/
structure FragmentKey where
  text : Text
  deriving DecidableEq

namespace FragmentKey

/-- `none` for the version is a state worth its own key. -/
def new (route : Text) (version : Option Nat) (catalog region : Text) (baselineDays : Nat)
    (realm locale : Text) (group : Option Text) : FragmentKey :=
  ⟨['|'].intercalate [route, 'v' :: (version.map Text.decimal).getD ['-'], catalog, region,
    Text.decimal baselineDays ++ ['d'], realm, locale, group.getD ['*']]⟩

/-- The key itself, quoted. -/
def etag (key : FragmentKey) : Text := '"' :: key.text ++ ['"']

end FragmentKey

/-- A cell: the key it was made for, its value once a build has succeeded, and the call whose build is
running. -/
structure Cell (α : Type) where
  key : FragmentKey
  value : Option α
  builder : Option Nat
  deriving DecidableEq

/-- The cells there are, the one of each key, and the keys in the order they were inserted. -/
structure FragmentCache (α : Type) where
  cells : List (Cell α)
  entries : List (FragmentKey × Nat)
  order : List FragmentKey
  deriving DecidableEq

namespace FragmentCache

variable {α : Type}

/-- Entries kept before the oldest is dropped. -/
def capacity : Nat := 512

def new : FragmentCache α := ⟨[], [], []⟩

/-- Drop the oldest entry while there are too many. -/
def evict (entries : List (FragmentKey × Nat)) :
    List FragmentKey → List (FragmentKey × Nat) × List FragmentKey
  | [] => (entries, [])
  | oldest :: order =>
      if capacity < (oldest :: order).length then evict (entries.filter fun e => e.1 ≠ oldest) order
      else (entries, oldest :: order)

/-- The cell of a key, an empty one if it has none. -/
def cellOf (cache : FragmentCache α) (key : FragmentKey) : FragmentCache α × Nat :=
  match cache.entries.find? (·.1 = key) with
  | some (_, i) => (cache, i)
  | none =>
      let i := cache.cells.length
      let (entries, order) := evict ((key, i) :: cache.entries) (cache.order ++ [key])
      (⟨cache.cells ++ [⟨key, none, none⟩], entries, order⟩, i)

/-- What a cell holds. -/
def value (cache : FragmentCache α) (i : Nat) : Option α := cache.cells[i]?.bind Cell.value

/-- Whether a call that finds no value may build one. -/
def isFree (cache : FragmentCache α) (i : Nat) : Bool := cache.cells[i]?.any (·.builder.isNone)

/-- A call begins its build. -/
def start (cache : FragmentCache α) (i caller : Nat) : FragmentCache α :=
  { cache with cells := cache.cells.modify i fun cell => { cell with builder := some caller } }

/-- A build ends. One that failed leaves the cell empty for the next caller. -/
def finish (cache : FragmentCache α) (i : Nat) (made : Option α) : FragmentCache α :=
  { cache with
    cells := cache.cells.modify i fun cell => { cell with value := cell.value.or made, builder := none } }

variable {cache : FragmentCache α} {key : FragmentKey} {cell : Cell α} {i j : Nat}

theorem mem_of_mem_evict {entries : List (FragmentKey × Nat)} {order : List FragmentKey}
    {e : FragmentKey × Nat} (h : e ∈ (evict entries order).1) : e ∈ entries := by
  induction order generalizing entries with
  | nil => exact h
  | cons oldest order ih =>
      unfold evict at h
      split at h
      · exact (List.mem_filter.mp (ih h)).1
      · exact h

/-- A key that is known has the cell of its entry; another gets an empty one, and no other entry. -/
theorem cellOf_cases (cache : FragmentCache α) (key : FragmentKey) :
    (∃ i, (key, i) ∈ cache.entries ∧ cache.cellOf key = (cache, i)) ∨
      (cache.cellOf key).2 = cache.cells.length ∧
        (cache.cellOf key).1.cells = cache.cells ++ [⟨key, none, none⟩] ∧
        ∀ e ∈ (cache.cellOf key).1.entries, e = (key, cache.cells.length) ∨ e ∈ cache.entries := by
  unfold cellOf
  split
  · rename_i found i hfind
    have hkey : found = key := by simpa using List.find?_some hfind
    exact .inl ⟨i, hkey ▸ List.mem_of_find?_eq_some hfind, rfl⟩
  · refine .inr ⟨rfl, rfl, fun e he => ?_⟩
    simpa using mem_of_mem_evict he

/-- Every entry names a cell of its key. -/
def Filed (cache : FragmentCache α) : Prop :=
  ∀ e ∈ cache.entries, cache.cells[e.2]?.map Cell.key = some e.1

theorem key_cellOf {k : FragmentKey} (h : cache.cells[j]?.map Cell.key = some k) :
    (cache.cellOf key).1.cells[j]?.map Cell.key = some k := by
  rcases cellOf_cases cache key with ⟨i, -, heq⟩ | ⟨-, hcells, -⟩
  · rwa [heq]
  · have hlt : j < cache.cells.length := by
      refine Nat.lt_of_not_le fun hle => ?_
      rw [List.getElem?_eq_none hle] at h
      cases h
    rwa [hcells, List.getElem?_append_left hlt]

theorem Filed.found (h : cache.Filed) (key : FragmentKey) :
    (cache.cellOf key).1.cells[(cache.cellOf key).2]?.map Cell.key = some key := by
  rcases cellOf_cases cache key with ⟨i, hi, heq⟩ | ⟨hlast, hcells, -⟩
  · rw [heq]
    exact h _ hi
  · rw [hcells, hlast]
    simp

theorem Filed.cellOf (h : cache.Filed) : (cache.cellOf key).1.Filed := by
  have hfound := h.found key
  rcases cellOf_cases cache key with ⟨i, -, heq⟩ | ⟨hlast, -, hentries⟩
  · rwa [heq]
  · intro e he
    rcases hentries e he with rfl | he
    · rwa [hlast] at hfound
    · exact key_cellOf (h e he)

theorem mem_cellOf (h : cell ∈ (cache.cellOf key).1.cells) :
    cell ∈ cache.cells ∨ cell = ⟨key, none, none⟩ := by
  rcases cellOf_cases cache key with ⟨i, -, heq⟩ | ⟨-, hcells, -⟩
  · rw [heq] at h
    exact .inl h
  · rw [hcells] at h
    exact (List.mem_append.mp h).imp_right List.mem_singleton.mp

/-- A build that begins or ends leaves the keys of the cells as they are. -/
theorem key_modify {f : Cell α → Cell α} (hf : ∀ cell, (f cell).key = cell.key) (cells : List (Cell α))
    (i j : Nat) : (cells.modify i f)[j]?.map Cell.key = cells[j]?.map Cell.key := by
  rw [List.getElem?_modify]
  cases cells[j]? with
  | none => rfl
  | some cell => by_cases h : i = j <;> simp [h, hf]

theorem key_start (cache : FragmentCache α) (i caller j : Nat) :
    (cache.start i caller).cells[j]?.map Cell.key = cache.cells[j]?.map Cell.key :=
  key_modify (f := fun cell => { cell with builder := some caller }) (fun _ => rfl) cache.cells i j

theorem key_finish (cache : FragmentCache α) (i : Nat) (made : Option α) (j : Nat) :
    (cache.finish i made).cells[j]?.map Cell.key = cache.cells[j]?.map Cell.key :=
  key_modify (f := fun cell => { cell with value := cell.value.or made, builder := none })
    (fun _ => rfl) cache.cells i j

/-- While the keys of the cells stay, so does what the entries name. -/
theorem Filed.of_keys {cache' : FragmentCache α} (h : cache.Filed) (hentries : cache'.entries = cache.entries)
    (hkeys : ∀ j : Nat, cache'.cells[j]?.map Cell.key = cache.cells[j]?.map Cell.key) : cache'.Filed :=
  fun e he => (hkeys e.2).trans (h e (hentries ▸ he))

/-- A cell after a change of one of them is that one changed, or was there. -/
theorem mem_modify {f : Cell α → Cell α} (h : cell ∈ cache.cells.modify i f) :
    cell ∈ cache.cells ∨ ∃ old, cache.cells[i]? = some old ∧ cell = f old := by
  obtain ⟨j, hj⟩ := List.mem_iff_getElem?.mp h
  rw [List.getElem?_modify] at hj
  cases hold : cache.cells[j]? with
  | none => simp [hold] at hj
  | some old =>
      by_cases hij : i = j
      · exact .inr ⟨old, hij ▸ hold, by simpa [hold, hij, eq_comm] using hj⟩
      · refine .inl (List.mem_of_getElem? (i := j) ?_)
        simpa [hold, hij] using hj

end FragmentCache

end Gavel.Web
