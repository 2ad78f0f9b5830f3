import Gavel.Lib.Groups
import Gavel.Lib.Sorting
import Gavel.Market.Catalog

/-!
# The archive

Expansions, the patches under them and the raid tiers the patches opened, merged across the catalogues
of an expansion: a rollover ships a new catalogue, which restates the tiers of the one before it.
-/

namespace Gavel.Market

open Gavel.Cluster (Millis)
open Gavel.Sorting

structure ArchivedTier where
  id : Text
  name : Text
  patch : Text
  opened : Millis
  /-- When the next tier of the expansion opened. -/
  until' : Option Millis
  season : Option Nat
  /-- The catalogue that opened the tier. -/
  catalog : Text
  /-- The catalogues that declare it, newest first. -/
  declaredBy : List Text
  deriving DecidableEq

structure ArchivedPatch where
  patch : Text
  name : Text
  started : Millis
  until' : Option Millis
  catalogs : List Text
  tiers : List ArchivedTier
  deriving DecidableEq

structure ArchivedExpansion where
  slug : Text
  name : Text
  catalogs : List Text
  collecting : Bool
  from' : Millis
  until' : Option Millis
  patches : List ArchivedPatch
  deriving DecidableEq

structure Archive where
  expansions : List ArchivedExpansion
  deriving DecidableEq

/-- Texts in the order of their code points. -/
def textLe (a b : Text) : Prop := (compare a b).isLE = true

instance textLe.decidable (a b : Text) : Decidable (textLe a b) := inferInstanceAs (Decidable (_ = true))

/-! ## What a catalogue says of its tiers -/

namespace Catalog

/-- The tier that opened last. -/
def currentTier (c : Catalog) : Option RaidTier := maxBy RaidTier.openedAt c.raidTiers

/-- When the last patch of a catalogue started. -/
def latestPatch (c : Catalog) : Millis := ((c.patches.map Patch.startedAt).max?).getD 0

def declares (c : Catalog) (tier : Text) : Bool := c.raidTiers.any (·.id = tier)

/-- A mistake in the data of a catalogue. -/
inductive Problem where
  | patchDate (patch started : Text)
  | tierTwice (tier : Text) (count : Nat)
  | tierDate (tier opened : Text)
  | noPatch (tier patch : Text)
  | early (tier opened patch started : Text)
  deriving DecidableEq

/-- What is wrong with one tier. -/
def tierProblem (c : Catalog) (tier : RaidTier) : Option Problem :=
  if (parseDate tier.opened).isNone then some (.tierDate tier.id tier.opened)
  else match c.patches.find? (·.patch = tier.patch) with
    | none => some (.noPatch tier.id tier.patch)
    | some patch =>
        if tier.openedAt < patch.startedAt then
          some (.early tier.id tier.opened patch.patch patch.started)
        else none

def problems (c : Catalog) : List Problem :=
  (c.patches.filter fun p => (parseDate p.started).isNone).map (fun p => .patchDate p.patch p.started) ++
    ((Groups.grouped textLe RaidTier.id c.raidTiers).filter fun g => 1 < g.2.length).map
      (fun g => .tierTwice g.1 g.2.length) ++
    c.raidTiers.filterMap c.tierProblem

/-- Newest first: by the last patch, by the number of tiers, by id. -/
def byNewest : Catalog → Catalog → Ordering :=
  compareLex (fun a b => compare b.latestPatch a.latestPatch)
    (compareLex (fun a b => compare b.raidTiers.length a.raidTiers.length) (compareOn Catalog.id))

end Catalog

/-! ## One expansion -/

/-- The form of a name in a URL. -/
def slug (name : Text) : Text :=
  let out := name.foldl (fun out c =>
    if c.isAlphanum then out ++ [c.toLower] else if out.getLast? = some '-' then out else out ++ ['-']) []
  ((out.dropWhile (· = '-')).reverse.dropWhile (· = '-')).reverse

/-- The patches of an expansion's catalogues, each with the catalogue that declares it. -/
def declaredPatches (catalogs : List Catalog) : List (Catalog × Patch) :=
  catalogs.flatMap fun c => c.patches.map fun p => (c, p)

/-- A patch as its first declaration has it, with the catalogues of all of them. -/
def mergedPatch (patch : Text) (declared : List (Catalog × Patch)) : ArchivedPatch :=
  { patch
    name := (declared.head?.map fun d => d.2.name).getD []
    started := (declared.head?.map fun d => d.2.startedAt).getD 0
    until' := none
    catalogs := firsts id [] (declared.map fun d => d.1.id)
    tiers := [] }

/-- The tiers of an expansion in the order they opened, each as the newest catalogue has it. -/
def mergedTiers (catalogs : List Catalog) : List RaidTier :=
  firsts RaidTier.id [] (sortBy RaidTier.openedAt (catalogs.flatMap Catalog.raidTiers))

/-- The catalogue whose last tier this is; else the oldest that declares it. -/
def opener (catalogs : List Catalog) (tier : RaidTier) : Text :=
  let declaring := catalogs.filter (·.declares tier.id)
  match (declaring.find? fun c => c.currentTier.any (·.id = tier.id)).or declaring.getLast? with
  | some c => c.id
  | none => []

/-- Every tier, closed when the next one opened. -/
def archivedTiers (catalogs : List Catalog) : List ArchivedTier :=
  let tiers := mergedTiers catalogs
  tiers.mapIdx fun i tier =>
    { id := tier.id
      name := tier.name
      patch := tier.patch
      opened := tier.openedAt
      until' := (tiers[i + 1]?).map RaidTier.openedAt
      season := tier.season
      catalog := opener catalogs tier
      declaredBy := (catalogs.filter (·.declares tier.id)).map Catalog.id }

/-- Every patch, with the tiers that name it. A tier that names no patch of the expansion is left out. -/
def archivedPatches (catalogs : List Catalog) : List ArchivedPatch :=
  sortBy ArchivedPatch.started <| (Groups.grouped textLe (fun d => d.2.patch) (declaredPatches catalogs)).map
    fun g => { mergedPatch g.1 g.2 with
      tiers := sortBy ArchivedTier.opened ((archivedTiers catalogs).filter (·.patch = g.1)) }

/-- The patches and tiers of one expansion, merged across its catalogues. -/
def expansion (name : Text) (catalogs : List Catalog) (collecting : Catalog → Bool) : ArchivedExpansion :=
  let patches := archivedPatches catalogs
  { slug := slug name
    name
    catalogs := catalogs.map Catalog.id
    collecting := catalogs.any collecting
    from' := (patches.head?.map ArchivedPatch.started).getD 0
    until' := none
    patches := (patches.mapIdx fun i p =>
      { p with until' := (patches[i + 1]?).map ArchivedPatch.started }).reverse }

/-! ## The hierarchy -/

namespace Archive

/-- The one that collects first, then the newest. -/
def display : ArchivedExpansion → ArchivedExpansion → Ordering :=
  compareLex (fun a b => compare b.collecting a.collecting)
    (compareLex (fun a b => compare b.from' a.from') (compareOn ArchivedExpansion.slug))

/-- Close an expansion when another began. -/
def close (expansions : List ArchivedExpansion) (pair : Nat × Nat) : List ArchivedExpansion :=
  match expansions[pair.2]? with
  | some later => expansions.modify pair.1 fun e => { e with until' := some later.from' }
  | none => expansions

/-- The expansions of the catalogues a visitor may see. -/
def of (catalogs : List Catalog) (collecting : Catalog → Bool) : Archive :=
  let expansions := sortWith display <| (Groups.grouped textLe Catalog.expansion catalogs).map fun g =>
    expansion g.1 (sortWith Catalog.byNewest g.2) collecting
  let order := sortBy (fun i => ((expansions[i]?).map ArchivedExpansion.from').getD 0)
    (List.range expansions.length)
  ⟨(order.zip order.tail).foldl close expansions⟩

/-- A catalogue that declares a tier and not the one after it. -/
structure Problem where
  reader : Text
  tier : Text
  next : Text
  deriving DecidableEq

/-- What is wrong between a tier and the next. -/
def tierProblem (pair : ArchivedTier × ArchivedTier) : Option Problem :=
  match pair.1.declaredBy.head? with
  | none => none
  | some reader =>
      if reader ∈ pair.2.declaredBy then none else some ⟨reader, pair.1.id, pair.2.id⟩

/-- The tiers of an expansion in the order they opened. -/
def tiersOf (e : ArchivedExpansion) : List ArchivedTier :=
  sortBy ArchivedTier.opened (e.patches.flatMap ArchivedPatch.tiers)

def problems (a : Archive) : List Problem :=
  a.expansions.flatMap fun e => ((tiersOf e).zip (tiersOf e).tail).filterMap tierProblem

end Archive

end Gavel.Market
