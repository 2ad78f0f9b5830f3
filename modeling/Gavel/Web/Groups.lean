import Gavel.Web.Categories
import Gavel.Web.Query

/-!
# Sections that arrive on their own

Which sections of a category page come with the first response, the address each of the others is fetched
from, and what the fragment handler answers such an address with.
-/

namespace Gavel.Web

open Gavel.Market (Region)

/-- A section of a category page that can arrive on its own. The template reads whether it is deferred and
where its cards come from then. -/
class Deferrable (G : Type) where
  cardCount : G → Nat
  slug : G → Text
  deferred : G → Bool
  href : G → Text
  deferTo : G → Text → G
  undefer : G → G
  cardCount_deferTo : ∀ g target, cardCount (deferTo g target) = cardCount g
  slug_deferTo : ∀ g target, slug (deferTo g target) = slug g
  deferred_deferTo : ∀ g target, deferred (deferTo g target) = true
  href_deferTo : ∀ g target, href (deferTo g target) = target
  undefer_deferTo : ∀ g target, undefer (deferTo g target) = undefer g
  slug_undefer : ∀ g, slug (undefer g) = slug g
  deferred_undefer : ∀ g, deferred (undefer g) = false

/-- A section of commodity cards. -/
structure CardGroup (Card : Type) where
  audience : Text
  label : Text
  cards : List Card
  deferred : Bool
  href : Text
  deriving DecidableEq

/-- A headed run of gear cards. -/
structure GearGroup (Card : Type) where
  label : Text
  anchor : Text
  cards : List Card
  deferred : Bool
  href : Text
  deriving DecidableEq

instance cardGroupDeferrable (Card : Type) : Deferrable (CardGroup Card) where
  cardCount g := g.cards.length
  slug g := g.audience
  deferred g := g.deferred
  href g := g.href
  deferTo g target := { g with deferred := true, href := target }
  undefer g := { g with deferred := false, href := [] }
  cardCount_deferTo _ _ := rfl
  slug_deferTo _ _ := rfl
  deferred_deferTo _ _ := rfl
  href_deferTo _ _ := rfl
  undefer_deferTo _ _ := rfl
  slug_undefer _ := rfl
  deferred_undefer _ := rfl

instance gearGroupDeferrable (Card : Type) : Deferrable (GearGroup Card) where
  cardCount g := g.cards.length
  slug g := g.anchor
  deferred g := g.deferred
  href g := g.href
  deferTo g target := { g with deferred := true, href := target }
  undefer g := { g with deferred := false, href := [] }
  cardCount_deferTo _ _ := rfl
  slug_deferTo _ _ := rfl
  deferred_deferTo _ _ := rfl
  href_deferTo _ _ := rfl
  undefer_deferTo _ _ := rfl
  slug_undefer _ := rfl
  deferred_undefer _ := rfl

namespace Sections

open Deferrable

variable {G : Type} [Deferrable G]

/-- The cards of some groups. -/
def total (groups : List G) : Nat := (groups.map cardCount).sum

/-- The loop over the groups, after this many cards are inlined. -/
def deferAfter (target : Text → Text) : Nat → List G → List G
  | _, [] => []
  | inlined, g :: groups =>
      -- The first group is always inlined whatever its size.
      if inlined = 0 ∨ inlined + cardCount g ≤ Site.inlineLimit then
        g :: deferAfter target (inlined + cardCount g) groups
      else deferTo g (target (Deferrable.slug g)) :: deferAfter target inlined groups

/-- Inline groups until the budget is spent, and defer the rest. -/
def defer (groups : List G) (searching : Bool) (target : Text → Text) : List G :=
  if searching then groups
  else if total groups ≤ Site.inlineLimit then groups
  else deferAfter target 0 groups

/-- The group that is wanted, as the answer and not a placeholder for it. -/
def only (groups : List G) (wanted : Text) : Option G :=
  (groups.find? fun g => Deferrable.slug g = wanted).map undefer

end Sections

/-- The groups a gear page builds from its sections, each a label, an anchor and its cards: those that
have cards, with nothing deferred yet. -/
def gearGroups {Card : Type} (sections : List (Text × Text × List Card)) : List (GearGroup Card) :=
  sections.filterMap fun (label, anchor, cards) =>
    if cards.isEmpty then none else some ⟨label, anchor, cards, false, []⟩

/-! ## Addresses -/

/-- The pages that defer, with what their addresses say besides the catalogue and the group. -/
inductive SectionPage where
  | gear (region : Region) (realm : RealmChoice)
  | recipes (region : Region) (realm : RealmChoice)
  | reagents
  | enchants

namespace SectionPage

def fragmentPath : SectionPage → Text
  | .gear _ _ => "/partials/gear".toList
  | .recipes _ _ => "/partials/recipes".toList
  | .reagents => "/partials/reagents".toList
  | .enchants => "/partials/enchants".toList

/-- The address a group is fetched from. -/
def deferHref (page : SectionPage) (catalogId group : Text) : Text :=
  match page with
  | .gear region realm | .recipes region realm =>
      page.fragmentPath ++ "?expansion=".toList ++ queryValue catalogId ++ "&region=".toList ++
        region.asStr ++ "&realm=".toList ++ queryValue (realm.getD []) ++ "&group=".toList ++
        queryValue group
  | .reagents | .enchants =>
      page.fragmentPath ++ "?expansion=".toList ++ queryValue catalogId ++ "&group=".toList ++
        queryValue group

end SectionPage

namespace SearchParams

/-- The value of a field of a form; a field that is given twice is refused. -/
def field (name : Text) (pairs : List (Text × Text)) : Option (Option Text) :=
  match pairs.filter fun pair => pair.1 = name with
  | [] => some none
  | [pair] => some (some pair.2)
  | _ => none

/-- The parameters of a query string; the other fields are not looked at. -/
def fromQuery (parser : FormParser) (query : Text) : Option SearchParams := do
  let pairs ← parser.fromStr query
  let q ← field "q".toList pairs
  let group ← field "group".toList pairs
  let expansion ← field "expansion".toList pairs
  some ⟨q, group, expansion⟩

end SearchParams

/-- The path and the parameters of an address. -/
def readAddress (parser : FormParser) (uri : Text) : Option (Text × SearchParams) := do
  let (path, query) ← Text.splitOnce '?' uri
  let params ← SearchParams.fromQuery parser query
  some (path, params)

/-- The group the fragment handler of a page answers an address with, when it builds these groups; `none`
is not found. -/
def answerGroup {G : Type} [Deferrable G] (parser : FormParser) (page : SectionPage) (catalogId : Text)
    (groups : List G) (uri : Text) : Option G := do
  let (path, params) ← readAddress parser uri
  let wanted ← params.group
  if path = page.fragmentPath then
    Sections.only (Sections.defer groups params.needle.isSome (page.deferHref catalogId)) wanted
  else none

end Gavel.Web
