import Gavel.Market.Release
import Gavel.Storage.Releases
import Gavel.Web.FragmentCache
import Gavel.Web.Prefs

/-!
# Category pages

The pages of the auction house and the fragments they load: which catalogue a request is about, the key
its fragment is filed under, what is built, and the calls of many readers as they proceed while versions
are published and catalogues activated.
-/

namespace Gavel.Web

open Gavel.Cluster (Millis)
open Gavel.Market (Region Catalog CatalogItem CatalogSet ItemKind ReleaseStates)
open Gavel.Storage (Releases)

/-! ## Sections -/

inductive Audience where
  | melee | caster | common
  deriving DecidableEq

namespace Audience

def all : List Audience := [.melee, .caster, .common]

def asStr : Audience → Text
  | .melee => "melee".toList
  | .caster => "caster".toList
  | .common => "common".toList

end Audience

inductive Profession where
  | alchemy | blacksmithing | cooking | enchanting | engineering | fishing | herbalism | inscription
  | jewelcrafting | leatherworking | mining | skinning | tailoring | shared
  deriving DecidableEq

namespace Profession

def all : List Profession :=
  [.alchemy, .blacksmithing, .cooking, .enchanting, .engineering, .fishing, .herbalism, .inscription,
    .jewelcrafting, .leatherworking, .mining, .skinning, .tailoring, .shared]

def asStr : Profession → Text
  | .alchemy => "alchemy".toList
  | .blacksmithing => "blacksmithing".toList
  | .cooking => "cooking".toList
  | .enchanting => "enchanting".toList
  | .engineering => "engineering".toList
  | .fishing => "fishing".toList
  | .herbalism => "herbalism".toList
  | .inscription => "inscription".toList
  | .jewelcrafting => "jewelcrafting".toList
  | .leatherworking => "leatherworking".toList
  | .mining => "mining".toList
  | .skinning => "skinning".toList
  | .tailoring => "tailoring".toList
  | .shared => "shared".toList

end Profession

inductive Category where
  | consumables | reagents | gear | recipes
  deriving DecidableEq

namespace Category

def route : Category → Text
  | .consumables => "consumables".toList
  | .reagents => "reagents".toList
  | .gear => "gear".toList
  | .recipes => "recipes".toList

/-- Prices are per realm. -/
def perRealm : Category → Bool
  | .gear | .recipes => true
  | .consumables | .reagents => false

end Category

/-- What the handlers read that no event changes: the catalogues, what an item is grouped by, the realms
that are collected, whether the name of an item in a language contains a search term, and what a header
says. -/
structure Site where
  catalogs : CatalogSet
  audienceOf : CatalogItem → Audience
  professionOf : CatalogItem → Option Profession
  carries : Region → Text → Bool
  shows : Locale → Text → CatalogItem → Bool
  http : Http

/-! ## Requests -/

structure SearchParams where
  q : Option Text
  group : Option Text
  expansion : Option Text
  deriving DecidableEq

namespace SearchParams

/-- The expansion that is named; an empty value names none. -/
def named (params : SearchParams) : Option Text := params.expansion.filter fun id => !id.isEmpty

def maxQuery : Nat := 64

/-- The search term, and an empty one is absent. Letter case is left to the comparison. -/
def needle (params : SearchParams) : Option Text :=
  ((params.q.map (Text.trimMatches isWhitespace)).filter fun q => !q.isEmpty).map (·.take maxQuery)

end SearchParams

structure FragmentRequest where
  category : Category
  params : SearchParams
  prefs : MarketPrefs
  realm : RealmChoice
  ifNoneMatch : Option HeaderValue
  deriving DecidableEq

/-- What a fragment says: the whole category, or one section of it. -/
structure Fragment where
  category : Category
  catalog : Catalog
  group : Option Text
  prefs : MarketPrefs
  realm : RealmChoice
  needle : Option Text
  deriving DecidableEq

/-- A page as it was rendered, with the parameters of the fragments it loads. -/
structure Page where
  category : Category
  catalog : Catalog
  links : List SearchParams
  deriving DecidableEq

namespace FragmentRequest

/-- The expansion the handler looks at. -/
def expansion (r : FragmentRequest) : Option Text :=
  match r.category with
  | .consumables => none
  | .reagents | .gear | .recipes => r.params.named

/-- The group the handler looks at. -/
def group (r : FragmentRequest) : Option Text :=
  match r.category with
  | .consumables => none
  | .reagents | .gear | .recipes => r.params.group

/-- The search term the handler looks at. -/
def needle (r : FragmentRequest) : Option Text :=
  match r.category with
  | .consumables => none
  | .reagents | .gear | .recipes => r.params.needle

/-- A search is the reader's own question, and is not cached. -/
def isSearch (r : FragmentRequest) : Bool := r.needle.isSome

/-- The key a fragment is filed under. -/
def key (version : Option Nat) (r : FragmentRequest) : FragmentKey :=
  let region := r.prefs.region.asStr
  let locale := r.prefs.locale.code
  let named := r.params.expansion.getD []
  match r.category with
  | .consumables => .new r.category.route version [] region r.prefs.baselineDays [] locale none
  | .reagents =>
      .new r.category.route version named region r.prefs.baselineDays [] locale r.params.group
  | .gear | .recipes =>
      .new r.category.route version named region r.prefs.baselineDays (r.realm.getD []) locale
        r.params.group

/-- The reader already has this representation. -/
def knows (r : FragmentRequest) (http : Http) (key : FragmentKey) : Bool :=
  (r.ifNoneMatch.bind http.toStr).any fun tags =>
    (tags.splitOn ',').any fun tag => trim tag = key.etag

end FragmentRequest

/-! ## Building -/

namespace Site

variable (site : Site) (states : ReleaseStates)

/-- The catalogue of a request that names none. -/
def defaultCatalog : Category → Option Catalog
  | .consumables =>
      (Market.active site.catalogs states).or (Market.publicAll site.catalogs states).head?
  | .reagents | .gear | .recipes => Market.active site.catalogs states

/-- Which catalogue a page is about: a public one by its id, else the default. -/
def select (category : Category) : Option Text → Option Catalog
  | some id => Market.public' site.catalogs states id
  | none => site.defaultCatalog states category

/-- The sections of a page and how many cards each has; all but consumables leave out empty ones. -/
def groups (category : Category) (locale : Locale) (needle : Option Text) (c : Catalog) :
    List (Text × Nat) :=
  let count (wanted : CatalogItem → Bool) : Nat :=
    (c.items.filter fun i => wanted i && needle.all fun term => site.shows locale term i).length
  let professions (kind : ItemKind) : List (Text × Nat) :=
    Profession.all.map fun p => (p.asStr, count fun i => i.kind = kind && site.professionOf i = some p)
  match category with
  | .consumables => Audience.all.map fun a =>
      (a.asStr, count fun i => i.kind = .consumable && site.audienceOf i = a)
  | .reagents => (professions .reagent).filter fun g => 0 < g.2
  | .recipes => (professions .recipe).filter fun g => 0 < g.2
  | .gear => [("all".toList, count fun i => i.kind = .boe)].filter fun g => 0 < g.2

/-- The sections a page is divided into. -/
def sections (category : Category) (locale : Locale) (needle : Option Text) (c : Catalog) : List Text :=
  (site.groups category locale needle c).map Prod.fst

/-- A realm that is not collected in the region has no page. -/
def hasRealm (category : Category) (region : Region) (realm : RealmChoice) : Bool :=
  !category.perRealm || realm.all (site.carries region)

/-- Build a fragment; `none` is not found. -/
def render (r : FragmentRequest) : Option Fragment := do
  let c ← site.select states r.category r.expansion
  if site.hasRealm r.category r.prefs.region r.realm then
    let whole : Fragment :=
      ⟨r.category, c, none, r.prefs, if r.category.perRealm then r.realm else none, r.needle⟩
    match r.group with
    | none => some whole
    | some wanted =>
        if (site.sections r.category r.prefs.locale r.needle c).contains wanted then
          some { whole with group := some wanted }
        else none
  else none

/-! ## Pages -/

/-- Cards above which a category defers its later groups. -/
def inlineLimit : Nat := 40

/-- The groups left when the budget is spent; the first is always inlined. -/
def deferredAfter : Nat → List (Text × Nat) → List Text
  | _, [] => []
  | inlined, (slug, cards) :: groups =>
      if inlined = 0 ∨ inlined + cards ≤ inlineLimit then deferredAfter (inlined + cards) groups
      else slug :: deferredAfter inlined groups

/-- The groups that fetch themselves. -/
def deferred (searching : Bool) (groups : List (Text × Nat)) : List Text :=
  if searching || (groups.map Prod.snd).sum ≤ inlineLimit then [] else deferredAfter 0 groups

/-- The parameters of the fragments a page loads: the cards of consumables and reagents, and the
deferred groups of the pages that inline the rest. -/
def links (category : Category) (params : SearchParams) (locale : Locale) (c : Catalog) :
    List SearchParams :=
  match category with
  | .consumables => [⟨none, none, none⟩]
  | .reagents => [⟨some (params.needle.getD []), none, some c.id⟩]
  | .gear | .recipes =>
      (deferred params.needle.isSome (site.groups category locale params.needle c)).map fun group =>
        ⟨none, some group, some c.id⟩

/-- Render a page; `none` is not found. -/
def page (category : Category) (params : SearchParams) (prefs : MarketPrefs) (realm : RealmChoice) :
    Option Page := do
  let c ← site.select states category params.named
  if site.hasRealm category prefs.region realm then
    some ⟨category, c, site.links category params prefs.locale c⟩
  else none

end Site

/-! ## Many readers -/

inductive Answer where
  /-- With the note that the reader already has it, so that only its name is sent. -/
  | fragment (fragment : Fragment) (known : Bool)
  | notFound
  deriving DecidableEq

/-- How far a call has come. -/
inductive CallPhase where
  | arrived
  | keyed (key : FragmentKey)
  | holding (key : FragmentKey) (cell : Nat)
  | building (key : FragmentKey) (cell : Nat) (made : Option Fragment)
  | searching (made : Option Fragment)
  | answered (answer : Answer)
  deriving DecidableEq

namespace CallPhase

/-- The key of a call that goes through the cache. -/
def key? : CallPhase → Option FragmentKey
  | .keyed key | .holding key _ | .building key _ _ => some key
  | .arrived | .searching _ | .answered _ => none

/-- What comes of the build a call has begun. -/
def made? : CallPhase → Option (Option Fragment)
  | .building _ _ made | .searching made => some made
  | .arrived | .keyed _ | .holding _ _ | .answered _ => none

end CallPhase

/-- A fragment request on its way, and the page it was made by, if a page made it. -/
structure Call where
  request : FragmentRequest
  page : Option Page
  phase : CallPhase
  deriving DecidableEq

/-- A build that was begun: the call it was begun for, the key it fills the cell of, the request, the
states of the moment and what comes of it. -/
structure Build where
  call : Nat
  key : Option FragmentKey
  request : FragmentRequest
  states : ReleaseStates
  made : Option Fragment

/-- How far an activation has come after its transaction. -/
inductive Activating where
  | written
  | listed (states : ReleaseStates)
  | done

/-- The release table and the states as they were last put back from it, the published version, the cache
and the activations, the pages that were opened, the calls and the builds so far. -/
structure Visits where
  releases : Releases
  states : ReleaseStates
  version : Option Nat
  cache : FragmentCache Fragment
  activations : List Activating
  pages : List Page
  calls : List Call
  builds : List Build

/-- The states, as they are read at the start and after every activation. -/
def readBack (releases : Releases) : ReleaseStates :=
  .replace (releases.table.rows.map fun r => (r.catalog, r.state))

inductive VisitEvent where
  | publish (version : Nat)
  | activate (catalog : Text) (now : Millis)
  /-- An activation reads the states, or puts back what it has read. -/
  | refresh (activation : Nat)
  | open' (category : Category) (params : SearchParams) (prefs : MarketPrefs) (realm : RealmChoice)
  | ask (request : FragmentRequest)
  /-- A page loads one of its fragments. -/
  | load (page link : Nat) (prefs : MarketPrefs) (realm : RealmChoice) (ifNoneMatch : Option HeaderValue)
  /-- A call takes its next step. -/
  | proceed (call : Nat)

namespace Visits

variable (site : Site) (s : Visits)

/-- The answer a call gets in its next step, if it gets one. -/
def answer? (c : Call) : Option Answer :=
  match c.phase with
  | .holding key cell => (s.cache.value cell).map fun f => .fragment f (c.request.knows site.http key)
  | .building key _ made =>
      some ((made.map fun f => Answer.fragment f (c.request.knows site.http key)).getD .notFound)
  | .searching made => some ((made.map fun f => Answer.fragment f false).getD .notFound)
  | .arrived | .keyed _ | .answered _ => none

def advance (i : Nat) (c : Call) (phase : CallPhase) : Visits :=
  { s with calls := s.calls.set i { c with phase } }

/-- The build a call begins. -/
def begun (i : Nat) (c : Call) (key : Option FragmentKey) : Build :=
  ⟨i, key, c.request, s.states, site.render s.states c.request⟩

/-- A call is answered; the cell it was building is filled, or left to the next. -/
def settle (i : Nat) (c : Call) (answer : Answer) : Visits :=
  { s.advance i c (.answered answer) with
    cache := match c.phase with
      | .building _ cell made => s.cache.finish cell made
      | _ => s.cache }

/-- A call that is not answered reads the version, finds its cell, or begins a build. -/
def move (i : Nat) (c : Call) : Visits :=
  match c.phase with
  | .arrived =>
      if c.request.isSearch then
        let build := s.begun site i c none
        { s.advance i c (.searching build.made) with builds := build :: s.builds }
      else s.advance i c (.keyed (c.request.key s.version))
  | .keyed key =>
      let (cache, cell) := s.cache.cellOf key
      { s.advance i c (.holding key cell) with cache }
  | .holding key cell =>
      if s.cache.isFree cell then
        let build := s.begun site i c (some key)
        { s.advance i c (.building key cell build.made) with
          cache := s.cache.start cell i
          builds := build :: s.builds }
      else s
  | .building _ _ _ | .searching _ | .answered _ => s

def proceed (i : Nat) (c : Call) : Visits :=
  match s.answer? site c with
  | some answer => s.settle i c answer
  | none => s.move site i c

/-- An activation after its transaction: the states are read, and then put back. -/
def refresh (i : Nat) : Activating → Visits
  | .written => { s with activations := s.activations.set i (.listed (readBack s.releases)) }
  | .listed states => { s with states, activations := s.activations.set i .done }
  | .done => s

def step : VisitEvent → Visits
  | .publish version => { s with version := some version }
  | .activate catalog now =>
      match site.catalogs.byId catalog with
      | some c =>
          if c.problems = [] then
            match s.releases.activate c.id now with
            | .ok (releases, _) => { s with releases, activations := s.activations ++ [.written] }
            | .error _ => s
          else s
      | none => s
  | .refresh activation =>
      match s.activations[activation]? with
      | some a => s.refresh activation a
      | none => s
  | .open' category params prefs realm =>
      { s with pages := s.pages ++ (site.page s.states category params prefs realm).toList }
  | .ask request => { s with calls := s.calls ++ [⟨request, none, .arrived⟩] }
  | .load page link prefs realm ifNoneMatch =>
      match s.pages[page]? with
      | some p =>
          match p.links[link]? with
          | some params =>
              { s with calls := s.calls ++ [⟨⟨p.category, params, prefs, realm, ifNoneMatch⟩, some p, .arrived⟩] }
          | none => s
      | none => s
  | .proceed call =>
      match s.calls[call]? with
      | some c => s.proceed site call c
      | none => s

/-- A server that was just started. -/
def started (releases : Releases) (version : Option Nat) : Visits :=
  ⟨releases, readBack releases, version, .new, [], [], [], []⟩

end Visits

end Gavel.Web
