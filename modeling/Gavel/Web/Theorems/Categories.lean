import Gavel.Lib.Run
import Gavel.Web.Categories

/-!
# Category pages show the catalogue they name

A key spells the parameters of a request and not the catalogue they resolve to, and the handler of one
category ignores its parameters. Whatever a cell holds was built for a request of the cell's key, so an
answer is right when the builds so far under its key asked for what the request asks for.
-/

namespace Gavel.Web

open Gavel.Market (Region Catalog CatalogSet CatalogStatus ReleaseStates)
open Gavel.Storage (Releases)

/-! ## What is asked of an answer -/

namespace Visits

section Statement

variable (site : Site) (s : Visits)

/-- The catalogue a request resolves to by its parameters. -/
def resolves (r : FragmentRequest) : Option Catalog := site.select s.states r.category r.params.named

/-- The group is no section of the page. -/
def NamesNoSection (r : FragmentRequest) : Prop :=
  ∃ g ∈ r.params.group, ∀ c ∈ s.resolves site r,
    g ∉ site.sections r.category r.prefs.locale r.needle c

instance decidableNamesNoSection (r : FragmentRequest) : Decidable (s.NamesNoSection site r) :=
  inferInstanceAs (Decidable (∃ g ∈ r.params.group, ∀ c ∈ s.resolves site r, _))

/-- The fragment is of the catalogue the request resolves to, which is the one of the page that loads
it; a group that is no section is not found. -/
structure Right (c : Call) (answer : Answer) : Prop where
  catalog : ∀ f known, answer = .fragment f known → s.resolves site c.request = some f.catalog
  page : ∀ p ∈ c.page, s.resolves site c.request = some p.catalog
  group : s.NamesNoSection site c.request → answer = .notFound

instance decidableRight (c : Call) : (answer : Answer) → Decidable (s.Right site c answer)
  | .fragment f known => decidable_of_iff
      (s.resolves site c.request = some f.catalog ∧
        (∀ p ∈ c.page, s.resolves site c.request = some p.catalog) ∧ ¬ s.NamesNoSection site c.request)
      ⟨fun h => ⟨fun _ _ heq => by cases heq; exact h.1, h.2.1, fun hno => absurd hno h.2.2⟩,
        fun h => ⟨h.catalog f known rfl, h.page, fun hno => by cases h.group hno⟩⟩
  | .notFound => decidable_of_iff (∀ p ∈ c.page, s.resolves site c.request = some p.catalog)
      ⟨fun h => ⟨fun _ _ heq => (by cases heq), h, fun _ => rfl⟩, fun h => h.page⟩

/-- The answer a step gives, if it gives one, is right. -/
def AnswersRight : VisitEvent → Prop
  | .proceed i => ∀ c ∈ s.calls[i]?, ∀ answer ∈ s.answer? site c, s.Right site c answer
  | _ => True

instance decidableAnswersRight : (e : VisitEvent) → Decidable (s.AnswersRight site e)
  | .proceed i => inferInstanceAs (Decidable (∀ c ∈ s.calls[i]?, ∀ answer ∈ s.answer? site c, _))
  | .publish _ | .activate _ _ | .refresh _ | .open' _ _ _ _ | .ask _ | .load _ _ _ _ _ => .isTrue trivial

/-- A build a call is answered from: its own, or one for the key that made what the cell holds. -/
def Serves (b : Build) (i : Nat) (c : Call) : Prop :=
  match c.phase with
  | .holding key cell => b.key = some key ∧ b.made = s.cache.value cell
  | .arrived | .keyed _ | .building _ _ _ | .searching _ | .answered _ => b.call = i

instance decidableServes (b : Build) (i : Nat) (c : Call) : Decidable (s.Serves b i c) := by
  unfold Serves
  split <;> infer_instance

/-- A build was asked what the call asks: for the same expansion and group, and the catalogue that is
named is still public, or the default still the one it was. -/
structure SameQuestion (b : Build) (c : Call) : Prop where
  expansion : b.request.expansion = c.request.expansion
  group : b.request.group = c.request.group
  named : ∀ id ∈ c.request.expansion, (Market.public' site.catalogs b.states id).isSome = true →
    (Market.public' site.catalogs s.states id).isSome = true
  default : c.request.expansion = none →
    ∀ catalog ∈ site.defaultCatalog b.states c.request.category,
      site.defaultCatalog s.states c.request.category = some catalog

instance decidableSameQuestion (b : Build) (c : Call) : Decidable (s.SameQuestion site b c) :=
  decidable_of_iff
    (b.request.expansion = c.request.expansion ∧ b.request.group = c.request.group ∧
      (∀ id ∈ c.request.expansion, (Market.public' site.catalogs b.states id).isSome = true →
        (Market.public' site.catalogs s.states id).isSome = true) ∧
      (c.request.expansion = none → ∀ catalog ∈ site.defaultCatalog b.states c.request.category,
        site.defaultCatalog s.states c.request.category = some catalog))
    ⟨fun h => ⟨h.1, h.2.1, h.2.2.1, h.2.2.2⟩, fun h => ⟨h.expansion, h.group, h.named, h.default⟩⟩

/-- The page a call was made by is one its link leads back to: the default for consumables, else the one
its id names, if it is still public. -/
def LeadsBack (p : Page) : Prop :=
  match p.category with
  | .consumables => site.defaultCatalog s.states .consumables = some p.catalog
  | .reagents | .gear | .recipes => p.catalog.id ≠ [] ∧
      site.catalogs.byId p.catalog.id = some p.catalog ∧ (s.states.stateOf p.catalog).isPublic = true

instance decidableLeadsBack (p : Page) : Decidable (s.LeadsBack site p) := by
  unfold LeadsBack
  split <;> infer_instance

/-- A call for consumables asks for what the handler answers, every build the call is answered from was
asked what it asks, and its page's link leads back to the page. -/
structure Clear (i : Nat) (c : Call) : Prop where
  consumables : c.request.category = .consumables →
    s.resolves site c.request = site.defaultCatalog s.states .consumables ∧
      ¬ s.NamesNoSection site c.request
  builds : ∀ b ∈ s.builds, s.Serves b i c → s.SameQuestion site b c
  page : ∀ p ∈ c.page, s.LeadsBack site p

instance decidableClear (i : Nat) (c : Call) : Decidable (s.Clear site i c) :=
  decidable_of_iff
    ((c.request.category = .consumables →
        s.resolves site c.request = site.defaultCatalog s.states .consumables ∧
          ¬ s.NamesNoSection site c.request) ∧
      (∀ b ∈ s.builds, s.Serves b i c → s.SameQuestion site b c) ∧ ∀ p ∈ c.page, s.LeadsBack site p)
    ⟨fun h => ⟨h.1, h.2.1, h.2.2⟩, fun h => ⟨h.consumables, h.builds, h.page⟩⟩

/-- A step that answers a call answers a clear one. -/
def AnswersClear : VisitEvent → Prop
  | .proceed i => ∀ c ∈ s.calls[i]?, (s.answer? site c).isSome = true → s.Clear site i c
  | _ => True

instance decidableAnswersClear : (e : VisitEvent) → Decidable (s.AnswersClear site e)
  | .proceed i => inferInstanceAs (Decidable (∀ c ∈ s.calls[i]?, _ → _))
  | .publish _ | .activate _ _ | .refresh _ | .open' _ _ _ _ | .ask _ | .load _ _ _ _ _ => .isTrue trivial

end Statement

/-! ## What a step does -/

/-- The steps that are taken. -/
inductive Move (site : Site) (s : Visits) : VisitEvent → Visits → Prop
  | stays (e) : Move site s e s
  | publish (version) : Move site s (.publish version) { s with version := some version }
  | activate {c : Catalog} {now releases activation} (hc : c.problems = [])
      (hok : s.releases.activate c.id now = .ok (releases, activation)) (catalog) :
      Move site s (.activate catalog now) { s with releases, activations := s.activations ++ [.written] }
  | list {i} (hi : s.activations[i]? = some .written) :
      Move site s (.refresh i) { s with activations := s.activations.set i (.listed (readBack s.releases)) }
  | putBack {i states} (hi : s.activations[i]? = some (.listed states)) :
      Move site s (.refresh i) { s with states, activations := s.activations.set i .done }
  | open' {category params prefs realm p} (hp : site.page s.states category params prefs realm = some p) :
      Move site s (.open' category params prefs realm) { s with pages := s.pages ++ [p] }
  | ask (request) :
      Move site s (.ask request) { s with calls := s.calls ++ [⟨request, none, .arrived⟩] }
  | load {page link params p} (prefs realm ifNoneMatch) (hp : p ∈ s.pages) (hl : params ∈ p.links) :
      Move site s (.load page link prefs realm ifNoneMatch) { s with
        calls := s.calls ++ [⟨⟨p.category, params, prefs, realm, ifNoneMatch⟩, some p, .arrived⟩] }
  | settle {i c answer} (hc : s.calls[i]? = some c) (ha : s.answer? site c = some answer) :
      Move site s (.proceed i) (s.settle i c answer)
  | search {i c} (hc : s.calls[i]? = some c) (hp : c.phase = .arrived)
      (hs : c.request.isSearch = true) :
      Move site s (.proceed i) { s.advance i c (.searching (s.begun site i c none).made) with
        builds := s.begun site i c none :: s.builds }
  | read {i c} (hc : s.calls[i]? = some c) (hp : c.phase = .arrived)
      (hs : c.request.isSearch = false) :
      Move site s (.proceed i) (s.advance i c (.keyed (c.request.key s.version)))
  | find {i c key} (hc : s.calls[i]? = some c) (hp : c.phase = .keyed key) :
      Move site s (.proceed i) { s.advance i c (.holding key (s.cache.cellOf key).2) with
        cache := (s.cache.cellOf key).1 }
  | build {i c key cell} (hc : s.calls[i]? = some c) (hp : c.phase = .holding key cell) :
      Move site s (.proceed i) { s.advance i c (.building key cell (s.begun site i c (some key)).made) with
        cache := s.cache.start cell i
        builds := s.begun site i c (some key) :: s.builds }

theorem proceed_move {site : Site} {s : Visits} {i : Nat} {c : Call} (hc : s.calls[i]? = some c) :
    Move site s (.proceed i) (s.proceed site i c) := by
  unfold proceed
  cases ha : s.answer? site c with
  | some answer => exact .settle hc ha
  | none =>
      simp only [move]
      split
      · rename_i hp
        cases hs : c.request.isSearch with
        | true => exact .search hc hp hs
        | false => exact .read hc hp hs
      · exact .find hc ‹_›
      · split
        · exact .build hc ‹_›
        · exact .stays _
      · exact .stays _
      · exact .stays _
      · exact .stays _

theorem step_move (site : Site) (s : Visits) (e : VisitEvent) : Move site s e (s.step site e) := by
  cases e with
  | publish version => exact .publish version
  | activate catalog now =>
      simp only [step]
      split
      · split
        · split
          · exact .activate ‹_› ‹_› catalog
          · exact .stays _
        · exact .stays _
      · exact .stays _
  | refresh i =>
      simp only [step]
      split
      · rename_i a hi
        cases a with
        | written => exact .list hi
        | listed states => exact .putBack hi
        | done => exact .stays _
      · exact .stays _
  | open' category params prefs realm =>
      simp only [step]
      cases hp : site.page s.states category params prefs realm with
      | none =>
          rw [Option.toList_none, List.append_nil]
          exact .stays _
      | some p => exact .open' hp
  | ask request => exact .ask request
  | load page link prefs realm ifNoneMatch =>
      simp only [step]
      split
      · rename_i p hp
        split
        · exact .load prefs realm ifNoneMatch (List.mem_of_getElem? hp) (List.mem_of_getElem? ‹_›)
        · exact .stays _
      · exact .stays _
  | proceed i =>
      simp only [step]
      split
      · exact proceed_move ‹_›
      · exact .stays _

/-! ## Keys -/

theorem takeWhile_new {route : Text} (h : '|' ∉ route) (version : Option Nat) (catalog region : Text)
    (baselineDays : Nat) (realm locale : Text) (group : Option Text) :
    (FragmentKey.new route version catalog region baselineDays realm locale group).text.takeWhile
      (· ≠ '|') = route := by
  rw [FragmentKey.new, List.intercalate_cons_cons, List.append_assoc, List.takeWhile_append_of_pos]
  · simp
  · intro c hc
    simpa using ne_of_mem_of_not_mem hc h

theorem takeWhile_key (version : Option Nat) (r : FragmentRequest) :
    (r.key version).text.takeWhile (· ≠ '|') = r.category.route := by
  have hroute : '|' ∉ r.category.route := by cases r.category <;> decide
  unfold FragmentRequest.key
  dsimp only
  split <;> exact takeWhile_new hroute ..

theorem category_of_key {version version' : Option Nat} {r r' : FragmentRequest}
    (h : r.key version = r'.key version') : r.category = r'.category := by
  have hroute : r.category.route = r'.category.route := by
    rw [← takeWhile_key version r, h, takeWhile_key]
  revert hroute
  cases r.category <;> cases r'.category <;> decide

/-! ## What is built -/

section Built

variable {site : Site} {states : ReleaseStates} {category : Category} {c : Catalog}

theorem render_some {r : FragmentRequest} {f : Fragment} (h : site.render states r = some f) :
    site.select states r.category r.expansion = some f.catalog ∧
      ∀ g ∈ r.group, g ∈ site.sections r.category r.prefs.locale r.needle f.catalog := by
  simp only [Site.render, Option.bind_eq_bind, Option.bind_eq_some_iff] at h
  obtain ⟨c, hselect, h⟩ := h
  split at h
  · split at h
    · rename_i hgroup
      cases h
      exact ⟨hselect, fun g hg => by simp [hgroup] at hg⟩
    · rename_i wanted hgroup
      split at h
      · rename_i hin
        cases h
        refine ⟨hselect, fun g hg => ?_⟩
        obtain rfl : wanted = g := by simpa [hgroup] using hg
        exact List.contains_iff_mem.mp hin
      · cases h
  · cases h

theorem page_some {params : SearchParams} {prefs : MarketPrefs} {realm : RealmChoice} {p : Page}
    (h : site.page states category params prefs realm = some p) :
    p.category = category ∧ site.select states category params.named = some p.catalog ∧
      p.links = site.links category params prefs.locale p.catalog := by
  simp only [Site.page, Option.bind_eq_bind, Option.bind_eq_some_iff] at h
  obtain ⟨c, hselect, h⟩ := h
  split at h
  · cases h
    exact ⟨rfl, hselect, rfl⟩
  · cases h

/-- The links of a page name its catalogue, but for those of consumables, which name none. -/
theorem expansion_of_link {params : SearchParams} {locale : Locale} {link : SearchParams}
    (h : link ∈ site.links category params locale c) :
    link.expansion = if category = .consumables then none else some c.id := by
  cases category with
  | consumables | reagents =>
      simp only [Site.links, List.mem_singleton] at h
      rw [h]
      rfl
  | gear | recipes =>
      simp only [Site.links, List.mem_map] at h
      obtain ⟨group, -, rfl⟩ := h
      rfl

end Built

/-! ## The invariant -/

section Invariant

variable {site : Site} {s s' : Visits} {i : Nat} {c : Call} {b : Build} {p : Page}

/-- What a build found is what it was asked for. -/
structure BuildSound (site : Site) (b : Build) : Prop where
  keyed : ∀ key, b.key = some key → b.request.isSearch = false ∧ ∃ v, key = b.request.key v
  found : ∀ f, b.made = some f →
    site.select b.states b.request.category b.request.expansion = some f.catalog
  group : ∀ f, b.made = some f → ∀ g ∈ b.request.group,
    g ∈ site.sections b.request.category b.request.prefs.locale b.request.needle f.catalog

/-- The links of a page name its catalogue. -/
def LinksBack (p : Page) : Prop :=
  ∀ link ∈ p.links, link.expansion = if p.category = .consumables then none else some p.catalog.id

/-- A call was made by a link of its page, its key is that of its request, its cell is of that key, and
the build it has begun is recorded. -/
structure CallSound (s : Visits) (i : Nat) (c : Call) : Prop where
  page : ∀ p ∈ c.page, LinksBack p ∧ c.request.category = p.category ∧ c.request.params ∈ p.links
  keyed : ∀ key, c.phase.key? = some key → c.request.isSearch = false ∧ ∃ v, key = c.request.key v
  holding : ∀ key j, c.phase = .holding key j → s.cache.cells[j]?.map Cell.key = some key
  building : ∀ key j made, c.phase = .building key j made → s.cache.cells[j]?.map Cell.key = some key
  made : ∀ made, c.phase.made? = some made →
    ∃ b ∈ s.builds, b.call = i ∧ b.request = c.request ∧ b.made = made ∧ b.key = c.phase.key?

structure Sound (site : Site) (s : Visits) : Prop where
  builds : ∀ b ∈ s.builds, BuildSound site b
  cells : ∀ cell ∈ s.cache.cells, ∀ f, cell.value = some f →
    ∃ b ∈ s.builds, b.key = some cell.key ∧ b.made = some f
  filed : s.cache.Filed
  pages : ∀ p ∈ s.pages, LinksBack p
  calls : ∀ i c, s.calls[i]? = some c → s.CallSound i c

/-- What no step takes back: the builds and the keys of the cells. -/
structure Grows (s s' : Visits) : Prop where
  builds : ∀ b ∈ s.builds, b ∈ s'.builds
  cells : ∀ (j : Nat) (key : FragmentKey), s.cache.cells[j]?.map Cell.key = some key →
    s'.cache.cells[j]?.map Cell.key = some key

theorem CallSound.grows (h : s.CallSound i c) (hg : s.Grows s') : s'.CallSound i c where
  page := h.page
  keyed := h.keyed
  holding := fun key j hphase => hg.cells j key (h.holding key j hphase)
  building := fun key j made hphase => hg.cells j key (h.building key j made hphase)
  made := by
    intro made hmade
    obtain ⟨b, hb, hrest⟩ := h.made made hmade
    exact ⟨b, hg.builds b hb, hrest⟩

/-! ## A clear call is answered right -/

theorem expansion_eq {r : FragmentRequest} (h : r.category ≠ .consumables) :
    r.expansion = r.params.named ∧ r.group = r.params.group := by
  unfold FragmentRequest.expansion FragmentRequest.group
  cases hc : r.category with
  | consumables => exact absurd hc h
  | reagents | gear | recipes => exact ⟨rfl, rfl⟩

theorem named_of_expansion {params : SearchParams} {id : Text} (h : params.expansion = some id)
    (hid : id ≠ []) : params.named = some id := by
  rw [SearchParams.named, h, Option.filter_some, if_pos (by simpa using hid)]

/-- The link of a page that leads back to it resolves to its catalogue. -/
theorem resolves_page (hc : s.CallSound i c) (hclear : s.Clear site i c) (hp : p ∈ c.page) :
    s.resolves site c.request = some p.catalog := by
  obtain ⟨hlinks, hcategory, hlink⟩ := hc.page p hp
  have hexpansion := hlinks _ hlink
  have hback := hclear.page p hp
  have hother (hne : p.category ≠ .consumables)
      (hid : p.catalog.id ≠ [] ∧ site.catalogs.byId p.catalog.id = some p.catalog ∧
        (s.states.stateOf p.catalog).isPublic = true) : s.resolves site c.request = some p.catalog := by
    rw [if_neg hne] at hexpansion
    rw [resolves, named_of_expansion hexpansion hid.1]
    exact Option.filter_eq_some_iff.mpr hid.2
  unfold LeadsBack at hback
  cases hcat : p.category with
  | consumables =>
      rw [hcat, if_pos rfl] at hexpansion
      have hnamed : c.request.params.named = none := by rw [SearchParams.named, hexpansion]; rfl
      rw [hcat] at hback hcategory
      rw [resolves, hnamed, hcategory]
      exact hback
  | reagents | gear | recipes =>
      rw [hcat] at hback
      exact hother (by simp [hcat]) hback

theorem right_notFound (hc : s.CallSound i c) (hclear : s.Clear site i c) :
    s.Right site c .notFound where
  catalog := fun _ _ h => by cases h
  page := fun _ hp => resolves_page hc hclear hp
  group := fun _ => rfl

/-- A catalogue that is named and still public is the one it was. -/
theorem public_eq {catalogs : CatalogSet} {states states' : ReleaseStates} {id : Text} {catalog : Catalog}
    (h : Market.public' catalogs states id = some catalog)
    (hstill : (Market.public' catalogs states' id).isSome = true) :
    Market.public' catalogs states' id = some catalog := by
  obtain ⟨now, hnow⟩ := Option.isSome_iff_exists.mp hstill
  have hby := (Option.filter_eq_some_iff.mp h).1
  have hby' := (Option.filter_eq_some_iff.mp hnow).1
  rw [hnow, ← hby', hby]

/-- What a build found is what the call's question still leads to. -/
theorem select_of_same {f : Fragment} (hb : BuildSound site b) (hmade : b.made = some f)
    (hsame : s.SameQuestion site b c) (hcategory : b.request.category = c.request.category) :
    site.select s.states c.request.category c.request.expansion = some f.catalog := by
  have hfound := hb.found f hmade
  rw [hsame.expansion, hcategory] at hfound
  cases hexpansion : c.request.expansion with
  | none =>
      rw [hexpansion] at hfound
      exact hsame.default hexpansion f.catalog hfound
  | some id =>
      rw [hexpansion] at hfound
      replace hfound : Market.public' site.catalogs b.states id = some f.catalog := hfound
      exact public_eq hfound (hsame.named id hexpansion (by rw [hfound]; rfl))

/-- A build that was asked what the call asks answers it right. -/
theorem right_of_build {f : Fragment} (known : Bool) (hb : BuildSound site b) (hmade : b.made = some f)
    (hsame : s.SameQuestion site b c) (hcategory : b.request.category = c.request.category)
    (hsections : site.sections b.request.category b.request.prefs.locale b.request.needle f.catalog =
      site.sections c.request.category c.request.prefs.locale c.request.needle f.catalog)
    (hc : s.CallSound i c) (hclear : s.Clear site i c) : s.Right site c (.fragment f known) := by
  have hselect := select_of_same hb hmade hsame hcategory
  have hcatalog : s.resolves site c.request = some f.catalog := by
    by_cases hconsumables : c.request.category = .consumables
    · have hnone : c.request.expansion = none := by rw [FragmentRequest.expansion, hconsumables]
      rw [(hclear.consumables hconsumables).1]
      rwa [hnone, hconsumables] at hselect
    · rwa [resolves, ← (expansion_eq hconsumables).1]
  refine ⟨fun g _ h => ?_, fun p hp => resolves_page hc hclear hp, fun hno => ?_⟩
  · cases h
    exact hcatalog
  · by_cases hconsumables : c.request.category = .consumables
    · exact absurd hno (hclear.consumables hconsumables).2
    · obtain ⟨g, hg, hnot⟩ := hno
      have hgroup : b.request.group = some g :=
        hsame.group.trans ((expansion_eq hconsumables).2.trans hg)
      have hin := hb.group f hmade g hgroup
      rw [hsections] at hin
      exact absurd hin (hnot f.catalog hcatalog)

theorem sections_eq {r r' : FragmentRequest} (hr : r.isSearch = false) (hr' : r'.isSearch = false)
    (hcategory : r.category = r'.category) (catalog : Catalog) :
    site.sections r.category r.prefs.locale r.needle catalog =
      site.sections r'.category r'.prefs.locale r'.needle catalog := by
  have hnone {r : FragmentRequest} (h : r.isSearch = false) : r.needle = none := by
    simpa [FragmentRequest.isSearch] using h
  rw [hnone hr, hnone hr', hcategory]
  rfl

theorem right_of_clear (hs : s.Sound site) (hcall : s.calls[i]? = some c) {answer : Answer}
    (ha : s.answer? site c = some answer) (hclear : s.Clear site i c) : s.Right site c answer := by
  have hc := hs.calls i c hcall
  -- What the call has begun itself was asked what it asks.
  have hown {made : Option Fragment} (hmade : c.phase.made? = some made) (known : Fragment → Bool) :
      s.Right site c ((made.map fun f => Answer.fragment f (known f)).getD .notFound) := by
    obtain ⟨b, hb, hcaller, hrequest, rfl, -⟩ := hc.made made hmade
    cases hf : b.made with
    | none => exact right_notFound hc hclear
    | some f =>
        have hserves : s.Serves b i c := by
          unfold Serves
          split
          · rename_i hphase
            rw [hphase] at hmade
            cases hmade
          all_goals exact hcaller
        exact right_of_build (known f) (hs.builds b hb) hf (hclear.builds b hb hserves) (by rw [hrequest])
          (by rw [hrequest]) hc hclear
  unfold answer? at ha
  split at ha
  · rename_i key j hphase
    obtain ⟨f, hvalue, rfl⟩ := Option.map_eq_some_iff.mp ha
    obtain ⟨cell, hcell, hf⟩ := Option.bind_eq_some_iff.mp hvalue
    have hkey : cell.key = key := by
      have hheld := hc.holding key j hphase
      rw [hcell] at hheld
      simpa using hheld
    obtain ⟨b, hb, hbkey, hmade⟩ := hs.cells cell (List.mem_of_getElem? hcell) f hf
    have hphasekey : c.phase.key? = some key := by rw [hphase]; rfl
    obtain ⟨hsearch, v, hv⟩ := (hs.builds b hb).keyed cell.key hbkey
    obtain ⟨hsearch', v', hv'⟩ := hc.keyed key hphasekey
    have hcategory := category_of_key (hv.symm.trans (hkey.trans hv'))
    have hserves : s.Serves b i c := by
      rw [Serves, hphase]
      exact ⟨hbkey.trans (congrArg some hkey), hmade.trans hvalue.symm⟩
    exact right_of_build _ (hs.builds b hb) hmade (hclear.builds b hb hserves) hcategory
      (sections_eq hsearch hsearch' hcategory f.catalog) hc hclear
  · rename_i key j made hphase
    cases ha
    exact hown (by rw [hphase]; rfl) fun _ => c.request.knows site.http key
  · rename_i made hphase
    cases ha
    exact hown (by rw [hphase]; rfl) fun _ => false
  · cases ha
  · cases ha
  · cases ha

/-! ## Every step keeps the invariant -/

/-- A state that takes nothing back is sound when what it adds is. -/
theorem Sound.of_grows (hs : s.Sound site) (hg : s.Grows s')
    (hbuilds : ∀ b ∈ s'.builds, b ∈ s.builds ∨ BuildSound site b)
    (hcells : ∀ cell ∈ s'.cache.cells, ∀ f, cell.value = some f →
      (∃ old ∈ s.cache.cells, old.key = cell.key ∧ old.value = some f) ∨
        ∃ b ∈ s'.builds, b.key = some cell.key ∧ b.made = some f)
    (hfiled : s'.cache.Filed)
    (hpages : ∀ p ∈ s'.pages, p ∈ s.pages ∨ LinksBack p)
    (hcalls : ∀ i c, s'.calls[i]? = some c → s.calls[i]? = some c ∨ s'.CallSound i c) :
    s'.Sound site where
  builds := fun b hb => (hbuilds b hb).elim (hs.builds b) id
  cells := by
    intro cell hcell f hf
    rcases hcells cell hcell f hf with ⟨old, hold, hkey, hvalue⟩ | h
    · obtain ⟨b, hb, hbkey, hmade⟩ := hs.cells old hold f hvalue
      exact ⟨b, hg.builds b hb, hbkey.trans (by rw [hkey]), hmade⟩
    · exact h
  filed := hfiled
  pages := fun p hp => (hpages p hp).elim (hs.pages p) id
  calls := fun i c hc => (hcalls i c hc).elim (fun h => (hs.calls i c h).grows hg) id

/-- The calls and pages may change while the cache and the builds stay. -/
theorem Sound.of_same_cache (hs : s.Sound site) (hbuilds : s'.builds = s.builds)
    (hcache : s'.cache = s.cache)
    (hpages : ∀ p ∈ s'.pages, p ∈ s.pages ∨ LinksBack p)
    (hcalls : ∀ i c, s'.calls[i]? = some c → s.calls[i]? = some c ∨ s'.CallSound i c) :
    s'.Sound site := by
  refine hs.of_grows ⟨?_, ?_⟩ ?_ ?_ (hcache ▸ hs.filed) hpages hcalls
  · exact fun b hb => hbuilds ▸ hb
  · exact fun j key hkey => hcache ▸ hkey
  · exact fun b hb => .inl (hbuilds ▸ hb)
  · exact fun cell hcell f hf => .inl ⟨cell, hcache ▸ hcell, rfl, hf⟩

theorem calls_append {new : Call} (h : (s.calls ++ [new])[i]? = some c) :
    s.calls[i]? = some c ∨ c = new := by
  rcases Nat.lt_or_ge i s.calls.length with hlt | hge
  · exact .inl (by rwa [List.getElem?_append_left hlt] at h)
  · rw [List.getElem?_append_right hge] at h
    exact .inr (List.mem_singleton.mp (List.mem_of_getElem? h))

theorem calls_set {j : Nat} {new : Call} (h : (s.calls.set j new)[i]? = some c) :
    s.calls[i]? = some c ∨ i = j ∧ c = new := by
  rcases eq_or_ne j i with rfl | hne
  · refine .inr ⟨rfl, ?_⟩
    rw [List.getElem?_set_self'] at h
    obtain ⟨-, -, rfl⟩ := Option.map_eq_some_iff.mp h
    rfl
  · exact .inl (by rwa [List.getElem?_set_ne hne] at h)

theorem CallSound.arrived {request : FragmentRequest} {page : Option Page}
    (hpage : ∀ p ∈ page, LinksBack p ∧ request.category = p.category ∧ request.params ∈ p.links) :
    s.CallSound i ⟨request, page, .arrived⟩ where
  page := hpage
  keyed := fun _ h => by cases h
  holding := fun _ _ h => by cases h
  building := fun _ _ _ h => by cases h
  made := fun _ h => by cases h

/-- An answer ends the build of the call, if it had begun one for a cell. -/
theorem settle_cache (s : Visits) (i : Nat) (c : Call) (answer : Answer) :
    (∃ key j made, c.phase = .building key j made ∧
      (s.settle i c answer).cache = s.cache.finish j made) ∨ (s.settle i c answer).cache = s.cache := by
  cases hphase : c.phase with
  | building key j made => exact .inl ⟨key, j, made, rfl, by rw [Visits.settle, hphase]⟩
  | arrived | keyed _ | holding _ _ | searching _ | answered _ =>
      right
      rw [Visits.settle, hphase]

theorem Sound.settle (hs : s.Sound site) (hc : s.calls[i]? = some c) (answer : Answer) :
    (s.settle i c answer).Sound site := by
  have hcall := hs.calls i c hc
  have hcalls (j : Nat) (d : Call) (hd : (s.settle i c answer).calls[j]? = some d) :
      s.calls[j]? = some d ∨ (s.settle i c answer).CallSound j d := by
    rcases calls_set hd with hd | ⟨rfl, rfl⟩
    · exact .inl hd
    · refine .inr ⟨hcall.page, ?_, ?_, ?_, ?_⟩ <;> intros <;> contradiction
  rcases settle_cache s i c answer with ⟨key, k, made, hphase, heq⟩ | heq
  · have hkeys (j : Nat) : (s.settle i c answer).cache.cells[j]?.map Cell.key =
        s.cache.cells[j]?.map Cell.key := by rw [heq, FragmentCache.key_finish]
    refine hs.of_grows ⟨fun _ => id, fun j key hkey => (hkeys j).trans hkey⟩ (fun _ => .inl)
      (fun cell hcell f hf => ?_) (hs.filed.of_keys (by rw [heq]; rfl) hkeys) (fun _ => .inl) hcalls
    rw [heq] at hcell
    rcases FragmentCache.mem_modify hcell with hcell | ⟨old, hold, rfl⟩
    · exact .inl ⟨cell, hcell, rfl, hf⟩
    · rcases Option.or_eq_some_iff.mp hf with hf | ⟨-, hmade⟩
      · exact .inl ⟨old, List.mem_of_getElem? hold, rfl, hf⟩
      · -- The value is what the build of this call made, for the key of the cell.
        have hkey : old.key = key := by
          have hheld := hcall.building key k made hphase
          rw [hold] at hheld
          simpa using hheld
        obtain ⟨b, hb, -, -, hbmade, hbkey⟩ := hcall.made made (by rw [hphase]; rfl)
        refine .inr ⟨b, hb, ?_, hbmade.trans hmade⟩
        rw [hbkey, hphase, hkey]
        rfl
  · exact hs.of_same_cache rfl heq (fun _ => .inl) hcalls

theorem begun_sound {key : Option FragmentKey}
    (hkey : ∀ k, key = some k → c.request.isSearch = false ∧ ∃ v, k = c.request.key v) :
    BuildSound site (s.begun site i c key) where
  keyed := hkey
  found := fun _ hf => (render_some hf).1
  group := fun _ hf => (render_some hf).2

theorem Sound.find (hs : s.Sound site) (hc : s.calls[i]? = some c) {key : FragmentKey}
    (hphase : c.phase = .keyed key) :
    Sound site { s.advance i c (.holding key (s.cache.cellOf key).2) with
      cache := (s.cache.cellOf key).1 } := by
  have hcall := hs.calls i c hc
  refine hs.of_grows ⟨fun _ => id, fun _ _ => FragmentCache.key_cellOf⟩ (fun _ => .inl)
    (fun cell hcell f hf => ?_) hs.filed.cellOf (fun _ => .inl) fun j d hd => ?_
  · rcases FragmentCache.mem_cellOf hcell with hcell | rfl
    · exact .inl ⟨cell, hcell, rfl, hf⟩
    · cases hf
  · rcases calls_set hd with hd | ⟨rfl, rfl⟩
    · exact .inl hd
    · refine .inr ⟨hcall.page, ?_, ?_, ?_, ?_⟩
      · intro _ h
        cases h
        exact hcall.keyed key (by rw [hphase]; rfl)
      · intro _ _ h
        cases h
        exact hs.filed.found _
      all_goals intros; contradiction

/-- A call that begins a build, for the cell it holds if it is no search. -/
theorem Sound.begin' (hs : s.Sound site) (hc : s.calls[i]? = some c) {key : Option FragmentKey}
    {cache : FragmentCache Fragment} {phase : CallPhase}
    (hkey : ∀ k, key = some k → c.request.isSearch = false ∧ ∃ v, k = c.request.key v)
    (hcells : ∀ cell ∈ cache.cells, ∃ old ∈ s.cache.cells, old.key = cell.key ∧ old.value = cell.value)
    (hkeys : ∀ j : Nat, cache.cells[j]?.map Cell.key = s.cache.cells[j]?.map Cell.key)
    (hentries : cache.entries = s.cache.entries)
    (hphase : phase.key? = key) (hmade : phase.made? = some (s.begun site i c key).made)
    (hbuilding : ∀ (k : FragmentKey) (j : Nat) (made : Option Fragment), phase = .building k j made →
      s.cache.cells[j]?.map Cell.key = some k) :
    Sound site { s.advance i c phase with cache, builds := s.begun site i c key :: s.builds } := by
  have hcall := hs.calls i c hc
  have hg : s.Grows { s.advance i c phase with cache, builds := s.begun site i c key :: s.builds } :=
    ⟨fun _ => List.mem_cons_of_mem _, fun j k hj => (hkeys j).trans hj⟩
  refine hs.of_grows hg (fun b hb => ?_) (fun cell hcell f hf => ?_) (hs.filed.of_keys hentries hkeys)
    (fun _ => .inl) fun j d hd => ?_
  · rcases List.mem_cons.mp hb with rfl | hb
    · exact .inr (begun_sound hkey)
    · exact .inl hb
  · obtain ⟨old, hold, holdkey, hvalue⟩ := hcells cell hcell
    exact .inl ⟨old, hold, holdkey, hvalue.trans hf⟩
  · rcases calls_set hd with hd | ⟨rfl, rfl⟩
    · exact .inl hd
    · refine .inr ⟨hcall.page, ?_, ?_, ?_, ?_⟩
      · exact fun k hk => hkey k (hphase.symm.trans hk)
      · intro k j h
        dsimp only at h
        rw [h] at hmade
        cases hmade
      · exact fun k j made h => (hkeys j).trans (hbuilding k j made h)
      · intro made h
        refine ⟨s.begun site _ c key, List.mem_cons_self, rfl, rfl, ?_, hphase.symm⟩
        exact Option.some_injective _ (hmade.symm.trans h)

theorem Sound.move {e : VisitEvent} (hs : s.Sound site) (hm : Move site s e s') : s'.Sound site := by
  cases hm with
  | stays => exact hs
  | publish version =>
      exact hs.of_same_cache rfl rfl (fun _ => .inl) fun _ _ => .inl
  | activate _ _ catalog => exact hs.of_same_cache rfl rfl (fun _ => .inl) fun _ _ => .inl
  | list _ => exact hs.of_same_cache rfl rfl (fun _ => .inl) fun _ _ => .inl
  | putBack _ => exact hs.of_same_cache rfl rfl (fun _ => .inl) fun _ _ => .inl
  | open' hp =>
      refine hs.of_same_cache rfl rfl (fun p hmem => ?_) fun _ _ => .inl
      rcases List.mem_append.mp hmem with hmem | hmem
      · exact .inl hmem
      · obtain ⟨hcategory, hselect, hlinks⟩ := page_some hp
        rw [List.mem_singleton.mp hmem]
        refine .inr fun link hlink => ?_
        rw [hcategory]
        exact expansion_of_link (hlinks ▸ hlink)
  | ask request =>
      refine hs.of_same_cache rfl rfl (fun _ => .inl) fun j d hd => ?_
      rcases calls_append hd with hd | rfl
      · exact .inl hd
      · exact .inr (.arrived fun p hp => by cases hp)
  | load prefs realm ifNoneMatch hp hl =>
      refine hs.of_same_cache rfl rfl (fun _ => .inl) fun j d hd => ?_
      rcases calls_append hd with hd | rfl
      · exact .inl hd
      · refine .inr (.arrived fun q hq => ?_)
        cases hq
        exact ⟨hs.pages _ hp, rfl, hl⟩
  | settle hc ha => exact hs.settle hc _
  | search hc hp hsearch =>
      exact hs.begin' hc (fun _ h => by cases h) (fun cell h => ⟨cell, h, rfl, rfl⟩) (fun _ => rfl) rfl rfl
        rfl fun _ _ _ h => by cases h
  | read hc hp hsearch =>
      refine hs.of_same_cache rfl rfl (fun _ => .inl) fun j d hd => ?_
      rcases calls_set hd with hd | ⟨rfl, rfl⟩
      · exact .inl hd
      · have hcall := hs.calls _ _ hc
        refine .inr ⟨hcall.page, ?_, ?_, ?_, ?_⟩
        · intro key hkey
          cases hkey
          exact ⟨hsearch, _, rfl⟩
        all_goals intros; contradiction
  | find hc hp => exact hs.find hc hp
  | build hc hp =>
      rename_i j d key k
      have hcall := hs.calls _ _ hc
      refine hs.begin' hc ?_ ?_ (FragmentCache.key_start s.cache k _) rfl rfl rfl ?_
      · intro found hfound
        cases hfound
        exact hcall.keyed key (by rw [hp]; rfl)
      · intro cell hcell
        rcases FragmentCache.mem_modify hcell with hcell | ⟨old, hold, rfl⟩
        · exact ⟨cell, hcell, rfl, rfl⟩
        · exact ⟨old, List.mem_of_getElem? hold, rfl, rfl⟩
      · intro _ _ _ h
        cases h
        exact hcall.holding key k hp

theorem Sound.step (hs : s.Sound site) (e : VisitEvent) : (s.step site e).Sound site :=
  hs.move (step_move site s e)

theorem started_sound (site : Site) (releases : Releases) (version : Option Nat) :
    (started releases version).Sound site where
  builds := fun _ h => by cases h
  cells := fun _ h => by cases h
  filed := fun _ h => by cases h
  pages := fun _ h => by cases h
  calls := fun _ _ h => by cases h

end Invariant

/-! ## Runs -/

/-- In every run whose answers are to clear calls, every answer is right. -/
theorem answers_right (site : Site) (releases : Releases) (version : Option Nat)
    (events : List VisitEvent)
    (h : Run.AllSteps (step site) (AnswersClear site) (started releases version) events) :
    Run.AllSteps (step site) (AnswersRight site) (started releases version) events := by
  refine Run.allSteps_of_invariant (I := Sound site) (fun s e hs _ => hs.step e) (fun s e hs hclear => ?_)
    (started_sound site releases version) h
  cases e with
  | proceed i =>
      intro c hc answer ha
      exact right_of_clear hs hc ha (hclear c hc (by rw [Option.mem_def.mp ha]; rfl))
  | publish _ | activate _ _ | refresh _ | open' _ _ _ _ | ask _ | load _ _ _ _ _ => trivial

/-- A catalogue without items. -/
def expansionNamed (id : Text) (status : CatalogStatus) : Catalog :=
  { id, expansion := id, status, catalogVersion := 1, patches := [], raidTiers := [], items := []
    itemLevels := [], tracks := [], modifiers := [], notes := [] }

/-- One catalogue is active and one archived. -/
def twoExpansions : Site where
  catalogs := ⟨[expansionNamed "midnight".toList .active, expansionNamed "mists".toList .archived]⟩
  audienceOf _ := .common
  professionOf _ := none
  carries _ _ := true
  shows _ _ _ := true
  http := opaqueOctets

def seededReleases : Releases := Releases.empty.step (.seed twoExpansions.catalogs.shippedStates 0)

def requestFor (category : Category) (group expansion : Option Text) : FragmentRequest :=
  ⟨category, ⟨none, group, expansion⟩, ⟨.eu, .enGb, 7⟩, none, none⟩

/-- A call from its arrival to its answer: with a build, it takes four steps. -/
def answeredInFour (i : Nat) : List VisitEvent := List.replicate 4 (.proceed i)

/-- A page of the archived catalogue loads its fragment, and after an activation and a publication the
one of the default is built anew. -/
def activationRun : List VisitEvent :=
  [.open' .reagents ⟨none, none, some "mists".toList⟩ ⟨.eu, .enGb, 7⟩ none,
    .load 0 0 ⟨.eu, .enGb, 7⟩ none none] ++ answeredInFour 0 ++
  [.ask (requestFor .gear none none)] ++ answeredInFour 1 ++
  [.activate "mists".toList 1, .refresh 0, .refresh 0, .publish 2, .ask (requestFor .gear none none)] ++ answeredInFour 2 ++
  [.ask (requestFor .consumables none none)] ++ answeredInFour 3

theorem activationRun_answers_right :
    Run.AllSteps (step twoExpansions) (AnswersRight twoExpansions) (started seededReleases (some 1))
      activationRun :=
  answers_right twoExpansions seededReleases (some 1) activationRun (by decide)

/-- A page of the archived consumables loads the fragment of the active ones. -/
def pageRun : List VisitEvent :=
  [.open' .consumables ⟨none, none, some "mists".toList⟩ ⟨.eu, .enGb, 7⟩ none,
    .load 0 0 ⟨.eu, .enGb, 7⟩ none none] ++ answeredInFour 0

/-- The default is built, another catalogue activated, and the default asked for again. -/
def staleRun : List VisitEvent :=
  [.ask (requestFor .gear none none)] ++ answeredInFour 0 ++
  [.activate "mists".toList 1, .refresh 0, .refresh 0, .ask (requestFor .gear none none)] ++ answeredInFour 1

/-- The whole category is built, and then a group is asked for that is spelled as none is in a key. -/
def starRun : List VisitEvent :=
  [.ask (requestFor .gear none none)] ++ answeredInFour 0 ++
  [.ask (requestFor .gear (some "*".toList) none)] ++ answeredInFour 1

/-- Each of the three is answered wrong. -/
theorem wrong_answers :
    ¬ Run.AllSteps (step twoExpansions) (AnswersRight twoExpansions) (started seededReleases (some 1))
      pageRun ∧
    ¬ Run.AllSteps (step twoExpansions) (AnswersRight twoExpansions) (started seededReleases (some 1))
      staleRun ∧
    ¬ Run.AllSteps (step twoExpansions) (AnswersRight twoExpansions) (started seededReleases (some 1))
      starRun := by
  decide

end Visits

end Gavel.Web
