import Gavel.Web.Tooltips
import Mathlib.Data.List.Perm.Basic

/-!
# A settled tooltip is not fetched again

Whatever a lookup stores replaces an entry by one that expires no earlier, so what a lookup stored is there
until its time. The one answer that stores nothing for its own language is that of an upstream that knows
the item and lacks the language.
-/

namespace Gavel.Web

open Gavel.Cluster (Millis)
open Gavel.Market (ItemId plusMs maxU64)

variable {service : ItemTooltipService} {cache cache' : CacheStore} {r : TooltipRequest}
  {answer : TooltipAnswer} {locale l : Locale} {item i : ItemId} {tooltip : ItemTooltip}
  {localized : List (Locale × ItemTooltip)} {now bound : Millis}

/-! ## What is asked of the calls -/

/-- An answer that settles a tooltip. -/
def TooltipAnswer.Settles (answer : TooltipAnswer) : Prop :=
  answer.freshness = .fetched ∨ answer.freshness = .missing

namespace Hovers

variable (service) (s : Hovers)

/-- A later call for the same item and language asks the upstream only once the time of one that settled it
is over; what is unavailable leaves the cache as it is. -/
structure Settled : Prop where
  asked : s.answers.Pairwise fun earlier later => later.2.asked = true →
    later.1.item = earlier.1.item → later.1.locale = earlier.1.locale → earlier.2.Settles →
    plusMs earlier.1.now service.ttlMs ≤ later.1.now
  unavailable : ∀ r, (service.lookup s.cache r).1.freshness = .unavailable →
    (service.lookup s.cache r).2 = s.cache

/-- A call that asks the upstream and gets an answer gets one in its language. -/
def Speaks (r : TooltipRequest) : Prop :=
  service.cached s.cache r.locale r.item r.now = none → r.provider.isConfigured = true →
    ∀ localized, r.provider.tooltips r.region r.item = .ok localized → ∃ e ∈ localized, e.1 = r.locale

end Hovers

/-- The tooltips a call may store. -/
def TooltipRequest.stores (r : TooltipRequest) : List ItemTooltip :=
  match r.provider.tooltips r.region r.item with
  | .ok localized => localized.map Prod.snd
  | .error .notFound => [.placeholder r.item r.locale r.fallbackName r.now]
  | .error _ => []

/-- A tooltip survives being written and read. -/
def SerdeJson.Keeps (json : SerdeJson) (tooltip : ItemTooltip) : Prop :=
  (json.toVec tooltip).bind json.fromSlice = some tooltip

/-! ## What the cache holds -/

/-- There is a tooltip for an item in a language that lasts until some instant at least. -/
def ItemTooltipService.Holds (service : ItemTooltipService) (cache : CacheStore) (locale : Locale)
    (item : ItemId) (bound : Millis) : Prop :=
  ∃ bytes expiresAt tooltip, cache.rows.get? (ItemTooltip.cacheKey item locale) = some (bytes, expiresAt) ∧
    bound ≤ expiresAt ∧ service.json.fromSlice bytes = some tooltip

namespace ItemTooltipService

theorem Holds.cached (h : service.Holds cache locale item bound) (hnow : now < bound) :
    service.cached cache locale item now ≠ none := by
  obtain ⟨bytes, expiresAt, tooltip, hget, hbound, hread⟩ := h
  have hlive : cache.get (ItemTooltip.cacheKey item locale) now = some bytes := by
    rw [CacheStore.get, hget]
    exact if_pos (Nat.lt_of_lt_of_le hnow hbound)
  rw [ItemTooltipService.cached, hlive, Option.bind_some, hread]
  exact Option.some_ne_none tooltip

theorem store_eq (cache : CacheStore) (locale : Locale) (item : ItemId) (now : Millis)
    (hkeeps : service.json.Keeps tooltip) : ∃ bytes,
    service.store cache locale item tooltip now =
      cache.put (ItemTooltip.cacheKey item locale) bytes (plusMs now service.ttlMs) ∧
      service.json.fromSlice bytes = some tooltip := by
  obtain ⟨bytes, hwrite, hread⟩ := Option.bind_eq_some_iff.mp hkeeps
  exact ⟨bytes, by rw [store, hwrite], hread⟩

theorem holds_store (hkeeps : service.json.Keeps tooltip) :
    service.Holds (service.store cache locale item tooltip now) locale item (plusMs now service.ttlMs) := by
  obtain ⟨bytes, hstore, hread⟩ := store_eq cache locale item now hkeeps
  rw [hstore]
  exact ⟨bytes, _, tooltip, Dict.get?_put_self, Nat.le_refl _, hread⟩

/-- Storing, under this key or another, takes nothing away that ends no later. -/
theorem Holds.store (h : service.Holds cache l i bound) (hkeeps : service.json.Keeps tooltip)
    (hbound : bound ≤ plusMs now service.ttlMs) :
    service.Holds (service.store cache locale item tooltip now) l i bound := by
  obtain ⟨bytes, hstore, hread⟩ := store_eq cache locale item now hkeeps
  rw [hstore]
  by_cases hkey : ItemTooltip.cacheKey i l = ItemTooltip.cacheKey item locale
  · refine ⟨bytes, _, tooltip, ?_, hbound, hread⟩
    rw [hkey]
    exact Dict.get?_put_self
  · obtain ⟨old, expiresAt, kept, hget, hold⟩ := h
    exact ⟨old, expiresAt, kept, (Dict.get?_put_ne hkey).trans hget, hold⟩

theorem Holds.storeAll (h : service.Holds cache l i bound) (hkeeps : ∀ e ∈ localized, service.json.Keeps e.2)
    (hbound : bound ≤ plusMs now service.ttlMs) :
    service.Holds (service.storeAll cache item localized now) l i bound := by
  induction localized generalizing cache with
  | nil => exact h
  | cons e rest ih =>
      exact ih (h.store (hkeeps e List.mem_cons_self) hbound) fun e he => hkeeps e (List.mem_cons_of_mem _ he)

theorem holds_storeAll (hkeeps : ∀ e ∈ localized, service.json.Keeps e.2)
    (hmem : ∃ e ∈ localized, e.1 = locale) :
    service.Holds (service.storeAll cache item localized now) locale item (plusMs now service.ttlMs) := by
  induction localized generalizing cache with
  | nil =>
      obtain ⟨e, he, -⟩ := hmem
      cases he
  | cons first rest ih =>
      have hrest : ∀ e ∈ rest, service.json.Keeps e.2 := fun e he => hkeeps e (List.mem_cons_of_mem _ he)
      obtain ⟨e, he, hlocale⟩ := hmem
      rcases List.mem_cons.mp he with rfl | he
      · subst hlocale
        exact (holds_store (hkeeps e List.mem_cons_self)).storeAll hrest (Nat.le_refl _)
      · exact ih hrest ⟨e, he, hlocale⟩

end ItemTooltipService

/-! ## A call -/

/-- The branches of a call. -/
inductive Looks (service : ItemTooltipService) (cache : CacheStore) (r : TooltipRequest) :
    TooltipAnswer → CacheStore → Prop
  | cached (tooltip : ItemTooltip) : Looks service cache r ⟨tooltip, .cached, false⟩ cache
  | unconfigured (tooltip : ItemTooltip) : Looks service cache r ⟨tooltip, .unavailable, false⟩ cache
  | unavailable (hcached : service.cached cache r.locale r.item r.now = none) (tooltip : ItemTooltip) :
      Looks service cache r ⟨tooltip, .unavailable, true⟩ cache
  | answered {localized : List (Locale × ItemTooltip)}
      (hcached : service.cached cache r.locale r.item r.now = none)
      (hconfigured : r.provider.isConfigured = true)
      (hok : r.provider.tooltips r.region r.item = .ok localized)
      {freshness : Freshness} (hsettles : freshness = .fetched ∨ freshness = .missing) (tooltip : ItemTooltip) :
      Looks service cache r ⟨tooltip, freshness, true⟩ (service.storeAll cache r.item localized r.now)
  | notFound (hcached : service.cached cache r.locale r.item r.now = none)
      (herror : r.provider.tooltips r.region r.item = .error .notFound) (tooltip : ItemTooltip) :
      Looks service cache r ⟨tooltip, .missing, true⟩ (service.store cache r.locale r.item
        (.placeholder r.item r.locale r.fallbackName r.now) r.now)

theorem lookup_looks (service : ItemTooltipService) (cache : CacheStore) (r : TooltipRequest) :
    Looks service cache r (service.lookup cache r).1 (service.lookup cache r).2 := by
  unfold ItemTooltipService.lookup
  split
  · exact .cached _
  · rename_i hcached
    simp only
    split
    · exact .unconfigured _
    · rename_i hconfigured
      have hconfigured : r.provider.isConfigured = true := by simpa using hconfigured
      split
      · rename_i localized hok
        split
        · exact .answered hcached hconfigured hok (.inl rfl) _
        · exact .answered hcached hconfigured hok (.inr rfl) _
      · exact .notFound hcached ‹_› _
      · exact .unavailable hcached _

theorem Looks.cached_of_asked (h : Looks service cache r answer cache') (hasked : answer.asked = true) :
    service.cached cache r.locale r.item r.now = none := by
  cases h with
  | cached => cases hasked
  | unconfigured => cases hasked
  | unavailable hcached => exact hcached
  | answered hcached => exact hcached
  | notFound hcached => exact hcached

theorem Looks.unavailable_cache (h : Looks service cache r answer cache')
    (hunavailable : answer.freshness = .unavailable) : cache' = cache := by
  cases h with
  | cached => rfl
  | unconfigured => rfl
  | unavailable => rfl
  | answered _ _ _ hsettles =>
      simp only at hunavailable
      rcases hsettles with hf | hf <;> cases hf.symm.trans hunavailable
  | notFound => cases hunavailable

theorem stores_ok (hkeeps : ∀ t ∈ r.stores, service.json.Keeps t)
    (hok : r.provider.tooltips r.region r.item = .ok localized) : ∀ e ∈ localized, service.json.Keeps e.2 := by
  intro e he
  refine hkeeps e.2 ?_
  rw [TooltipRequest.stores, hok]
  exact List.mem_map_of_mem he

theorem stores_notFound (hkeeps : ∀ t ∈ r.stores, service.json.Keeps t)
    (herror : r.provider.tooltips r.region r.item = .error .notFound) :
    service.json.Keeps (.placeholder r.item r.locale r.fallbackName r.now) := by
  refine hkeeps _ ?_
  rw [TooltipRequest.stores, herror]
  exact List.mem_singleton_self _

/-- A call takes nothing away that ends no later than what it stores. -/
theorem Looks.holds (h : Looks service cache r answer cache') (hkeeps : ∀ t ∈ r.stores, service.json.Keeps t)
    (hholds : service.Holds cache l i bound) (hbound : bound ≤ plusMs r.now service.ttlMs) :
    service.Holds cache' l i bound := by
  cases h with
  | cached => exact hholds
  | unconfigured => exact hholds
  | unavailable => exact hholds
  | answered _ _ hok => exact hholds.storeAll (stores_ok hkeeps hok) hbound
  | notFound _ herror => exact hholds.store (stores_notFound hkeeps herror) hbound

/-- A call that settles a tooltip stores it, if the upstream speaks its language. -/
theorem Looks.settles (h : Looks service cache r answer cache') (hkeeps : ∀ t ∈ r.stores, service.json.Keeps t)
    (hspeaks : service.cached cache r.locale r.item r.now = none → r.provider.isConfigured = true →
      ∀ localized, r.provider.tooltips r.region r.item = .ok localized → ∃ e ∈ localized, e.1 = r.locale)
    (hsettles : answer.Settles) : service.Holds cache' r.locale r.item (plusMs r.now service.ttlMs) := by
  cases h with
  | cached => rcases hsettles with h | h <;> cases h
  | unconfigured => rcases hsettles with h | h <;> cases h
  | unavailable => rcases hsettles with h | h <;> cases h
  | answered hcached hconfigured hok =>
      exact service.holds_storeAll (stores_ok hkeeps hok) (hspeaks hcached hconfigured _ hok)
  | notFound _ herror => exact service.holds_store (stores_notFound hkeeps herror)

namespace Hovers

variable {s : Hovers}

/-! ## Every run -/

/-- Up to an instant: what was settled is held for its time, and was asked for once in it. -/
structure Watched (service : ItemTooltipService) (t : Millis) (s : Hovers) : Prop where
  past : ∀ e ∈ s.answers, e.1.now ≤ t
  held : ∀ e ∈ s.answers, e.2.Settles →
    service.Holds s.cache e.1.locale e.1.item (plusMs e.1.now service.ttlMs)
  asked : s.answers.Pairwise fun earlier later => later.2.asked = true →
    later.1.item = earlier.1.item → later.1.locale = earlier.1.locale → earlier.2.Settles →
    plusMs earlier.1.now service.ttlMs ≤ later.1.now

theorem plusMs_mono {a b : Millis} (h : a ≤ b) (ms : Nat) : plusMs a ms ≤ plusMs b ms :=
  min_le_min_right _ (Nat.add_le_add_right h ms)

theorem Watched.next {t : Millis} (h : s.Watched service t) (hclock : t ≤ r.now)
    (hspeaks : s.Speaks service r) (hkeeps : ∀ tooltip ∈ r.stores, service.json.Keeps tooltip) :
    (step service s r).Watched service r.now := by
  have hlooks := lookup_looks service s.cache r
  have hpast (e) (he : e ∈ s.answers) : e.1.now ≤ r.now := Nat.le_trans (h.past e he) hclock
  constructor
  · intro e he
    rcases List.mem_append.mp he with he | he
    · exact hpast e he
    · rw [List.mem_singleton.mp he]
  · intro e he hsettles
    rcases List.mem_append.mp he with he | he
    · exact hlooks.holds hkeeps (h.held e he hsettles) (plusMs_mono (hpast e he) _)
    · rw [List.mem_singleton.mp he] at hsettles ⊢
      exact hlooks.settles hkeeps hspeaks hsettles
  · refine List.pairwise_append.mpr ⟨h.asked, List.pairwise_singleton _ _, fun e he later hlater => ?_⟩
    rw [List.mem_singleton.mp hlater]
    intro hasked hitem hlocale hsettles
    -- What was settled is still held, so nothing but its end lets the call ask.
    refine Nat.le_of_not_lt fun hlt => ?_
    refine (h.held e he hsettles).cached hlt ?_
    rw [← hitem, ← hlocale]
    exact hlooks.cached_of_asked hasked

/-- In a run whose calls each get an answer in their language, if the upstream answers at all, what is
settled is not asked for again within its time. -/
theorem settled_not_fetched_again (service : ItemTooltipService) (cache : CacheStore)
    (rs : List TooltipRequest) (hkeeps : ∀ r ∈ rs, ∀ t ∈ r.stores, service.json.Keeps t)
    (hclock : (rs.map TooltipRequest.now).Pairwise (· ≤ ·))
    (hspeaks : Run.AllSteps (step service) (Speaks service) ⟨cache, []⟩ rs) :
    ∀ s ∈ Run.visited (step service) ⟨cache, []⟩ rs, s.Settled service := by
  intro s hs
  have hsteps : Run.AllSteps (step service)
      (fun s r => s.Speaks service r ∧ ∀ t ∈ r.stores, service.json.Keeps t) ⟨cache, []⟩ rs :=
    hspeaks.and (Run.allSteps_of_forall hkeeps)
  have hstart : Watched service 0 ⟨cache, []⟩ :=
    ⟨by rintro _ ⟨⟩, by rintro _ ⟨⟩, .nil⟩
  obtain ⟨t, hwatched⟩ := Run.invariant_clocked_of_steps TooltipRequest.now (Watched service)
    (fun _ _ _ h hle hc => h.next hle hc.1 hc.2) hstart (fun _ _ => Nat.zero_le _) hclock hsteps s hs
  exact ⟨hwatched.asked, fun r => (lookup_looks service s.cache r).unavailable_cache⟩

/-! ## Two upstreams -/

/-- A tooltip of item 7 that is only a name. -/
def flask (locale : Locale) : ItemTooltip := .placeholder 7 locale "Flask".toList 0

/-- The fields of `flask` but its locale, as they are written. -/
def flaskFields : List Text :=
  ["\"name\":\"Flask\"".toList, "\"quality\":\"common\"".toList, "\"item_level\":null".toList,
    "\"binding\":null".toList, "\"unique\":null".toList, "\"item_class\":null".toList,
    "\"item_subclass\":null".toList, "\"subclass_hidden\":false".toList, "\"required_level\":null".toList,
    "\"required_item_level\":null".toList, "\"stats\":[]".toList, "\"effects\":[]".toList,
    "\"flavor\":null".toList, "\"crafting_reagent\":null".toList, "\"sell_price\":null".toList,
    "\"sell_price_label\":null".toList, "\"fetched_at\":0".toList]

/-- The bytes of `flask`. -/
def flaskBytes (locale : Locale) : List UInt8 :=
  let fields := "\"item\":7".toList :: ("\"locale\":\"".toList ++ locale.code.map Char.toLower ++ ['"']) ::
    flaskFields
  ('\x7b' :: [','].intercalate fields ++ ['\x7d']).map fun c => c.toNat.toUInt8

/-- These two tooltips are written and read. -/
def flaskJson : SerdeJson where
  toVec tooltip := ([Locale.deDe, .enGb].find? fun l => tooltip = flask l).map flaskBytes
  fromSlice bytes := ([Locale.deDe, .enGb].find? fun l => bytes = flaskBytes l).map flask

/-- An upstream that knows item 7 in some languages, and no other item. -/
def flasks (locales : List Locale) : ItemDetailProvider where
  isConfigured := true
  tooltips _ item := if item = 7 then .ok (locales.map fun l => (l, flask l)) else .error .notFound

def hover (locale : Locale) (now : Millis) (provider : ItemDetailProvider) : TooltipRequest :=
  ⟨.eu, locale, 7, "Flask".toList, now, provider⟩

/-- In its language the item is fetched once, whatever the upstream becomes. -/
theorem flask_fetched_once :
    let service : ItemTooltipService := ⟨flaskJson, 1000⟩
    let rs := [hover .enGb 0 (flasks [.deDe, .enGb]), hover .deDe 5 (flasks []),
      hover .enGb 10 ⟨false, fun _ _ => .error .integration⟩]
    (∀ s ∈ Run.visited (step service) ⟨⟨.empty⟩, []⟩ rs, s.Settled service) ∧
      (Run.final (step service) ⟨⟨.empty⟩, []⟩ rs).answers.map (·.2.freshness) = [.fetched, .cached, .cached] := by
  refine ⟨settled_not_fetched_again _ _ _ ?_ (by decide) ⟨?_, ?_, ?_, trivial⟩, by decide +kernel⟩
  · unfold SerdeJson.Keeps
    decide +kernel
  · intro _ _ localized hok
    cases hok
    exact ⟨(.enGb, flask .enGb), by decide, rfl⟩
  · intro hnone
    exact absurd hnone (by decide +kernel)
  · intro _ hconfigured
    cases hconfigured

/-- The upstream has the item in German only: whoever hovers over it in English asks again each time. -/
theorem asked_for_at_every_hover :
    let service : ItemTooltipService := ⟨flaskJson, 1000⟩
    let rs := [hover .enGb 0 (flasks [.deDe]), hover .enGb 1 (flasks [.deDe])]
    (rs.map TooltipRequest.now).Pairwise (· ≤ ·) ∧
      (Run.final (step service) ⟨⟨.empty⟩, []⟩ rs).answers.map (fun e => (e.2.freshness, e.2.asked)) =
        [(.missing, true), (.missing, true)] ∧
      ¬ ∀ s ∈ Run.visited (step service) ⟨⟨.empty⟩, []⟩ rs, s.Settled service := by
  intro service rs
  refine ⟨by decide, by decide, fun hall => ?_⟩
  have hasked := (hall _ (Run.final_mem_visited _ _)).asked
  have hfacts : ((Run.final (step service) ⟨⟨.empty⟩, []⟩ rs).answers.map
      fun e => (e.1.item, e.1.locale, e.1.now, e.2.freshness, e.2.asked)).Pairwise
        fun (i, l, t, f, _) (i', l', t', _, a') => a' = true → i' = i → l' = l →
          f = .fetched ∨ f = .missing → plusMs t 1000 ≤ t' := List.pairwise_map.mpr hasked
  revert hfacts
  decide

end Hovers

/-! ## A page of tooltips -/

section Batches

variable {keys : List Text} {items : List ItemId}

theorem CacheStore.get_eq (cache : CacheStore) (key : Text) (now : Millis) :
    cache.get key now = ((cache.rows.retain fun _ value => decide (now < value.2)).get? key).map Prod.fst := by
  rw [CacheStore.get, Dict.get?_retain]
  cases cache.rows.get? key with
  | none => rfl
  | some value =>
      rw [Option.bind_some, Option.filter_some]
      by_cases h : now < value.2 <;> simp [h]

/-- Several values at once are the values one by one. -/
theorem CacheStore.getMany_perm (cache : CacheStore) (h : keys.Nodup) (now : Millis) :
    (cache.getMany keys now).Perm (keys.filterMap fun key => (cache.get key now).map fun value => (key, value)) := by
  have hchunk : ∀ part ∈ Slices.cuts keys (CacheStore.chunk * ·) ((keys.length + CacheStore.chunk - 1) / CacheStore.chunk),
      ((cache.rows.rows.filter fun e => part.any (· = e.1) && decide (now < e.2.2)).map fun e => (e.1, e.2.1)).Perm
        (part.filterMap fun key => (cache.get key now).map fun value => (key, value)) := by
    intro part hpart
    obtain ⟨n, -, rfl⟩ := List.mem_map.mp hpart
    have hpart : (Slices.slice keys (CacheStore.chunk * n) (CacheStore.chunk * (n + 1))).Nodup :=
      h.sublist ((List.drop_sublist _ _).trans (List.take_sublist _ _))
    have hrows := (Dict.rows_perm hpart (cache.rows.retain fun _ value => decide (now < value.2))).map
      fun e => (e.1, e.2.1)
    rw [Dict.retain, Keyed.rows_keep, List.filter_filter] at hrows
    refine hrows.trans (.of_eq ?_)
    rw [List.map_filterMap]
    refine List.filterMap_congr fun key _ => ?_
    rw [CacheStore.get_eq, Option.map_map, Option.map_map]
    rfl
  have hall : CacheStore.chunk * ((keys.length + CacheStore.chunk - 1) / CacheStore.chunk) ≥ keys.length := by
    rw [CacheStore.chunk]
    omega
  refine (List.Perm.flatMap_left _ hchunk).trans (.of_eq ?_)
  rw [List.flatMap_def, ← List.filterMap_flatten,
    Slices.flatten_cuts (Nat.mul_zero _) (fun n => Nat.mul_le_mul_left _ (Nat.le_succ n)), List.take_of_length_le hall]

theorem cacheKey_item (h : ItemTooltip.cacheKey item locale = ItemTooltip.cacheKey i l) : item = i := by
  have hkeys : "item-tooltip:v3:".toList ++ (locale.code ++ ':' :: Text.decimal item) =
      "item-tooltip:v3:".toList ++ (l.code ++ ':' :: Text.decimal i) := by
    rw [← List.append_assoc, ← List.append_assoc]
    exact h
  have hlength (l : Locale) : l.code.length = 5 := by cases l <;> rfl
  obtain ⟨-, hrest⟩ := List.append_inj (List.append_cancel_left hkeys) ((hlength locale).trans (hlength l).symm)
  exact Text.decimal_inj (List.cons.inj hrest).2

/-- What is read under the key of an item is about the item. -/
def Filed (service : ItemTooltipService) (cache : CacheStore) : Prop :=
  ∀ item locale bytes expiresAt tooltip,
    cache.rows.get? (ItemTooltip.cacheKey item locale) = some (bytes, expiresAt) →
      service.json.fromSlice bytes = some tooltip → tooltip.item = item

theorem Filed.store (h : Filed service cache) (hkeeps : service.json.Keeps tooltip) (hitem : tooltip.item = item) :
    Filed service (service.store cache locale item tooltip now) := by
  obtain ⟨bytes, hstore, hread⟩ := ItemTooltipService.store_eq cache locale item now hkeeps
  rw [hstore]
  intro i l found expiresAt read hget hfound
  by_cases hkey : ItemTooltip.cacheKey i l = ItemTooltip.cacheKey item locale
  · rw [hkey] at hget
    cases Dict.get?_put_self.symm.trans hget
    cases hread.symm.trans hfound
    rw [hitem, cacheKey_item hkey]
  · exact h i l found expiresAt read ((Dict.get?_put_ne hkey).symm.trans hget) hfound

theorem Filed.storeAll (h : Filed service cache)
    (hall : ∀ e ∈ localized, service.json.Keeps e.2 ∧ e.2.item = item) :
    Filed service (service.storeAll cache item localized now) := by
  induction localized generalizing cache with
  | nil => exact h
  | cons e rest ih =>
      obtain ⟨hkeeps, hitem⟩ := hall e List.mem_cons_self
      exact ih (h.store hkeeps hitem) fun e he => hall e (List.mem_cons_of_mem _ he)

/-- What upstream and everybody else may be expected to do: answers are about the item that was asked for,
tooltips survive being written and read, and nobody else's key is one of an item. -/
def CacheUse.Proper (service : ItemTooltipService) : CacheUse → Prop
  | .hover r => ∀ t ∈ r.stores, service.json.Keeps t ∧ t.item = r.item
  | .purge _ => True
  | .put key _ _ => ∀ item locale, ItemTooltip.cacheKey item locale ≠ key

theorem Filed.use (h : Filed service cache) (u : CacheUse) (hu : u.Proper service) :
    Filed service (cache.use service u) := by
  cases u with
  | hover r =>
      have hlook := lookup_looks service cache r
      rw [CacheStore.use]
      generalize (service.lookup cache r).1 = answer at hlook
      generalize (service.lookup cache r).2 = cache' at hlook ⊢
      cases hlook with
      | cached | unconfigured | unavailable => exact h
      | answered _ _ hok =>
          refine h.storeAll fun e he => hu e.2 ?_
          rw [TooltipRequest.stores, hok]
          exact List.mem_map_of_mem he
      | notFound _ herror => exact h.store (stores_notFound (fun t ht => (hu t ht).1) herror) rfl
  | purge now =>
      intro item locale bytes expiresAt tooltip hget
      rw [CacheStore.use, CacheStore.purgeExpired, Dict.get?_retain] at hget
      exact h item locale bytes expiresAt tooltip (Option.filter_eq_some_iff.mp hget).1
  | put key value expires =>
      intro item locale bytes expiresAt tooltip hget
      exact h item locale bytes expiresAt tooltip ((Dict.get?_put_ne (hu item locale)).symm.trans hget)

/-- Whatever the cache has been used for, a page gets from one round trip exactly the tooltips that asking
for one item after the other would get it, each once and under its own id. -/
theorem cached_many_agrees (service : ItemTooltipService) (uses : List CacheUse)
    (huses : ∀ u ∈ uses, u.Proper service) (locale : Locale) (items : List ItemId) (now : Millis) :
    let cache := Run.final (CacheStore.use service) ⟨.empty⟩ uses
    (service.cachedMany cache locale items now).Perm
      (items.dedup.filterMap fun item => (service.cached cache locale item now).map fun tooltip => (item, tooltip)) := by
  intro cache
  have hfiled : Filed service cache :=
    Run.invariant (fun _ u h hu => h.use u hu) (fun _ _ _ _ _ hget => nomatch hget) (Run.allSteps_of_forall huses) _
      (Run.final_mem_visited _ _)
  have hwanted : ((items.insertionSort (· ≤ ·)).dedup).Perm items.dedup :=
    (List.perm_insertionSort (· ≤ ·) items).dedup
  have hkeys : (((items.insertionSort (· ≤ ·)).dedup).map fun item => ItemTooltip.cacheKey item locale).Nodup :=
    (List.nodup_dedup _).map fun _ _ h => cacheKey_item h
  refine (((cache.getMany_perm hkeys now).filterMap _).map _).trans ?_
  rw [List.filterMap_map, List.filterMap_filterMap, List.map_filterMap]
  refine (List.Perm.of_eq (List.filterMap_congr fun item _ => ?_)).trans (hwanted.filterMap _)
  simp only [Function.comp_apply, ItemTooltipService.cached]
  cases hget : cache.get (ItemTooltip.cacheKey item locale) now with
  | none => rfl
  | some bytes =>
      simp only [Option.map_some, Option.bind_some]
      cases hread : service.json.fromSlice bytes with
      | none => rfl
      | some tooltip =>
          obtain ⟨entry, hentry, rfl⟩ := Option.map_eq_some_iff.mp (CacheStore.get_eq .. ▸ hget)
          rw [Dict.get?_retain] at hentry
          have hitem := hfiled item locale _ _ tooltip (Option.filter_eq_some_iff.mp hentry).1 hread
          simp only [Option.map_some, hitem]

/-- A page of five hundred items, one of them shown twice, after somebody has hovered over it. -/
theorem cached_many_agrees_page :
    let service : ItemTooltipService := ⟨Hovers.flaskJson, 1000⟩
    let uses := [.hover (Hovers.hover .enGb 0 (Hovers.flasks [.deDe, .enGb])), .purge 5, .put ['x'] [] 9]
    let cache := Run.final (CacheStore.use service) ⟨.empty⟩ uses
    let page := List.range 500 ++ [7]
    (service.cachedMany cache .enGb page 10).Perm (page.dedup.filterMap fun item =>
        (service.cached cache .enGb item 10).map fun tooltip => (item, tooltip)) ∧
      (7, Hovers.flask .enGb) ∈ service.cachedMany cache .enGb page 10 := by
  intro service uses cache page
  have hperm : (service.cachedMany cache .enGb page 10).Perm (page.dedup.filterMap fun item =>
      (service.cached cache .enGb item 10).map fun tooltip => (item, tooltip)) := by
    refine cached_many_agrees service uses (List.forall_mem_cons.mpr ⟨?_, ?_⟩) .enGb page 10
    · unfold CacheUse.Proper SerdeJson.Keeps
      decide +kernel
    · refine List.forall_mem_cons.mpr ⟨trivial, List.forall_mem_singleton.mpr fun item locale h => ?_⟩
      have hhead : some 'i' = some 'x' := congrArg List.head? h
      exact absurd hhead (by decide)
  have hheld : service.cached cache .enGb 7 10 = some (Hovers.flask .enGb) := by decide +kernel
  have hshown : 7 ∈ page.dedup := List.mem_dedup.mpr (List.mem_append_right _ (List.mem_singleton.mpr rfl))
  exact ⟨hperm, hperm.mem_iff.mpr (List.mem_filterMap.mpr ⟨7, hshown, by rw [hheld]; rfl⟩)⟩

end Batches

end Gavel.Web
