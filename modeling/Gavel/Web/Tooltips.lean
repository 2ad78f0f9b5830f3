import Gavel.Lib.Dict
import Gavel.Lib.Run
import Gavel.Lib.Slices
import Gavel.Market.Cadence
import Gavel.Web.Prefs

/-!
# Item tooltips

A tooltip is fetched when somebody hovers over an item, and kept for days. One answer of the upstream holds
an item in every language, and all of them are stored.
-/

namespace Gavel.Web

open Gavel.Cluster (Millis)
open Gavel.Market (Copper ItemId Region plusMs)

inductive ItemQuality where
  | poor | common | uncommon | rare | epic | legendary | artifact | heirloom
  deriving DecidableEq

/-- What a tooltip needs to draw, in the order the game draws it. -/
structure ItemTooltip where
  item : ItemId
  locale : Locale
  name : Text
  quality : ItemQuality
  itemLevel : Option Text
  binding : Option Text
  unique : Option Text
  itemClass : Option Text
  itemSubclass : Option Text
  subclassHidden : Bool
  requiredLevel : Option Text
  requiredItemLevel : Option Text
  stats : List Text
  effects : List Text
  flavor : Option Text
  craftingReagent : Option Text
  sellPrice : Option Copper
  sellPriceLabel : Option Text
  fetchedAt : Millis
  deriving DecidableEq

namespace ItemTooltip

/-- Language and item, with no region in it. -/
def cacheKey (item : ItemId) (locale : Locale) : Text :=
  "item-tooltip:v3:".toList ++ locale.code ++ ':' :: Text.decimal item

/-- A minimal tooltip from what is known locally. -/
def placeholder (item : ItemId) (locale : Locale) (name : Text) (at' : Millis) : ItemTooltip where
  item
  locale
  name
  quality := .common
  itemLevel := none
  binding := none
  unique := none
  itemClass := none
  itemSubclass := none
  subclassHidden := false
  requiredLevel := none
  requiredItemLevel := none
  stats := []
  effects := []
  flavor := none
  craftingReagent := none
  sellPrice := none
  sellPriceLabel := none
  fetchedAt := at'

end ItemTooltip

/-- How tooltips are written as bytes and read back. -/
structure SerdeJson where
  toVec : ItemTooltip → Option (List UInt8)
  fromSlice : List UInt8 → Option ItemTooltip

/-- A value under a key, with the instant it expires. -/
structure CacheStore where
  rows : Dict Text (List UInt8 × Millis)

namespace CacheStore

def get (cache : CacheStore) (key : Text) (now : Millis) : Option (List UInt8) :=
  (cache.rows.get? key).bind fun (value, expiresAt) => if now < expiresAt then some value else none

def put (cache : CacheStore) (key : Text) (value : List UInt8) (expiresAt : Millis) : CacheStore :=
  ⟨cache.rows.put key (value, expiresAt)⟩

/-- Keys per statement. -/
def chunk : Nat := 400

/-- The values under several keys, as many keys to a statement as it takes. A statement returns its rows in
whatever order the table has them. -/
def getMany (cache : CacheStore) (keys : List Text) (now : Millis) : List (Text × List UInt8) :=
  (Slices.cuts keys (chunk * ·) ((keys.length + chunk - 1) / chunk)).flatMap fun keys =>
    (cache.rows.rows.filter fun e => keys.any (· = e.1) && decide (now < e.2.2)).map fun e => (e.1, e.2.1)

def purgeExpired (cache : CacheStore) (now : Millis) : CacheStore :=
  ⟨cache.rows.retain fun _ value => decide (now < value.2)⟩

end CacheStore

/-- What a call fails with, the messages left out. -/
inductive AppError where
  | notFound | validation | unauthorized | forbidden | tooManyRequests | conflict | integration | cluster
  | repo | internal
  deriving DecidableEq

/-- The upstream, as it behaves at one moment. -/
structure ItemDetailProvider where
  isConfigured : Bool
  /-- Every language the region publishes for the item, from one request. -/
  tooltips : Region → ItemId → Except AppError (List (Locale × ItemTooltip))

/-- Where a tooltip came from. -/
inductive Freshness where
  | cached | fetched
  /-- The upstream does not know the item. -/
  | missing
  /-- The upstream could not answer. -/
  | unavailable
  deriving DecidableEq

/-- A call of `lookup`, and the upstream it finds. -/
structure TooltipRequest where
  region : Region
  locale : Locale
  item : ItemId
  fallbackName : Text
  now : Millis
  provider : ItemDetailProvider

/-- The answer, and whether the upstream was asked for it. -/
structure TooltipAnswer where
  tooltip : ItemTooltip
  freshness : Freshness
  asked : Bool
  deriving DecidableEq

structure ItemTooltipService where
  json : SerdeJson
  ttlMs : Nat

namespace ItemTooltipService

variable (service : ItemTooltipService)

/-- Cache-only read. -/
def cached (cache : CacheStore) (locale : Locale) (item : ItemId) (now : Millis) : Option ItemTooltip :=
  (cache.get (ItemTooltip.cacheKey item locale) now).bind service.json.fromSlice

/-- Every cached tooltip among some items, each under the id inside it. -/
def cachedMany (cache : CacheStore) (locale : Locale) (items : List ItemId) (now : Millis) :
    List (ItemId × ItemTooltip) :=
  let wanted := (items.insertionSort (· ≤ ·)).dedup
  let rows := cache.getMany (wanted.map fun item => ItemTooltip.cacheKey item locale) now
  (rows.filterMap fun row => service.json.fromSlice row.2).map fun tooltip => (tooltip.item, tooltip)

def store (cache : CacheStore) (locale : Locale) (item : ItemId) (tooltip : ItemTooltip) (now : Millis) :
    CacheStore :=
  match service.json.toVec tooltip with
  | some bytes => cache.put (ItemTooltip.cacheKey item locale) bytes (plusMs now service.ttlMs)
  | none => cache

def storeAll (cache : CacheStore) (item : ItemId) (localized : List (Locale × ItemTooltip)) (now : Millis) :
    CacheStore :=
  localized.foldl (fun cache (locale, tooltip) => service.store cache locale item tooltip now) cache

/-- The tooltip for one item in one language, fetching every language if it is not cached. -/
def lookup (cache : CacheStore) (r : TooltipRequest) : TooltipAnswer × CacheStore :=
  match service.cached cache r.locale r.item r.now with
  | some tooltip => (⟨tooltip, .cached, false⟩, cache)
  | none =>
      let placeholder := ItemTooltip.placeholder r.item r.locale r.fallbackName r.now
      if !r.provider.isConfigured then (⟨placeholder, .unavailable, false⟩, cache)
      else
        match r.provider.tooltips r.region r.item with
        | .ok localized =>
            let cache := service.storeAll cache r.item localized r.now
            match localized.find? (·.1 = r.locale) with
            | some (_, tooltip) => (⟨tooltip, .fetched, true⟩, cache)
            -- An answer, but not in this language: the placeholder is not stored.
            | none => (⟨placeholder, .missing, true⟩, cache)
        | .error .notFound =>
            (⟨placeholder, .missing, true⟩, service.store cache r.locale r.item placeholder r.now)
        | .error _ => (⟨placeholder, .unavailable, true⟩, cache)

end ItemTooltipService

/-- What happens to a cache: somebody hovers over an item, what is over is dropped, or somebody else keeps a
value of their own. -/
inductive CacheUse where
  | hover (r : TooltipRequest)
  | purge (now : Millis)
  | put (key : Text) (value : List UInt8) (expiresAt : Millis)

def CacheStore.use (service : ItemTooltipService) (cache : CacheStore) : CacheUse → CacheStore
  | .hover r => (service.lookup cache r).2
  | .purge now => cache.purgeExpired now
  | .put key value expiresAt => cache.put key value expiresAt

/-- The cache, and the calls so far with their answers. -/
structure Hovers where
  cache : CacheStore
  answers : List (TooltipRequest × TooltipAnswer)

namespace Hovers

def step (service : ItemTooltipService) (s : Hovers) (r : TooltipRequest) : Hovers :=
  let (answer, cache) := service.lookup s.cache r
  ⟨cache, s.answers ++ [(r, answer)]⟩

end Hovers

end Gavel.Web
