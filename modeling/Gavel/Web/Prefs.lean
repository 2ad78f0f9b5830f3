import Gavel.Market.Basic
import Gavel.Web.Headers
import Gavel.Web.Query

/-!
# A visitor's preferences

Which region's prices, in which language, against which window and of which realm: what a query and a
cookie say of them, how they are resolved, and the cookie that remembers an explicit choice.
-/

namespace Gavel.Web

open Gavel.Market (Region maxU64)

/-! ## Languages -/

/-- The languages of item texts, in picker order. -/
inductive Locale where
  | enGb | enUs | deDe | esEs | esMx | frFr | itIt | ptBr | ruRu | koKr | zhTw | zhCn
  deriving DecidableEq

namespace Locale

def all : List Locale :=
  [.enGb, .enUs, .deDe, .esEs, .esMx, .frFr, .itIt, .ptBr, .ruRu, .koKr, .zhTw, .zhCn]

def code : Locale → Text
  | .enGb => "en_GB".toList
  | .enUs => "en_US".toList
  | .deDe => "de_DE".toList
  | .esEs => "es_ES".toList
  | .esMx => "es_MX".toList
  | .frFr => "fr_FR".toList
  | .itIt => "it_IT".toList
  | .ptBr => "pt_BR".toList
  | .ruRu => "ru_RU".toList
  | .koKr => "ko_KR".toList
  | .zhTw => "zh_TW".toList
  | .zhCn => "zh_CN".toList

def language : Locale → Text
  | .enGb | .enUs => "en".toList
  | .deDe => "de".toList
  | .esEs | .esMx => "es".toList
  | .frFr => "fr".toList
  | .itIt => "it".toList
  | .ptBr => "pt".toList
  | .ruRu => "ru".toList
  | .koKr => "ko".toList
  | .zhTw | .zhCn => "zh".toList

/-- Accepts `de_DE` and `de-DE` alike. -/
def parse (value : Text) : Option Locale :=
  let value := (Text.trimMatches isWhitespace value).map fun c => if c = '-' then '_' else c
  all.find? fun l => l.code.map Char.toLower = value.map Char.toLower

/-- The first language of a browser's list that is carried, by its code or by its language alone. -/
def fromAcceptLanguage (tables : CharTables) (header : Text) : Option Locale :=
  (header.splitOn ',').findSome? fun tag =>
    let tag := Text.trimMatches isWhitespace (tag.takeWhile (· ≠ ';'))
    if tag = [] ∨ tag = ['*'] then none
    else
      let language := (tag.takeWhile fun c => c ≠ '-' ∧ c ≠ '_').flatMap tables.toLowercase
      (parse tag).or (all.find? fun l => l.language = language)

end Locale

def defaultLocale : Locale := .enGb

/-! ## Windows -/

/-- The windows on offer, in days, with their labels. -/
def baselineChoices : List (Nat × String) :=
  [(1, "Last 24 hours"), (3, "Last 3 days"), (7, "Last 7 days"), (14, "Last 14 days"),
    (30, "Last 30 days")]

def defaultBaselineDays : Nat := 7

/-- A baseline window, but only one that is on the menu. -/
def parseBaseline (raw : Text) : Option Nat :=
  (Text.parseNat maxU64 raw).filter fun days => baselineChoices.any fun choice => choice.1 = days

/-! ## Realms -/

/-- A slug grows by a letter in lower case, or by one hyphen for all that stands between letters. -/
def slugStep (tables : CharTables) (out : Text) (ch : Char) : Text :=
  if tables.isAlphanumeric ch then out ++ tables.toLowercase ch
  else if out.getLast? = some '-' then out
  else out ++ ['-']

/-- A realm slug; the empty one is all realms. -/
def slug (tables : CharTables) (raw : Text) : Option Text :=
  let trimmed := Text.trimMatches (· = '-') (raw.foldl (slugStep tables) [])
  if trimmed.isEmpty then none else some trimmed

/-! ## Choices -/

/-- The resolved choice for one request. -/
structure MarketPrefs where
  region : Region
  locale : Locale
  baselineDays : Nat
  deriving DecidableEq

/-- Which connected realm's prices to show, as its slug; `none` is all realms. -/
abbrev RealmChoice := Option Text

/-- What one source had to say. A realm is not mentioned, all realms, or one. -/
structure Choice where
  region : Option Region
  locale : Option Locale
  baseline : Option Nat
  realm : Option RealmChoice
  deriving DecidableEq

namespace Choice

def empty : Choice := ⟨none, none, none, none⟩

/-- A pair of the query, which overrides an earlier one of its name. -/
def note (tables : CharTables) (choice : Choice) (pair : Text × Text) : Choice :=
  if pair.1 = "region".toList then { choice with region := Region.parse pair.2 }
  else if pair.1 = "lang".toList then { choice with locale := Locale.parse pair.2 }
  else if pair.1 = "baseline".toList then { choice with baseline := parseBaseline pair.2 }
  else if pair.1 = "realm".toList then { choice with realm := some (slug tables pair.2) }
  else choice

end Choice

namespace MarketPrefs

def cookieValue (prefs : MarketPrefs) (realm : RealmChoice) : Text :=
  ['|'].intercalate
    [prefs.region.asStr, prefs.locale.code, Text.decimal prefs.baselineDays, realm.getD []]

/-- Region, language, baseline, realm; a field that is missing was not chosen. -/
def parseCookie (tables : CharTables) (raw : Text) : Choice :=
  let fields := raw.splitOn '|'
  { region := fields[0]?.bind Region.parse
    locale := fields[1]?.bind Locale.parse
    baseline := fields[2]?.bind parseBaseline
    realm := fields[3]?.map (slug tables) }

end MarketPrefs

/-! ## One request -/

/-- What of a request the preferences depend on. -/
structure PrefsRequest where
  query : Option Text
  cookies : List HeaderValue
  acceptLanguage : Option HeaderValue
  deriving DecidableEq

/-- The preferences of a request and the cookie its response sets. -/
structure Resolved where
  prefs : MarketPrefs
  realm : RealmChoice
  setCookie : Option HeaderValue
  deriving DecidableEq

def marketCookie : Text := "wow_tracker_market".toList

/-- A year: this is a display preference, not a session. -/
def cookieMaxAge : Nat := 31536000

def badQuery : String := "The query string is not valid percent-encoded UTF-8."

section Layer

-- Header values and the parser of a form are other crates'.
variable (http : Http) (tables : CharTables) (fromStr : Text → Option (List (Text × Text)))

/-- The choices a raw query string makes; `none` is a query string that is refused. -/
def fromQuery : Option Text → Option Choice
  | none => some .empty
  | some query =>
      if validatePercentEncoding query then
        (fromStr query).map fun pairs => pairs.foldl (Choice.note tables) .empty
      else none

def acceptLanguage (header : Option HeaderValue) : Option Locale :=
  (header.bind http.toStr).bind (Locale.fromAcceptLanguage tables)

/-- The value that hands the preferences to the browser. -/
def marketSetCookie (prefs : MarketPrefs) (realm : RealmChoice) : Text :=
  (marketCookie ++ '=' :: prefs.cookieValue realm) ++ "; Path=/; SameSite=Lax; Max-Age=".toList ++
    Text.decimal cookieMaxAge

/-- The preferences of a query and a cookie. A region that is not collected is not offered. -/
def resolve (collected : List Region) (query cookie : Choice) (header : Option HeaderValue) :
    MarketPrefs × RealmChoice :=
  let allowed (region : Option Region) := region.filter fun r => r ∈ collected
  ({ region := (((allowed query.region).or (allowed cookie.region)).or collected.head?).getD .eu
     locale := ((query.locale.or cookie.locale).or (acceptLanguage http tables header)).getD defaultLocale
     baselineDays := (query.baseline.or cookie.baseline).getD defaultBaselineDays },
    (query.realm.or cookie.realm).join)

/-- An explicit choice is remembered, and only that; a bad query is an error with its message. -/
def prefsLayer (collected : List Region) (request : PrefsRequest) : Except String Resolved :=
  match fromQuery tables fromStr request.query with
  | none => .error badQuery
  | some query =>
      let cookie := ((cookieValue http request.cookies marketCookie).map
        (MarketPrefs.parseCookie tables)).getD .empty
      let (prefs, realm) := resolve http tables collected query cookie request.acceptLanguage
      .ok ⟨prefs, realm,
        if query ≠ .empty then http.fromStr (marketSetCookie prefs realm) else none⟩

end Layer

end Gavel.Web
