import Gavel.Lib.Log
import Gavel.Lib.Run
import Gavel.Lib.Unicode
import Gavel.Storage.Accounts
import Gavel.Web.Admin
import Gavel.Web.Csrf

/-!
# Accounts over the web

The requests that make, sign in to and act on accounts, of any number of visitors at once: a request makes
one call at a time, to the store, the hasher or the token source, and between two of its calls others may
run. The log says what was done, and by which request.
-/

namespace Gavel.Web

open Gavel.Cluster (Millis)
open Gavel.Market (ItemId Region plusMs)
open Gavel.Storage (Accounts Credentials RepoError Session User UserId)

/-- The hash of a password nobody holds. -/
def absentUserHash : Text :=
  "$argon2id$v=19$m=19456,t=2,p=1$PBDGmYQeDFZi+ngthQy7oA$nWFqoA3BhV2HzsVjhYkCtBOCC1eJX9HiHrqd0jaL7aQ".toList

inductive AccountError where
  | notFound | unauthorized | forbidden
  | validation (source : String) (args : List Nat)
  | conflict (source : String)
  | store (e : RepoError)
  /-- Throttled, no permit to hash, a hasher or a store that fails. -/
  | elsewhere
  deriving DecidableEq

def validateUsername (username : Text) : Except AccountError Unit :=
  if ¬ (3 ≤ username.length ∧ username.length ≤ 32) then
    .error (.validation "username must be \x7b\x7d-\x7b\x7d characters" [3, 32])
  else if ¬ username.all (fun c => c.isAlphanum || c == '_' || c == '-') then
    .error (.validation "username may contain letters, digits, '_' and '-' only" [])
  else .ok ()

def validatePassword (password : Text) : Except AccountError Unit :=
  if ¬ (8 ≤ password.length ∧ password.length ≤ 256) then
    .error (.validation "password must be \x7b\x7d-\x7b\x7d characters" [8, 256])
  else .ok ()

/-- Not an arbitrary host this server would relay a post to. -/
def looksLikeDiscordWebhook (url : Text) : Bool :=
  "https://discord.com/api/webhooks/".toList.isPrefixOf url ||
    "https://discordapp.com/api/webhooks/".toList.isPrefixOf url

/-- Whoever a session belongs to, while it has not expired. -/
def authenticate (a : Accounts) (token : Text) (now : Millis) : Option User :=
  match a.getSession token with
  | some s => if s.isExpired now then none else a.byId s.userId
  | none => none

/-! ## Requests -/

/-- What somebody who is signed in may ask for. -/
inductive Action where
  | delete
  | setDiscordWebhook (webhookUrl : Text)
  | toggle (item : ItemId) (region : Text) (watch : Bool)
  deriving DecidableEq

/-- What a request is for; a cookie carries the token of a session. -/
inductive Errand where
  | register (username password : Text)
  | login (username password : Text)
  | logout (cookie : Option Text)
  | act (cookie : Option Text) (action : Action)
  deriving DecidableEq

/-- What is answered to somebody who is not signed in. -/
def Action.signedOut : Action → AccountError
  | .delete => .unauthorized
  | _ => .notFound

/-- The call a request makes next, with what its handler has in hand. -/
inductive NextCall where
  | byUsername
  | hash
  | create (passwordHash : Text)
  | verify (credentials : Option Credentials)
  | createSession (user : User)
  | getSession
  /-- The session found has expired. -/
  | dropSession (session : Session)
  | byId (session : Session)
  | act (user : User)
  | deleteSession
  | answered (result : Except AccountError Unit)
  deriving DecidableEq

def NextCall.refused (e : AccountError) : NextCall := .answered (.error e)

structure Visit where
  errand : Errand
  /-- Whether the form carries the token of the page it came from. -/
  csrf : Bool
  arrived : Millis
  next : NextCall
  deriving DecidableEq

/-- The checks before the first call. Only to delete the account is the form checked before the session. -/
def Errand.enter (csrf : Bool) : Errand → NextCall
  | .register username password =>
      if !csrf then .refused .forbidden
      else
        match validateUsername username, validatePassword password with
        | .error e, _ => .refused e
        | _, .error e => .refused e
        | .ok _, .ok _ => .byUsername
  | .login _ _ => if !csrf then .refused .forbidden else .byUsername
  | .logout cookie =>
      if !csrf then .refused .forbidden
      else if cookie.isSome then .deleteSession else .answered (.ok ())
  | .act cookie action =>
      if action = .delete ∧ !csrf then .refused .forbidden
      else if cookie.isSome then .getSession else .refused action.signedOut

/-! ## The log -/

inductive Deed where
  | arrived (errand : Errand) (now : Millis)
  | created (user : User) (passwordHash : Text)
  | issued (session : Session)
  | loggedOut (token : Text)
  | deleted (id : UserId)
  | followed (id : UserId) (item : ItemId) (region : Region) (now : Millis)
  | unfollowed (id : UserId) (item : ItemId) (region : Region)
  | configured (id : UserId) (webhook : Option Text)
  deriving DecidableEq

structure Entry where
  /-- The request that did it; what a process does when it starts is nobody's request. -/
  visit : Option Nat
  deed : Deed
  deriving DecidableEq

/-- What a call leaves. -/
structure Outcome where
  accounts : Accounts
  next : NextCall
  deed : Option Deed

/-- What the world has for a call: a salted hash or a token, and whether the public catalogue has the item. -/
structure Given where
  text : Text
  isPublic : Bool
  deriving DecidableEq

/-! ## Calls -/

namespace Visit

variable (verify : Text → Text → Option Bool)

/-- The password hasher has the user's hash, or the one nobody holds. -/
def verified (password : Text) (credentials : Option Credentials) : NextCall :=
  match verify password (credentials.elim absentUserHash (·.passwordHash)), credentials with
  | none, _ => .refused .elsewhere
  | some true, some c => .createSession c.user
  | some _, _ => .refused .unauthorized

def startSession (v : Visit) (a : Accounts) (user : User) (token : Text) : Outcome :=
  let session : Session := ⟨token, user.id, v.arrived, plusMs v.arrived sessionTtlMs⟩
  match a.createSession session with
  | .error e => ⟨a, .refused (.store e), none⟩
  | .ok a => ⟨a, .answered (.ok ()), some (.issued session)⟩

/-- The session is looked up, and what is done about it is decided. -/
def resolved (v : Visit) (action : Action) : Option Session → NextCall
  | none => .refused action.signedOut
  | some s => if s.isExpired v.arrived then .dropSession s else .byId s

def perform (v : Visit) (a : Accounts) (user : User) (now : Millis) (isPublic : Bool) : Action → Outcome
  | .delete =>
      let (deleted, a') := a.delete user.id
      if deleted then ⟨a', .answered (.ok ()), some (.deleted user.id)⟩
      else ⟨a', .refused .notFound, none⟩
  | .setDiscordWebhook webhookUrl =>
      let webhook := trimmed webhookUrl
      if !v.csrf then ⟨a, .refused .forbidden, none⟩
      else if webhook.isEmpty then
        ⟨a.setDiscordWebhook user.id none, .answered (.ok ()), some (.configured user.id none)⟩
      else if !looksLikeDiscordWebhook webhook then
        ⟨a, .refused (.validation
          "that doesn't look like a Discord webhook URL (should start with https://discord.com/api/webhooks/)"
          []), none⟩
      else
        ⟨a.setDiscordWebhook user.id (some webhook), .answered (.ok ()),
          some (.configured user.id (some webhook))⟩
  | .toggle item region watch =>
      if !v.csrf then ⟨a, .refused .forbidden, none⟩
      else
        match Region.parse region with
        | none => ⟨a, .refused .notFound, none⟩
        | some region =>
            if !isPublic then ⟨a, .refused .notFound, none⟩
            else if watch then
              match a.watch user.id item region now with
              | .error e => ⟨a, .refused (.store e), none⟩
              | .ok a => ⟨a, .answered (.ok ()), some (.followed user.id item region now)⟩
            else
              ⟨a.unwatch user.id item region, .answered (.ok ()), some (.unfollowed user.id item region)⟩

/-- The next call of a request. -/
def proceed (v : Visit) (a : Accounts) (now : Millis) (given : Given) : Outcome :=
  match v.errand, v.next with
  | .register username _, .byUsername =>
      ⟨a, if (a.byUsername username).isSome then .refused (.conflict "username already taken") else .hash,
        none⟩
  | .register _ _, .hash => ⟨a, .create given.text, none⟩
  | .register username _, .create passwordHash =>
      match a.create username passwordHash v.arrived with
      | .error e => ⟨a, .refused (.store e), none⟩
      | .ok (user, a) => ⟨a, .createSession user, some (.created user passwordHash)⟩
  | .register _ _, .createSession user | .login _ _, .createSession user =>
      v.startSession a user given.text
  | .login username _, .byUsername =>
      ⟨a, .verify ((a.byUsername username).map (·.toCredentials)), none⟩
  | .login _ password, .verify credentials => ⟨a, verified verify password credentials, none⟩
  | .logout (some token), .deleteSession =>
      ⟨a.deleteSession token, .answered (.ok ()), some (.loggedOut token)⟩
  | .act (some token) action, .getSession => ⟨a, v.resolved action (a.getSession token), none⟩
  | .act (some token) action, .dropSession _ => ⟨a.deleteSession token, .refused action.signedOut, none⟩
  | .act _ action, .byId session =>
      ⟨a, (a.byId session.userId).elim (.refused action.signedOut) .act, none⟩
  | .act _ action, .act user => v.perform a user now given.isPublic action
  | _, next => ⟨a, next, none⟩

/-- A call that fails, or a check that is not about the account. -/
def failed (v : Visit) : Visit :=
  match v.next with
  | .answered _ => v
  | _ => { v with next := .refused .elsewhere }

end Visit

/-! ## The site -/

structure AccountSite where
  accounts : Accounts
  visits : List Visit
  log : List Entry

inductive SiteCall where
  | arrive (errand : Errand) (csrf : Bool)
  | proceed (i : Nat) (given : Given)
  | fail (i : Nat)
  /-- What a process does when it starts. -/
  | purgeExpired
  | bootstrapAdmin (username password passwordHash : Text)
  deriving DecidableEq

/-- A call and when it is made. -/
abbrev SiteStep := Millis × SiteCall

namespace AccountSite

def start : AccountSite := ⟨.empty, [], []⟩

def arrive (s : AccountSite) (now : Millis) (errand : Errand) (csrf : Bool) : AccountSite :=
  { s with
    visits := s.visits ++ [⟨errand, csrf, now, errand.enter csrf⟩]
    log := s.log ++ [⟨some s.visits.length, .arrived errand now⟩] }

def settle (s : AccountSite) (i : Nat) (v : Visit) (o : Outcome) : AccountSite where
  accounts := o.accounts
  visits := s.visits.set i { v with next := o.next }
  log := s.log ++ (o.deed.map (Entry.mk (some i))).toList

def bootstrapAdmin (s : AccountSite) (now : Millis) (username password passwordHash : Text) : AccountSite :=
  match validateUsername username, validatePassword password,
    s.accounts.bootstrapAdmin username passwordHash now with
  | .ok _, .ok _, .ok (user, accounts) =>
      { s with accounts, log := s.log ++ (user.map fun u => ⟨none, .created u passwordHash⟩).toList }
  | _, _, _ => s

variable (verify : Text → Text → Option Bool)

/-- A request that does not exist makes no call. -/
def step (s : AccountSite) (t : SiteStep) : AccountSite :=
  match t.2 with
  | .arrive errand csrf => s.arrive t.1 errand csrf
  | .proceed i given =>
      match s.visits[i]? with
      | some v => s.settle i v (v.proceed verify s.accounts t.1 given)
      | none => s
  | .fail i =>
      match s.visits[i]? with
      | some v => { s with visits := s.visits.set i v.failed }
      | none => s
  | .purgeExpired => { s with accounts := s.accounts.purgeExpired t.1 }
  | .bootstrapAdmin username password passwordHash => s.bootstrapAdmin t.1 username password passwordHash

/-- The site after some calls, from an empty database. -/
def after (steps : List SiteStep) : AccountSite := Run.final (step verify) start steps

end AccountSite

end Gavel.Web
