import Gavel.Lib.Keyed
import Gavel.Market.Basic
import Gavel.Market.Cadence
import Gavel.Market.Catalog
import Gavel.Storage.ReadModel

/-!
# Accounts

The tables of the user, session and watch repositories, with the constraints they are declared with:
usernames that differ in more than case, one row for each token and each followed market, ids that are
never handed out again, and rows that go with the account they belong to.
-/

namespace Gavel.Storage

open Gavel.Cluster (Millis)
open Gavel.Market (ItemId Region asI64)

abbrev UserId := Nat

structure User where
  id : UserId
  username : Text
  createdAt : Millis
  isAdmin : Bool
  deriving DecidableEq

/-- A user with what a login is verified against. -/
structure Credentials where
  user : User
  passwordHash : Text
  deriving DecidableEq

/-- A row of the user table. -/
structure UserRow extends Credentials where
  discordWebhook : Option Text
  deriving DecidableEq

structure Session where
  /-- The token, and the value of the cookie. -/
  id : Text
  userId : UserId
  createdAt : Millis
  expiresAt : Millis
  deriving DecidableEq

def Session.isExpired (s : Session) (now : Millis) : Bool := decide (s.expiresAt ≤ now)

structure Watch where
  item : ItemId
  region : Region
  addedAt : Millis
  deriving DecidableEq

structure WatchRow where
  user : UserId
  watch : Watch
  deriving DecidableEq

def WatchRow.key (w : WatchRow) : UserId × ItemId × Region := (w.user, w.watch.item, w.watch.region)

/-- `COLLATE NOCASE` -/
def nocase (s : Text) : Text := s.map Char.toLower

structure Accounts where
  users : Keyed UserRow UserId (·.user.id)
  /-- The greatest id ever handed out. -/
  lastUserId : UserId
  sessions : Keyed Session Text Session.id
  watches : Keyed WatchRow (UserId × ItemId × Region) WatchRow.key
  /-- The one row that says an administrator was bootstrapped, with the account while it exists. -/
  adminBootstrap : Option (Option UserId)

namespace Accounts

def empty : Accounts := ⟨.empty, 0, .empty, .empty, none⟩

/-! ## Users -/

def byUsername (a : Accounts) (username : Text) : Option UserRow :=
  a.users.rows.find? fun r => nocase r.user.username = nocase username

def byId (a : Accounts) (id : UserId) : Option User :=
  (a.users.rows.find? fun r => r.user.id = id).map fun r => r.user

/-- `INSERT INTO users … RETURNING id, username, created_at, is_admin` -/
def insertUser (a : Accounts) (username passwordHash : Text) (now : Millis) (isAdmin : Bool) :
    Except RepoError (User × Accounts) :=
  if (a.byUsername username).isSome then
    .error (.conflict "UNIQUE constraint failed: users.username".toList)
  else
    let user : User := ⟨a.lastUserId + 1, username, now, isAdmin⟩
    .ok (user, { a with users := a.users.add ⟨⟨user, passwordHash⟩, none⟩, lastUserId := a.lastUserId + 1 })

def create (a : Accounts) (username passwordHash : Text) (now : Millis) :
    Except RepoError (User × Accounts) := a.insertUser username passwordHash now false

/-- The first statement of the bootstrap: an administrator who exists already counts as bootstrapped. -/
def claimBootstrap (a : Accounts) : Accounts :=
  match a.adminBootstrap, (a.users.rows.filter (·.user.isAdmin)).map (·.user.id) with
  | none, id :: ids => { a with adminBootstrap := some (some (ids.foldl min id)) }
  | _, _ => a

/-- One transaction: an error leaves the tables as they were. -/
def bootstrapAdmin (a : Accounts) (username passwordHash : Text) (now : Millis) :
    Except RepoError (Option User × Accounts) :=
  let claimed := a.claimBootstrap
  if claimed.adminBootstrap.isSome then .ok (none, claimed)
  else
    match claimed.insertUser username passwordHash now true with
    | .error e => .error e
    | .ok (user, a) => .ok (some user, { a with adminBootstrap := some (some user.id) })

def discordWebhook (a : Accounts) (id : UserId) : Option Text :=
  (a.users.rows.find? fun r => r.user.id = id).bind UserRow.discordWebhook

def setDiscordWebhook (a : Accounts) (id : UserId) (webhook : Option Text) : Accounts :=
  { a with users := a.users.change id (fun r => { r with discordWebhook := webhook }) fun _ => rfl }

/-- What refers to the account goes with it; the bootstrap row stays and forgets who it was. -/
def delete (a : Accounts) (id : UserId) : Bool × Accounts :=
  if a.users.has id then
    (true,
      { a with
        users := a.users.keep fun r => r.user.id ≠ id
        sessions := a.sessions.keep fun s => s.userId ≠ id
        watches := a.watches.keep fun w => w.user ≠ id
        adminBootstrap := a.adminBootstrap.map fun u => if u = some id then none else u })
  else (false, a)

/-! ## Sessions -/

def createSession (a : Accounts) (s : Session) : Except RepoError Accounts :=
  if a.sessions.has s.id then .error (.conflict "UNIQUE constraint failed: sessions.id".toList)
  else if a.users.has s.userId then .ok { a with sessions := a.sessions.add s }
  else .error (.backend "FOREIGN KEY constraint failed".toList)

def getSession (a : Accounts) (id : Text) : Option Session := a.sessions.rows.find? fun s => s.id = id

def deleteSession (a : Accounts) (id : Text) : Accounts :=
  { a with sessions := a.sessions.keep fun s => s.id ≠ id }

/-- Times are compared as the signed numbers they are stored as. -/
def purgeExpired (a : Accounts) (now : Millis) : Accounts :=
  { a with sessions := a.sessions.keep fun s => !decide (asI64 s.expiresAt ≤ asI64 now) }

/-! ## Watches -/

/-- Everything one person follows, the newest first. -/
def watchesOf (a : Accounts) (user : UserId) : List Watch :=
  ((a.watches.rows.filter (·.user = user)).map WatchRow.watch).insertionSort
    fun v w => asI64 w.addedAt ≤ asI64 v.addedAt

/-- Following again keeps the row that is there. -/
def watch (a : Accounts) (user : UserId) (item : ItemId) (region : Region) (now : Millis) :
    Except RepoError Accounts :=
  let row : WatchRow := ⟨user, item, region, now⟩
  if a.watches.has row.key then .ok a
  else if a.users.has user then .ok { a with watches := a.watches.add row }
  else .error (.backend "FOREIGN KEY constraint failed".toList)

def unwatch (a : Accounts) (user : UserId) (item : ItemId) (region : Region) : Accounts :=
  { a with watches := a.watches.keep fun w => w.key ≠ (user, item, region) }

/-- Everyone who follows a market, by id. -/
def watchers (a : Accounts) (item : ItemId) (region : Region) : List UserId :=
  ((a.watches.rows.filter fun w => w.watch.item = item ∧ w.watch.region = region).map
    WatchRow.user).insertionSort (· ≤ ·)

end Accounts

end Gavel.Storage
