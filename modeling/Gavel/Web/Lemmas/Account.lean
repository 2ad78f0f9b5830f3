import Gavel.Web.Account

/-!
# What the log says

The tables say what the log says: which accounts there are, whose sessions stand, who follows what and
where alerts go. Every call has one of a few effects on the tables, and each of them keeps this.
-/

namespace Gavel.Web

open Gavel.Cluster (Millis)
open Gavel.Market (ItemId Region plusMs)
open Gavel.Storage (Accounts Credentials Session User UserId UserRow WatchRow nocase)

/-! ## What stands -/

/-- An account was created and has not been deleted. -/
def Account (c : Credentials) : List Entry → Prop :=
  Log.Stands (fun _ e => e.deed = .created c.user c.passwordHash) fun e => e.deed = .deleted c.user.id

/-- A session was issued, and since then neither signed out nor its account deleted. -/
def SignedIn (s : Session) : List Entry → Prop :=
  Log.Stands (fun _ e => e.deed = .issued s) fun e => e.deed = .loggedOut s.id ∨ e.deed = .deleted s.userId

def Unfollows (id : UserId) (item : ItemId) (region : Region) (e : Entry) : Prop :=
  e.deed = .unfollowed id item region ∨ e.deed = .deleted id

/-- A market is followed. -/
def Followed (id : UserId) (item : ItemId) (region : Region) : List Entry → Prop :=
  Log.Stands (fun _ e => ∃ t, e.deed = .followed id item region t) (Unfollows id item region)

/-- A market is followed since the moment the row says. -/
def Follows (w : WatchRow) : List Entry → Prop :=
  Log.Stands
    (fun before e => e.deed = .followed w.user w.watch.item w.watch.region w.watch.addedAt ∧
      ¬ Followed w.user w.watch.item w.watch.region before)
    (Unfollows w.user w.watch.item w.watch.region)

/-- An account's alerts go to a webhook. -/
def Configured (id : UserId) (url : Text) : List Entry → Prop :=
  Log.Stands
    (fun before e => e.deed = .configured id (some url) ∧ ∃ c, Account c before ∧ c.user.id = id)
    fun e => (∃ webhook, e.deed = .configured id webhook) ∨ e.deed = .deleted id

section Stands

variable {log : List Entry} {who : Option Nat} {d : Deed} {c : Credentials} {s : Session} {w : WatchRow}
variable {id : UserId} {item : ItemId} {region : Region} {url : Text}

@[simp] theorem account_concat : Account c (log ++ [⟨who, d⟩]) ↔
    d = .created c.user c.passwordHash ∨ (Account c log ∧ d ≠ .deleted c.user.id) := Log.stands_concat

@[simp] theorem signedIn_concat : SignedIn s (log ++ [⟨who, d⟩]) ↔
    d = .issued s ∨ (SignedIn s log ∧ ¬ (d = .loggedOut s.id ∨ d = .deleted s.userId)) := Log.stands_concat

@[simp] theorem followed_concat : Followed id item region (log ++ [⟨who, d⟩]) ↔
    (∃ t, d = .followed id item region t) ∨
      (Followed id item region log ∧ ¬ (d = .unfollowed id item region ∨ d = .deleted id)) := Log.stands_concat

@[simp] theorem follows_concat : Follows w (log ++ [⟨who, d⟩]) ↔
    (d = .followed w.user w.watch.item w.watch.region w.watch.addedAt ∧
        ¬ Followed w.user w.watch.item w.watch.region log) ∨
      (Follows w log ∧ ¬ (d = .unfollowed w.user w.watch.item w.watch.region ∨ d = .deleted w.user)) :=
  Log.stands_concat

@[simp] theorem configured_concat : Configured id url (log ++ [⟨who, d⟩]) ↔
    (d = .configured id (some url) ∧ ∃ c, Account c log ∧ c.user.id = id) ∨
      (Configured id url log ∧ ¬ ((∃ webhook, d = .configured id webhook) ∨ d = .deleted id)) :=
  Log.stands_concat

theorem Account.created (h : Account c log) : ∃ e ∈ log, e.deed = .created c.user c.passwordHash := by
  obtain ⟨-, e, he, hd⟩ := h.begun
  exact ⟨e, he, hd⟩

end Stands

/-! ## Effects -/

/-- The tables are the same, but that the row of the bootstrap may have been written. -/
structure SameTables (a a' : Accounts) : Prop where
  users : a'.users = a.users
  lastUserId : a'.lastUserId = a.lastUserId
  sessions : a'.sessions = a.sessions
  watches : a'.watches = a.watches
  bootstrapped : a.adminBootstrap.isSome = true → a'.adminBootstrap.isSome = true

/-- What a call can do to the tables, and what it says it did. Arrivals are not calls. -/
inductive Effect (a : Accounts) : Option Deed → Accounts → Prop where
  | quiet {a' : Accounts} (h : SameTables a a') : Effect a none a'
  | created {a' : Accounts} {r : UserRow} (hfree : a.byUsername r.user.username = none)
      (hid : r.user.id = a.lastUserId + 1) (hhook : r.discordWebhook = none)
      (h : SameTables { a with users := a.users.add r, lastUserId := a.lastUserId + 1 } a') :
      Effect a (some (.created r.user r.passwordHash)) a'
  | issued {s : Session} (hfree : ¬ a.sessions.has s.id = true) (hown : a.users.has s.userId = true) :
      Effect a (some (.issued s)) { a with sessions := a.sessions.add s }
  | dropped (token : Text) : Effect a none (a.deleteSession token)
  | purged (now : Millis) : Effect a none (a.purgeExpired now)
  | loggedOut (token : Text) : Effect a (some (.loggedOut token)) (a.deleteSession token)
  | deleted {id : UserId} (h : a.users.has id = true) : Effect a (some (.deleted id)) (a.delete id).2
  | followed {id : UserId} {item : ItemId} {region : Region} {now : Millis} {a' : Accounts}
      (h : a.watch id item region now = .ok a') : Effect a (some (.followed id item region now)) a'
  | unfollowed (id : UserId) (item : ItemId) (region : Region) :
      Effect a (some (.unfollowed id item region)) (a.unwatch id item region)
  | configured (id : UserId) (webhook : Option Text) :
      Effect a (some (.configured id webhook)) (a.setDiscordWebhook id webhook)

section Effects

variable {a a' : Accounts} {v : Visit} {user : User} {now : Millis}

theorem SameTables.refl (a : Accounts) : SameTables a a := ⟨rfl, rfl, rfl, rfl, id⟩

/-- What an insertion of a user did. -/
theorem insertUser_effect {username passwordHash : Text} {isAdmin : Bool}
    (h : a.insertUser username passwordHash now isAdmin = .ok (user, a')) :
    ∃ r : UserRow, a.byUsername r.user.username = none ∧ r.user.id = a.lastUserId + 1 ∧
      r.discordWebhook = none ∧ r.user = user ∧ r.passwordHash = passwordHash ∧ user.isAdmin = isAdmin ∧
      user.username = username ∧
      a' = { a with users := a.users.add r, lastUserId := a.lastUserId + 1 } := by
  simp only [Accounts.insertUser] at h
  split at h
  · cases h
  · rename_i hfree
    cases h
    refine ⟨_, ?_, rfl, rfl, rfl, rfl, rfl, rfl, rfl⟩
    exact Option.not_isSome_iff_eq_none.mp hfree

theorem create_effect {username passwordHash : Text}
    (h : a.create username passwordHash now = .ok (user, a')) :
    Effect a (some (.created user passwordHash)) a' := by
  obtain ⟨r, hfree, hid, hhook, rfl, rfl, -, -, rfl⟩ := insertUser_effect h
  exact .created hfree hid hhook (.refl _)

theorem startSession_effect (v : Visit) (a : Accounts) (user : User) (token : Text) :
    Effect a (v.startSession a user token).deed (v.startSession a user token).accounts := by
  simp only [Visit.startSession, Accounts.createSession]
  split
  · rename_i h
    split at h
    · exact .quiet (.refl a)
    · split at h
      · cases h
      · exact .quiet (.refl a)
  · rename_i h
    split at h
    · cases h
    · rename_i hfree
      split at h
      · rename_i hown
        cases h
        exact .issued hfree hown
      · cases h

theorem perform_effect (v : Visit) (a : Accounts) (user : User) (now : Millis) (isPublic : Bool)
    (action : Action) :
    Effect a (v.perform a user now isPublic action).deed (v.perform a user now isPublic action).accounts := by
  have hquiet : Effect a none a := .quiet (.refl a)
  cases action with
  | delete =>
      simp only [Visit.perform]
      by_cases hid : a.users.has user.id = true
      · have h := Effect.deleted hid
        simp only [Accounts.delete, if_pos hid] at h ⊢
        exact h
      · simp only [Accounts.delete, if_neg hid]
        exact hquiet
  | setDiscordWebhook webhookUrl =>
      simp only [Visit.perform]
      split
      · exact hquiet
      · split
        · exact .configured user.id none
        · split
          · exact hquiet
          · exact .configured user.id _
  | toggle item region watch =>
      simp only [Visit.perform]
      split
      · exact hquiet
      · split
        · exact hquiet
        · split
          · exact hquiet
          · split
            · split
              · exact hquiet
              · rename_i h
                exact .followed h
            · exact .unfollowed user.id item _

/-- Every call of a request has one of the effects. -/
theorem proceed_effect (verify : Text → Text → Option Bool) (v : Visit) (a : Accounts) (now : Millis)
    (given : Given) :
    Effect a (v.proceed verify a now given).deed (v.proceed verify a now given).accounts := by
  unfold Visit.proceed
  split
  · exact .quiet (.refl a)
  · exact .quiet (.refl a)
  · split
    · exact .quiet (.refl a)
    · rename_i h
      exact create_effect h
  · exact startSession_effect v a _ _
  · exact startSession_effect v a _ _
  · exact .quiet (.refl a)
  · exact .quiet (.refl a)
  · exact .loggedOut _
  · exact .quiet (.refl a)
  · exact .dropped _
  · exact .quiet (.refl a)
  · exact perform_effect v a _ now _ _
  · exact .quiet (.refl a)

end Effects

/-! ## The tables and the log -/

/-- The log after a call. -/
def recorded (log : List Entry) (who : Option Nat) (d : Option Deed) : List Entry :=
  log ++ (d.map (Entry.mk who)).toList

@[simp] theorem recorded_none {log : List Entry} {who : Option Nat} : recorded log who none = log :=
  List.append_nil log

@[simp] theorem recorded_some {log : List Entry} {who : Option Nat} {d : Deed} :
    recorded log who (some d) = log ++ [⟨who, d⟩] := rfl

/-- The tables say what the log says, and nothing refers to an account that is not there. -/
structure InStep (a : Accounts) (log : List Entry) : Prop where
  accounts : ∀ c : Credentials, (∃ r ∈ a.users.rows, r.toCredentials = c) ↔ Account c log
  ahead : ∀ e ∈ log, ∀ user hash, e.deed = .created user hash → user.id ≤ a.lastUserId
  names : ∀ r ∈ a.users.rows, ∀ r' ∈ a.users.rows, nocase r.user.username = nocase r'.user.username → r = r'
  owned : ∀ s ∈ a.sessions.rows, a.users.has s.userId = true
  sessions : ∀ s ∈ a.sessions.rows, SignedIn s log
  followers : ∀ w ∈ a.watches.rows, a.users.has w.user = true
  followed : ∀ id item region, a.watches.has (id, item, region) = true ↔ Followed id item region log
  watches : ∀ w, w ∈ a.watches.rows ↔ Follows w log
  webhooks : ∀ r ∈ a.users.rows, ∀ url, r.discordWebhook = some url ↔ Configured r.user.id url log

namespace InStep

variable {a a' : Accounts} {log : List Entry} {who : Option Nat}

theorem row_le (h : InStep a log) {r : UserRow} (hr : r ∈ a.users.rows) : r.user.id ≤ a.lastUserId := by
  obtain ⟨e, he, hd⟩ := ((h.accounts r.toCredentials).mp ⟨r, hr, rfl⟩).created
  exact h.ahead e he r.user r.passwordHash hd

/-- The id that is handed out next is nobody's. -/
theorem not_has (h : InStep a log) : ¬ a.users.has (a.lastUserId + 1) = true := by
  intro hhas
  obtain ⟨r, hr, hid⟩ := Keyed.has_iff.mp hhas
  exact Nat.not_succ_le_self _ (hid ▸ h.row_le hr)

theorem configured_le (h : InStep a log) {id : UserId} {url : Text} (hc : Configured id url log) :
    id ≤ a.lastUserId := by
  obtain ⟨before, e, after, rfl, ⟨-, c, hc, rfl⟩, -⟩ := hc
  obtain ⟨x, hx, hd⟩ := hc.created
  exact h.ahead x (List.mem_append_left _ hx) c.user c.passwordHash hd

theorem quiet (h : InStep a log) (hs : SameTables a a') : InStep a' log := by
  obtain ⟨hu, hl, hse, hw, -⟩ := hs
  constructor <;> simp only [hu, hl, hse, hw]
  exacts [h.accounts, h.ahead, h.names, h.owned, h.sessions, h.followers, h.followed, h.watches, h.webhooks]

theorem ahead_concat {last : UserId} {d : Deed}
    (h : ∀ e ∈ log, ∀ user hash, e.deed = .created user hash → user.id ≤ last)
    (hd : ∀ user hash, d = .created user hash → user.id ≤ last) :
    ∀ e ∈ log ++ [⟨who, d⟩], ∀ user hash, e.deed = .created user hash → user.id ≤ last := by
  intro e he user hash heq
  rcases List.mem_append.mp he with he | he
  · exact h e he user hash heq
  · rw [List.mem_singleton.mp he] at heq
    exact hd user hash heq

theorem arrived (h : InStep a log) (errand : Errand) (now : Millis) :
    InStep a (log ++ [⟨who, .arrived errand now⟩]) where
  accounts c := by simpa using h.accounts c
  ahead := ahead_concat h.ahead fun _ _ hd => by cases hd
  names := h.names
  owned := h.owned
  sessions s hs := by simpa using h.sessions s hs
  followers := h.followers
  followed id item region := by simpa using h.followed id item region
  watches w := by simpa using h.watches w
  webhooks r hr url := by simpa using h.webhooks r hr url

theorem byUsername_none {username : Text} (h : a.byUsername username = none) {r : UserRow}
    (hr : r ∈ a.users.rows) : nocase r.user.username ≠ nocase username := by
  have hall := List.find?_eq_none.mp h r hr
  simpa using hall

theorem created (h : InStep a log) {r : UserRow} (hfree : a.byUsername r.user.username = none)
    (hid : r.user.id = a.lastUserId + 1) (hhook : r.discordWebhook = none) :
    InStep { a with users := a.users.add r, lastUserId := a.lastUserId + 1 }
      (log ++ [⟨who, .created r.user r.passwordHash⟩]) := by
  have hnew : ¬ a.users.has r.user.id = true := hid ▸ h.not_has
  have hrows : (a.users.add r).rows = a.users.rows ++ [r] := Keyed.rows_add_of_not_has hnew
  have hhas {id : UserId} (hi : a.users.has id = true) : (a.users.add r).has id = true :=
    Keyed.has_add.mpr (.inl hi)
  constructor
  · intro c
    rw [account_concat, ← h.accounts c, hrows]
    constructor
    · rintro ⟨x, hx, rfl⟩
      rcases List.mem_append.mp hx with hx | hx
      · exact .inr ⟨⟨x, hx, rfl⟩, by simp⟩
      · rw [List.mem_singleton.mp hx]
        exact .inl rfl
    · rintro (hd | ⟨⟨x, hx, rfl⟩, -⟩)
      · refine ⟨r, by simp, ?_⟩
        obtain ⟨user, hash⟩ := c
        injection hd with hu hp
        simp only at hu hp
        rw [← hu, ← hp]
      · exact ⟨x, List.mem_append_left _ hx, rfl⟩
  · refine ahead_concat (fun e he user hash hd => Nat.le_succ_of_le (h.ahead e he user hash hd)) ?_
    intro user hash hd
    injection hd with hu hp
    rw [← hu, hid]
  · intro x hx y hy hname
    rw [hrows] at hx hy
    rcases List.mem_append.mp hx with hx | hx <;> rcases List.mem_append.mp hy with hy | hy
    · exact h.names x hx y hy hname
    · rw [List.mem_singleton.mp hy] at hname
      exact absurd hname (byUsername_none hfree hx)
    · rw [List.mem_singleton.mp hx] at hname
      exact absurd hname.symm (byUsername_none hfree hy)
    · rw [List.mem_singleton.mp hx, List.mem_singleton.mp hy]
  · exact fun s hs => hhas (h.owned s hs)
  · exact fun s hs => by simpa using h.sessions s hs
  · exact fun w hw => hhas (h.followers w hw)
  · exact fun id item region => by simpa using h.followed id item region
  · exact fun w => by simpa using h.watches w
  · intro x hx url
    rw [hrows] at hx
    rcases List.mem_append.mp hx with hx | hx
    · simpa using h.webhooks x hx url
    · rw [List.mem_singleton.mp hx, hhook]
      have hnot : ¬ Configured r.user.id url log := by
        intro hc
        exact Nat.not_succ_le_self _ (hid ▸ h.configured_le hc)
      simpa using hnot

theorem issued (h : InStep a log) {s : Session} (hown : a.users.has s.userId = true) :
    InStep { a with sessions := a.sessions.add s } (log ++ [⟨who, .issued s⟩]) where
  accounts c := by simpa using h.accounts c
  ahead := ahead_concat h.ahead fun _ _ hd => by cases hd
  names := h.names
  owned x hx := by
    rcases Keyed.mem_add.mp hx with hx | ⟨rfl, -⟩
    · exact h.owned x hx
    · exact hown
  sessions x hx := by
    rcases Keyed.mem_add.mp hx with hx | ⟨rfl, -⟩
    · have hs := h.sessions x hx
      simp [hs]
    · simp
  followers := h.followers
  followed id item region := by simpa using h.followed id item region
  watches w := by simpa using h.watches w
  webhooks r hr url := by simpa using h.webhooks r hr url

/-- Sessions go, and what is noted says nothing else. -/
theorem sessionsGone (h : InStep a log) {p : Session → Bool} {d : Option Deed}
    (hd : d = none ∨ ∃ token, d = some (.loggedOut token) ∧ p = fun s => decide (s.id ≠ token)) :
    InStep { a with sessions := a.sessions.keep p } (recorded log who d) := by
  have hown : ∀ s ∈ (a.sessions.keep p).rows, a.users.has s.userId = true := fun s hs =>
    h.owned s (Keyed.mem_keep.mp hs).1
  rcases hd with rfl | ⟨token, rfl, rfl⟩
  · rw [recorded_none]
    exact { h with owned := hown, sessions := fun s hs => h.sessions s (Keyed.mem_keep.mp hs).1 }
  · rw [recorded_some]
    constructor
    · exact fun c => by simpa using h.accounts c
    · exact ahead_concat h.ahead fun _ _ hd => by cases hd
    · exact h.names
    · exact hown
    · intro s hs
      obtain ⟨hs, hne⟩ := Keyed.mem_keep.mp hs
      have hold := h.sessions s hs
      have hne : token ≠ s.id := Ne.symm (of_decide_eq_true hne)
      simp [hold, hne]
    · exact h.followers
    · exact fun id item region => by simpa using h.followed id item region
    · exact fun w => by simpa using h.watches w
    · exact fun r hr url => by simpa using h.webhooks r hr url

theorem deleted (h : InStep a log) {id : UserId} (hid : a.users.has id = true) :
    InStep (a.delete id).2 (log ++ [⟨who, .deleted id⟩]) := by
  have hhas {x : UserId} (hx : a.users.has x = true) (hne : x ≠ id) :
      (a.users.keep fun r => decide (r.user.id ≠ id)).has x = true := by
    obtain ⟨r, hr, hk⟩ := Keyed.has_iff.mp hx
    exact Keyed.has_iff.mpr ⟨r, Keyed.mem_keep.mpr ⟨hr, decide_eq_true (hk ▸ hne)⟩, hk⟩
  simp only [Accounts.delete, if_pos hid]
  constructor
  · intro c
    rw [account_concat, ← h.accounts c]
    constructor
    · rintro ⟨r, hr, rfl⟩
      obtain ⟨hr, hne⟩ := Keyed.mem_keep.mp hr
      refine .inr ⟨⟨r, hr, rfl⟩, ?_⟩
      intro hd
      injection hd with hd
      exact of_decide_eq_true hne hd.symm
    · rintro (hd | ⟨⟨r, hr, rfl⟩, hne⟩)
      · cases hd
      · refine ⟨r, Keyed.mem_keep.mpr ⟨hr, decide_eq_true ?_⟩, rfl⟩
        intro heq
        exact hne (congrArg Deed.deleted heq.symm)
  · exact ahead_concat h.ahead fun _ _ hd => by cases hd
  · intro r hr r' hr' hname
    exact h.names r (Keyed.mem_keep.mp hr).1 r' (Keyed.mem_keep.mp hr').1 hname
  · intro s hs
    obtain ⟨hs, hne⟩ := Keyed.mem_keep.mp hs
    exact hhas (h.owned s hs) (of_decide_eq_true hne)
  · intro s hs
    obtain ⟨hs, hne⟩ := Keyed.mem_keep.mp hs
    have hold := h.sessions s hs
    have hne : id ≠ s.userId := Ne.symm (of_decide_eq_true hne)
    simp [hold, hne]
  · intro w hw
    obtain ⟨hw, hne⟩ := Keyed.mem_keep.mp hw
    exact hhas (h.followers w hw) (of_decide_eq_true hne)
  · intro x item region
    have hold := h.followed x item region
    rw [Keyed.has_iff] at hold ⊢
    simp only [followed_concat, ← hold, reduceCtorEq, exists_false, false_or, Keyed.mem_keep,
      decide_eq_true_eq, Deed.deleted.injEq]
    constructor
    · rintro ⟨w, ⟨hw, hne⟩, hk⟩
      obtain rfl : w.user = x := congrArg Prod.fst hk
      exact ⟨⟨w, hw, hk⟩, Ne.symm hne⟩
    · rintro ⟨⟨w, hw, hk⟩, hne⟩
      obtain rfl : w.user = x := congrArg Prod.fst hk
      exact ⟨w, ⟨hw, Ne.symm hne⟩, hk⟩
  · intro w
    simp only [Keyed.mem_keep, follows_concat, h.watches w, reduceCtorEq, false_and, false_or,
      decide_eq_true_eq, Deed.deleted.injEq, ne_eq, @eq_comm _ id]
  · intro r hr url
    obtain ⟨hr, hne⟩ := Keyed.mem_keep.mp hr
    have hold := h.webhooks r hr url
    have hne : id ≠ r.user.id := Ne.symm (of_decide_eq_true hne)
    simp [hold, hne]

theorem unfollowed (h : InStep a log) (id : UserId) (item : ItemId) (region : Region) :
    InStep (a.unwatch id item region) (log ++ [⟨who, .unfollowed id item region⟩]) where
  accounts c := by simpa [Accounts.unwatch] using h.accounts c
  ahead := ahead_concat h.ahead fun _ _ hd => by cases hd
  names := h.names
  owned := h.owned
  sessions s hs := by simpa using h.sessions s hs
  followers w hw := h.followers w (Keyed.mem_keep.mp hw).1
  followed x i r := by
    have hold := h.followed x i r
    simp only [Accounts.unwatch]
    rw [Keyed.has_iff] at hold ⊢
    simp only [followed_concat, ← hold, reduceCtorEq, exists_false, false_or, or_false, Keyed.mem_keep,
      decide_eq_true_eq, Deed.unfollowed.injEq]
    constructor
    · rintro ⟨w, ⟨hw, hne⟩, hk⟩
      refine ⟨⟨w, hw, hk⟩, ?_⟩
      rintro ⟨rfl, rfl, rfl⟩
      exact hne hk
    · rintro ⟨⟨w, hw, hk⟩, hne⟩
      refine ⟨w, ⟨hw, ?_⟩, hk⟩
      intro heq
      rw [hk] at heq
      injection heq with h1 h2
      injection h2 with h2 h3
      exact hne ⟨h1.symm, h2.symm, h3.symm⟩
  watches w := by
    simp only [Accounts.unwatch, Keyed.mem_keep, follows_concat, h.watches w, reduceCtorEq, false_and,
      false_or, or_false, decide_eq_true_eq, Deed.unfollowed.injEq, ne_eq, WatchRow.key, Prod.mk.injEq,
      @eq_comm _ id, @eq_comm _ item, @eq_comm _ region]
  webhooks r hr url := by simpa using h.webhooks r hr url

/-- A market that is followed already keeps its row. -/
theorem watch_eq (h : InStep a log) {id : UserId} {item : ItemId} {region : Region} {now : Millis}
    (hw : a.watch id item region now = .ok a') :
    a' = { a with watches := a.watches.add ⟨id, item, region, now⟩ } ∧ a.users.has id = true := by
  simp only [Accounts.watch] at hw
  split at hw
  · rename_i hhas
    obtain ⟨w, hmem, hk⟩ := Keyed.has_iff.mp hhas
    have hown := h.followers w hmem
    cases hw
    refine ⟨by rw [Keyed.add_of_has hhas], ?_⟩
    rwa [show w.user = id from congrArg Prod.fst hk] at hown
  · split at hw
    · rename_i hown
      cases hw
      exact ⟨rfl, hown⟩
    · cases hw

theorem followedAgain (h : InStep a log) {id : UserId} {item : ItemId} {region : Region} {now : Millis}
    (hw : a.watch id item region now = .ok a') :
    InStep a' (log ++ [⟨who, .followed id item region now⟩]) := by
  obtain ⟨rfl, hown⟩ := h.watch_eq hw
  have hfol := h.followed id item region
  constructor
  · exact fun c => by simpa using h.accounts c
  · exact ahead_concat h.ahead fun _ _ hd => by cases hd
  · exact h.names
  · exact h.owned
  · exact fun s hs => by simpa using h.sessions s hs
  · intro w hmem
    rcases Keyed.mem_add.mp hmem with hmem | ⟨rfl, -⟩
    · exact h.followers w hmem
    · exact hown
  · intro x i r
    rw [followed_concat, Keyed.has_add, h.followed x i r]
    simp only [WatchRow.key, Prod.mk.injEq, Deed.followed.injEq, reduceCtorEq, or_self, not_false_iff,
      and_true, exists_and_left, exists_eq', or_comm]
  · intro w
    rw [Keyed.mem_add, follows_concat, h.watches w]
    simp only [Deed.followed.injEq, reduceCtorEq, or_self, not_false_iff, and_true]
    constructor
    · rintro (hf | ⟨rfl, hfree⟩)
      · exact .inr hf
      · exact .inl ⟨⟨rfl, rfl, rfl, rfl⟩, fun hf => hfree (hfol.mpr hf)⟩
    · rintro (⟨⟨rfl, rfl, rfl, rfl⟩, hfree⟩ | hf)
      · exact .inr ⟨rfl, fun hhas => hfree (hfol.mp hhas)⟩
      · exact .inl hf
  · exact fun r hr url => by simpa using h.webhooks r hr url

theorem configured (h : InStep a log) (id : UserId) (webhook : Option Text) :
    InStep (a.setDiscordWebhook id webhook) (log ++ [⟨who, .configured id webhook⟩]) := by
  let f : UserRow → UserRow := fun r => { r with discordWebhook := webhook }
  have hmem {r : UserRow} : r ∈ (a.setDiscordWebhook id webhook).users.rows ↔
      ∃ x ∈ a.users.rows, r = if x.user.id = id then f x else x :=
    Keyed.mem_change (f := f) fun _ => rfl
  have hcred (x : UserRow) : (if x.user.id = id then f x else x).toCredentials = x.toCredentials := by
    split <;> rfl
  have hhas {x : UserId} (hx : a.users.has x = true) :
      (a.setDiscordWebhook id webhook).users.has x = true := by
    obtain ⟨r, hr, hk⟩ := Keyed.has_iff.mp hx
    refine Keyed.has_iff.mpr ⟨_, hmem.mpr ⟨r, hr, rfl⟩, ?_⟩
    have hkey : (if r.user.id = id then f r else r).user.id = r.user.id :=
      congrArg (fun c : Credentials => c.user.id) (hcred r)
    exact hkey.trans hk
  constructor
  · intro c
    rw [account_concat, ← h.accounts c]
    constructor
    · rintro ⟨r, hr, rfl⟩
      obtain ⟨x, hx, rfl⟩ := hmem.mp hr
      exact .inr ⟨⟨x, hx, (hcred x).symm⟩, by simp⟩
    · rintro (hd | ⟨⟨x, hx, rfl⟩, -⟩)
      · cases hd
      · exact ⟨_, hmem.mpr ⟨x, hx, rfl⟩, hcred x⟩
  · exact ahead_concat h.ahead fun _ _ hd => by cases hd
  · intro r hr r' hr' hname
    obtain ⟨x, hx, rfl⟩ := hmem.mp hr
    obtain ⟨y, hy, rfl⟩ := hmem.mp hr'
    rw [congrArg (fun c : Credentials => c.user.username) (hcred x),
      congrArg (fun c : Credentials => c.user.username) (hcred y)] at hname
    rw [h.names x hx y hy hname]
  · exact fun s hs => hhas (h.owned s hs)
  · exact fun s hs => by simpa using h.sessions s hs
  · exact fun w hw => hhas (h.followers w hw)
  · exact fun x i r => by simpa [Accounts.setDiscordWebhook] using h.followed x i r
  · exact fun w => by simpa [Accounts.setDiscordWebhook] using h.watches w
  · intro r hr url
    obtain ⟨x, hx, rfl⟩ := hmem.mp hr
    rw [configured_concat, congrArg (fun c : Credentials => c.user.id) (hcred x)]
    have hacc : Account x.toCredentials log := (h.accounts _).mp ⟨x, hx, rfl⟩
    by_cases hid : x.user.id = id
    · subst hid
      rw [if_pos rfl]
      simp only [f, Deed.configured.injEq, true_and, exists_eq', or_false, not_true, and_false, reduceCtorEq]
      exact ⟨fun he => ⟨he, x.toCredentials, hacc, rfl⟩, fun he => he.1⟩
    · rw [if_neg hid]
      have hne : ¬ id = x.user.id := Ne.symm hid
      simpa [hne] using h.webhooks x hx url

end InStep

/-- Every effect keeps the tables and the log in step. -/
theorem Effect.inStep {a a' : Accounts} {log : List Entry} {who : Option Nat} {d : Option Deed}
    (he : Effect a d a') (h : InStep a log) : InStep a' (recorded log who d) := by
  cases he with
  | quiet hs => exact recorded_none ▸ h.quiet hs
  | created hfree hid hhook hs => exact (h.created hfree hid hhook).quiet hs
  | issued hfree hown => exact h.issued hown
  | dropped token => exact h.sessionsGone (.inl rfl)
  | purged now => exact h.sessionsGone (.inl rfl)
  | loggedOut token => exact h.sessionsGone (.inr ⟨token, rfl, rfl⟩)
  | deleted hid => exact h.deleted hid
  | followed hw => exact h.followedAgain hw
  | unfollowed id item region => exact h.unfollowed id item region
  | configured id webhook => exact h.configured id webhook

theorem inStep_empty : InStep .empty [] where
  accounts _ := ⟨fun ⟨_, hr, _⟩ => absurd hr List.not_mem_nil, fun h => absurd h Log.not_stands_nil⟩
  ahead _ he := absurd he List.not_mem_nil
  names _ hr := absurd hr List.not_mem_nil
  owned _ hs := absurd hs List.not_mem_nil
  sessions _ hs := absurd hs List.not_mem_nil
  followers _ hw := absurd hw List.not_mem_nil
  followed _ _ _ := ⟨fun h => absurd h Bool.false_ne_true, fun h => absurd h Log.not_stands_nil⟩
  watches _ := ⟨fun h => absurd h List.not_mem_nil, fun h => absurd h Log.not_stands_nil⟩
  webhooks _ hr := absurd hr List.not_mem_nil

/-! ## Steps of the site -/

namespace AccountSite

variable {verify : Text → Text → Option Bool} {s : AccountSite}

theorem claimBootstrap_same (a : Accounts) : SameTables a a.claimBootstrap := by
  unfold Accounts.claimBootstrap
  split
  · exact ⟨rfl, rfl, rfl, rfl, fun _ => rfl⟩
  · exact .refl a

/-- What a successful bootstrap did: nothing but the claim, or a first administrator. -/
theorem bootstrapAdmin_effect {a a' : Accounts} {username passwordHash : Text} {now : Millis}
    {user : Option User} (h : a.bootstrapAdmin username passwordHash now = .ok (user, a')) :
    Effect a (user.map fun u => .created u passwordHash) a' := by
  have hclaim := claimBootstrap_same a
  simp only [Accounts.bootstrapAdmin] at h
  split at h
  · cases h
    exact .quiet hclaim
  · split at h
    · cases h
    rename_i hins
    obtain ⟨r, hfree, hid, hhook, rfl, rfl, -, -, rfl⟩ := insertUser_effect hins
    cases h
    refine .created ?_ (hclaim.lastUserId ▸ hid) hhook ?_
    · rw [← hfree]
      unfold Accounts.byUsername
      rw [hclaim.users]
    · exact ⟨by simp only [hclaim.users], by simp only [hclaim.lastUserId], hclaim.sessions, hclaim.watches,
        fun _ => rfl⟩

/-- A request arrives, or the step has one of the effects; the log says which. -/
theorem step_effect (verify : Text → Text → Option Bool) (s : AccountSite) (t : SiteStep) :
    (∃ i errand, (s.step verify t).accounts = s.accounts ∧
      (s.step verify t).log = s.log ++ [⟨some i, .arrived errand t.1⟩]) ∨
    ∃ who d, Effect s.accounts d (s.step verify t).accounts ∧
      (s.step verify t).log = recorded s.log who d := by
  have hquiet : Effect s.accounts none s.accounts := .quiet (.refl _)
  obtain ⟨now, call⟩ := t
  cases call with
  | arrive errand csrf => exact .inl ⟨_, errand, rfl, rfl⟩
  | proceed i given =>
      right
      simp only [step]
      split
      · exact ⟨some i, _, proceed_effect verify _ _ now given, rfl⟩
      · exact ⟨none, none, hquiet, recorded_none.symm⟩
  | fail i =>
      right
      simp only [step]
      split
      · exact ⟨none, none, hquiet, recorded_none.symm⟩
      · exact ⟨none, none, hquiet, recorded_none.symm⟩
  | purgeExpired => exact .inr ⟨none, none, .purged now, recorded_none.symm⟩
  | bootstrapAdmin username password passwordHash =>
      right
      simp only [step, bootstrapAdmin]
      split
      · rename_i hb
        refine ⟨none, _, bootstrapAdmin_effect hb, ?_⟩
        rw [recorded, Option.map_map]
        rfl
      · exact ⟨none, none, hquiet, recorded_none.symm⟩

end AccountSite

/-!
## What a request may rely on

Where a request stands says what the log had when it made its calls: a password that was verified, a
session that stood. So every entry of the log is justified by the entries before it.
-/

variable {verify : Text → Text → Option Bool} {log l : List Entry} {i : Nat} {v : Visit} {x : Session}
variable {user : User} {errand : Errand} {a : Accounts} {now : Millis}

/-! ## Justification -/

/-- The request made the account, or gave a password that its hash verifies. -/
def Proven (verify : Text → Text → Option Bool) (log : List Entry) (i : Nat) (user : User) : Errand → Prop
  | .register _ _ => ∃ hash, ⟨some i, .created user hash⟩ ∈ log
  | .login username password =>
      ∃ hash, (∃ e ∈ log, e.deed = .created user hash) ∧ nocase user.username = nocase username ∧
        verify password hash = some true
  | _ => False

/-- After the request arrived there was a moment when the session it carries stood and had not expired at its
arrival. -/
def Granted (log : List Entry) (i : Nat) (x : Session) : Prop :=
  ∃ known later action now, log = known ++ later ∧ ⟨some i, .arrived (.act (some x.id) action) now⟩ ∈ known ∧
    SignedIn x known ∧ now < x.expiresAt

/-- Only accounts that a request may act for, or make, with names and webhooks that were checked. -/
def Justified (verify : Text → Text → Option Bool) (before : List Entry) (e : Entry) : Prop :=
  match e.deed with
  | .arrived _ _ | .loggedOut _ => True
  | .created user _ =>
      validateUsername user.username = .ok () ∧
        ∀ i, e.visit = some i → user.isAdmin = false ∧
          ∃ password now, ⟨some i, .arrived (.register user.username password) now⟩ ∈ before
  | .issued x =>
      ∃ i errand user, e.visit = some i ∧ ⟨some i, .arrived errand x.createdAt⟩ ∈ before ∧
        Proven verify before i user errand ∧ x.userId = user.id ∧
        x.expiresAt = plusMs x.createdAt sessionTtlMs
  | .deleted id | .followed id _ _ _ | .unfollowed id _ _ | .configured id none =>
      ∃ i x, e.visit = some i ∧ Granted before i x ∧ x.userId = id
  | .configured id (some url) =>
      looksLikeDiscordWebhook url = true ∧ ∃ i x, e.visit = some i ∧ Granted before i x ∧ x.userId = id

theorem Proven.mono (h : Proven verify log i user errand) : Proven verify (log ++ l) i user errand := by
  cases errand with
  | register username password =>
      obtain ⟨hash, hmem⟩ := h
      exact ⟨hash, List.mem_append_left _ hmem⟩
  | login username password =>
      obtain ⟨hash, ⟨e, he, hd⟩, hrest⟩ := h
      exact ⟨hash, ⟨e, List.mem_append_left _ he, hd⟩, hrest⟩
  | logout cookie => exact h
  | act cookie action => exact h

theorem Granted.mono (h : Granted log i x) : Granted (log ++ l) i x := by
  obtain ⟨known, later, action, now, rfl, hrest⟩ := h
  exact ⟨known, later ++ l, action, now, List.append_assoc .., hrest⟩

/-! ## Where a request stands -/

/-- What a request knows before its next call. -/
def Knows (verify : Text → Text → Option Bool) (log : List Entry) (i : Nat) (errand : Errand) (now : Millis) :
    NextCall → Prop
  | .byUsername | .hash | .create _ =>
      ∀ username password, errand = .register username password → validateUsername username = .ok ()
  | .verify (some c) =>
      ∃ username password, errand = .login username password ∧
        (∃ e ∈ log, e.deed = .created c.user c.passwordHash) ∧ nocase c.user.username = nocase username
  | .createSession user => Proven verify log i user errand
  | .dropSession x =>
      (∃ e ∈ log, e.deed = .issued x) ∧ x.expiresAt ≤ now ∧ ∃ action, errand = .act (some x.id) action
  | .byId x => Granted log i x
  | .act user => ∃ x, Granted log i x ∧ x.userId = user.id
  | _ => True

structure Visit.Sound (verify : Text → Text → Option Bool) (log : List Entry) (i : Nat) (v : Visit) : Prop where
  arrived : ⟨some i, .arrived v.errand v.arrived⟩ ∈ log
  knows : Knows verify log i v.errand v.arrived v.next

theorem Knows.mono {next : NextCall} (h : Knows verify log i errand now next) :
    Knows verify (log ++ l) i errand now next := by
  cases next with
  | verify credentials =>
      cases credentials with
      | none => trivial
      | some c =>
          obtain ⟨username, password, he, ⟨e, hmem, hd⟩, hname⟩ := h
          exact ⟨username, password, he, ⟨e, List.mem_append_left _ hmem, hd⟩, hname⟩
  | createSession user => exact Proven.mono h
  | dropSession x =>
      obtain ⟨⟨e, hmem, hd⟩, hrest⟩ := h
      exact ⟨⟨e, List.mem_append_left _ hmem, hd⟩, hrest⟩
  | byId x => exact Granted.mono h
  | act user =>
      obtain ⟨x, hg, hid⟩ := h
      exact ⟨x, hg.mono, hid⟩
  | byUsername => exact h
  | hash => exact h
  | create passwordHash => exact h
  | getSession => trivial
  | deleteSession => trivial
  | answered result => trivial

theorem Visit.Sound.mono (h : v.Sound verify log i) : v.Sound verify (log ++ l) i :=
  ⟨List.mem_append_left _ h.arrived, h.knows.mono⟩

theorem Visit.Sound.failed (h : v.Sound verify log i) : v.failed.Sound verify log i := by
  unfold Visit.failed
  split
  · exact h
  · exact ⟨h.arrived, trivial⟩

/-- What a request knows when it arrives: nothing but that its form was checked. -/
theorem knows_enter (csrf : Bool) : Knows verify log i errand now (errand.enter csrf) := by
  cases errand with
  | register username password =>
      simp only [Errand.enter]
      split
      · trivial
      · split
        · trivial
        · trivial
        · rename_i hu hp
          intro name word heq
          cases heq
          exact hu
  | login username password =>
      simp only [Errand.enter]
      split
      · trivial
      · intro name word heq
        cases heq
  | logout cookie =>
      simp only [Errand.enter]
      split
      · trivial
      · split <;> trivial
  | act cookie action =>
      simp only [Errand.enter]
      split
      · trivial
      · split <;> trivial

/-! ## The next call -/

/-- A call leaves the request with what it knows, and does nothing it may not do. -/
def Leaves (verify : Text → Text → Option Bool) (log : List Entry) (i : Nat) (v : Visit) (o : Outcome) : Prop :=
  Knows verify (recorded log (some i) o.deed) i v.errand v.arrived o.next ∧
    ∀ d, o.deed = some d → Justified verify log ⟨some i, d⟩

theorem Leaves.quiet {next : NextCall} (h : Knows verify log i v.errand v.arrived next) :
    Leaves verify log i v ⟨a, next, none⟩ :=
  ⟨recorded_none ▸ h, fun _ hd => by cases hd⟩

theorem startSession_leaves (hv : v.Sound verify log i) (hp : Proven verify log i user v.errand) (token : Text) :
    Leaves verify log i v (v.startSession a user token) := by
  simp only [Visit.startSession]
  split
  · exact .quiet trivial
  · refine ⟨trivial, fun d hd => ?_⟩
    cases hd
    exact ⟨i, v.errand, user, rfl, hv.arrived, hp, rfl, rfl⟩

theorem perform_leaves (hx : ∃ x, Granted log i x ∧ x.userId = user.id) (isPublic : Bool) (action : Action) :
    Leaves verify log i v (v.perform a user now isPublic action) := by
  obtain ⟨x, hg, hid⟩ := hx
  have hacts {d : Deed} (hd : Justified verify log ⟨some i, d⟩) {a' : Accounts} :
      Leaves verify log i v ⟨a', .answered (.ok ()), some d⟩ :=
    ⟨trivial, fun d' hd' => by cases hd'; exact hd⟩
  cases action with
  | delete =>
      simp only [Visit.perform]
      split
      · exact hacts (by exact ⟨i, x, rfl, hg, hid⟩)
      · exact .quiet trivial
  | setDiscordWebhook webhookUrl =>
      simp only [Visit.perform]
      split
      · exact .quiet trivial
      · split
        · exact hacts (by exact ⟨i, x, rfl, hg, hid⟩)
        · split
          · exact .quiet trivial
          · rename_i hlooks
            exact hacts (by exact ⟨by simpa using hlooks, i, x, rfl, hg, hid⟩)
  | toggle item region watch =>
      simp only [Visit.perform]
      split
      · exact .quiet trivial
      · split
        · exact .quiet trivial
        · split
          · exact .quiet trivial
          · split
            · split
              · exact .quiet trivial
              · exact hacts (by exact ⟨i, x, rfl, hg, hid⟩)
            · exact hacts (by exact ⟨i, x, rfl, hg, hid⟩)

theorem getSession_eq {token : Text} (h : a.getSession token = some x) :
    x ∈ a.sessions.rows ∧ x.id = token := Keyed.find?_key.mp h

theorem byUsername_eq {username : Text} {r : UserRow} (h : a.byUsername username = some r) :
    r ∈ a.users.rows ∧ nocase r.user.username = nocase username :=
  ⟨List.mem_of_find?_eq_some h, of_decide_eq_true (List.find?_some h :)⟩

theorem byId_eq {id : UserId} (h : a.byId id = some user) : ∃ r ∈ a.users.rows, r.user = user ∧ user.id = id := by
  obtain ⟨r, hr, rfl⟩ := Option.map_eq_some_iff.mp h
  obtain ⟨hmem, hid⟩ := Keyed.find?_key.mp hr
  exact ⟨r, hmem, rfl, hid⟩

/-- One case for each call of the handlers. -/
theorem proceed_leaves (hk : InStep a log) (hv : v.Sound verify log i) (now : Millis) (given : Given) :
    Leaves verify log i v (v.proceed verify a now given) := by
  obtain ⟨harr, hknows⟩ := hv
  unfold Visit.proceed
  split
  · rename_i username password he hn
    rw [hn] at hknows
    split
    · exact .quiet trivial
    · exact .quiet hknows
  · rename_i username password he hn
    rw [hn] at hknows
    exact .quiet hknows
  · rename_i username password hash he hn
    rw [hn] at hknows
    split
    · exact .quiet trivial
    · rename_i user a' hc
      obtain ⟨r, -, -, -, hr, -, hadmin, hname, -⟩ := insertUser_effect hc
      refine ⟨?_, fun d hd => ?_⟩
      · show Proven verify (log ++ [⟨some i, .created user hash⟩]) i user v.errand
        rw [he]
        exact ⟨hash, by simp⟩
      · cases hd
        refine ⟨hname ▸ hknows username password he, fun j hj => ?_⟩
        cases hj
        rw [he, ← hname] at harr
        exact ⟨hadmin, password, v.arrived, harr⟩
  · rename_i username password user he hn
    rw [hn] at hknows
    exact startSession_leaves ⟨harr, by rw [hn]; exact hknows⟩ hknows given.text
  · rename_i username password user he hn
    rw [hn] at hknows
    exact startSession_leaves ⟨harr, by rw [hn]; exact hknows⟩ hknows given.text
  · rename_i username password he hn
    refine .quiet ?_
    cases hb : a.byUsername username with
    | none => trivial
    | some r =>
        obtain ⟨hr, hname⟩ := byUsername_eq hb
        obtain ⟨e, hmem, hd⟩ := ((hk.accounts r.toCredentials).mp ⟨r, hr, rfl⟩).created
        exact ⟨username, password, he, ⟨e, hmem, hd⟩, hname⟩
  · rename_i username password credentials he hn
    rw [hn] at hknows
    refine .quiet ?_
    unfold Visit.verified
    split
    · trivial
    · rename_i c hver
      obtain ⟨name, word, heq, hmem, hname⟩ := hknows
      rw [he] at heq
      cases heq
      show Proven verify log i c.user v.errand
      rw [he]
      exact ⟨c.passwordHash, hmem, hname, hver⟩
    · trivial
  · exact ⟨trivial, fun d hd => by cases hd; trivial⟩
  · rename_i token action he hn
    refine .quiet ?_
    cases hs : a.getSession token with
    | none => trivial
    | some x =>
        obtain ⟨hmem, rfl⟩ := getSession_eq hs
        have hstands := hk.sessions x hmem
        simp only [Visit.resolved]
        split
        · rename_i hexp
          obtain ⟨-, e, he', hd⟩ := hstands.begun
          exact ⟨⟨e, he', hd⟩, of_decide_eq_true hexp, action, he⟩
        · rename_i hexp
          rw [he] at harr
          refine ⟨log, [], action, v.arrived, (List.append_nil log).symm, harr, hstands, ?_⟩
          simpa [Session.isExpired] using hexp
  · exact .quiet trivial
  · rename_i cookie action x he hn
    rw [hn] at hknows
    refine .quiet ?_
    cases hb : a.byId x.userId with
    | none => trivial
    | some user =>
        obtain ⟨r, -, -, hid⟩ := byId_eq hb
        exact ⟨x, hknows, hid.symm⟩
  · rename_i cookie action user he hn
    rw [hn] at hknows
    exact perform_leaves hknows given.isPublic action
  · exact .quiet hknows

/-! ## The site -/

namespace AccountSite

variable {s : AccountSite} {t : SiteStep}

/-- Every request knows what it may rely on, and every entry of the log is justified. -/
structure Sound (verify : Text → Text → Option Bool) (s : AccountSite) : Prop where
  kept : InStep s.accounts s.log
  visits : ∀ i (v : Visit), s.visits[i]? = some v → v.Sound verify s.log i
  log : Log.Each (Justified verify) s.log

theorem getElem?_set_some {l : List Visit} {i j : Nat} {v w : Visit} (h : (l.set i w)[j]? = some v) :
    (i = j ∧ w = v) ∨ l[j]? = some v := by
  rw [List.getElem?_set] at h
  split at h
  · split at h
    · cases h
      exact .inl ⟨‹_›, rfl⟩
    · cases h
  · exact .inr h

theorem each_recorded {P : List Entry → Entry → Prop} {who : Option Nat} {d : Option Deed} (h : Log.Each P log)
    (hd : ∀ x, d = some x → P log ⟨who, x⟩) : Log.Each P (recorded log who d) := by
  cases d with
  | none => rwa [recorded_none]
  | some x => exact Log.each_concat.mpr ⟨h, hd x rfl⟩

theorem Sound.bootstrapAdmin (h : s.Sound verify) (now : Millis) (username password passwordHash : Text) :
    (s.bootstrapAdmin now username password passwordHash).Sound verify := by
  simp only [AccountSite.bootstrapAdmin]
  split
  · rename_i user a' hu hp hb
    have hlog : s.log ++ (user.map fun u => (⟨none, .created u passwordHash⟩ : Entry)).toList =
        recorded s.log none (user.map fun u => .created u passwordHash) := by
      rw [recorded, Option.map_map]
      rfl
    refine ⟨hlog ▸ (bootstrapAdmin_effect hb).inStep h.kept, fun i v hv => (h.visits i v hv).mono, ?_⟩
    refine hlog ▸ each_recorded h.log ?_
    intro d hd
    obtain ⟨u, rfl, rfl⟩ := Option.map_eq_some_iff.mp hd
    simp only [Accounts.bootstrapAdmin] at hb
    split at hb
    · cases hb
    · split at hb
      · cases hb
      · rename_i hins
        obtain ⟨-, -, -, -, -, -, -, hname, -⟩ := insertUser_effect hins
        cases hb
        exact ⟨hname ▸ hu, fun i hi => by cases hi⟩
  · exact h

theorem Sound.step (h : s.Sound verify) (t : SiteStep) : (s.step verify t).Sound verify := by
  obtain ⟨now, call⟩ := t
  cases call with
  | arrive errand csrf =>
      refine ⟨h.kept.arrived errand now, fun i v hv => ?_, Log.each_concat.mpr ⟨h.log, trivial⟩⟩
      show v.Sound verify (s.log ++ [⟨some s.visits.length, .arrived errand now⟩]) i
      have hv : (s.visits ++ [⟨errand, csrf, now, errand.enter csrf⟩])[i]? = some v := hv
      rw [List.getElem?_append] at hv
      split at hv
      · exact (h.visits i v hv).mono
      · rw [List.getElem?_singleton] at hv
        split at hv
        · cases hv
          obtain rfl : i = s.visits.length := by omega
          exact ⟨by simp, knows_enter csrf⟩
        · cases hv
  | proceed i given =>
      simp only [AccountSite.step]
      split
      · rename_i v hi
        obtain ⟨hknows, hjust⟩ := proceed_leaves h.kept (h.visits i v hi) now given
        have heff := proceed_effect verify v s.accounts now given
        refine ⟨heff.inStep h.kept, fun j w hw => ?_, each_recorded h.log hjust⟩
        rcases getElem?_set_some hw with ⟨rfl, rfl⟩ | hold
        · exact ⟨List.mem_append_left _ (h.visits i v hi).arrived, hknows⟩
        · exact (h.visits j w hold).mono
      · exact h
  | fail i =>
      simp only [AccountSite.step]
      split
      · rename_i v hi
        refine ⟨h.kept, fun j w hw => ?_, h.log⟩
        rcases getElem?_set_some hw with ⟨rfl, rfl⟩ | hold
        · exact (h.visits i v hi).failed
        · exact h.visits j w hold
      · exact h
  | purgeExpired =>
      have hpurged : InStep (s.accounts.purgeExpired now) (recorded s.log none none) :=
        (Effect.purged now).inStep h.kept
      rw [recorded_none] at hpurged
      exact ⟨hpurged, h.visits, h.log⟩
  | bootstrapAdmin username password passwordHash => exact h.bootstrapAdmin now username password passwordHash

theorem sound_start : start.Sound verify where
  kept := inStep_empty
  visits i v hv := by cases hv
  log := Log.each_nil

theorem sound_after (verify : Text → Text → Option Bool) (steps : List SiteStep) :
    (after verify steps).Sound verify :=
  Run.invariant_final (I := Sound verify) (fun _ t h => h.step t) steps sound_start

end AccountSite

end Gavel.Web
