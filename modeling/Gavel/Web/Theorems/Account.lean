import Gavel.Market.Theorems.Dates
import Gavel.Web.Lemmas.Account

/-!
# Accounts in every run

Whatever the requests and however their calls interleave: whoever is signed in proved who they are, nothing
is done in anyone's name without a session of theirs, what is deleted stays deleted, and nobody becomes an
administrator by a request.
-/

namespace Gavel.Web

open Gavel.Cluster (Millis)
open Gavel.Market (ItemId Region asI64 plusMs)
open Gavel.Storage (Accounts Credentials Session User UserId UserRow Watch WatchRow nocase)

namespace AccountSite

variable {verify : Text → Text → Option Bool} {s : AccountSite} {t : SiteStep} {log : List Entry}

/-! ## A run -/

/-- A hasher that keeps the password as it is. -/
def plain (password passwordHash : Text) : Option Bool := some (password == passwordHash)

/-- Somebody registers, and so is signed in. -/
def registering : List SiteStep :=
  let password : Text := ['p', 'a', 's', 's', 'w', 'o', 'r', 'd']
  [(0, .arrive (.register ['a', 'd', 'a'] password) true), (0, .proceed 0 ⟨[], true⟩),
    (1, .proceed 0 ⟨password, true⟩), (2, .proceed 0 ⟨[], true⟩), (3, .proceed 0 ⟨['t'], true⟩)]

/-- While a second request has its password verified, a third deletes the account. -/
def deleting : List SiteStep :=
  registering ++
    [(4, .arrive (.login ['A', 'd', 'a'] ['p', 'a', 's', 's', 'w', 'o', 'r', 'd']) true),
      (4, .proceed 1 ⟨[], true⟩), (4, .proceed 1 ⟨[], true⟩), (4, .arrive (.act (some ['t']) .delete) true),
      (4, .proceed 2 ⟨[], true⟩), (4, .proceed 2 ⟨[], true⟩), (5, .proceed 2 ⟨[], true⟩),
      (6, .proceed 1 ⟨['u'], true⟩), (7, .arrive (.act (some ['t']) .delete) true)]

/-! ## Proof and authority -/

/-- Every session was issued to the request that made the account or to one that gave a password which the hash
of the account verifies, and for the week after that request arrived. -/
theorem sessions_proven (verify : Text → Text → Option Bool) (steps : List SiteStep) :
    ∀ x ∈ (after verify steps).accounts.sessions.rows, ∃ i errand user,
      ⟨some i, .issued x⟩ ∈ (after verify steps).log ∧
      ⟨some i, .arrived errand x.createdAt⟩ ∈ (after verify steps).log ∧
      Proven verify (after verify steps).log i user errand ∧ x.userId = user.id ∧
      x.expiresAt = plusMs x.createdAt sessionTtlMs := by
  intro x hx
  have h := sound_after verify steps
  obtain ⟨before, ⟨visit, d⟩, later, hlog, rfl, -⟩ := h.kept.sessions x hx
  obtain ⟨i, errand, user, hi, harr, hproven, hid, hexp⟩ := h.log before _ later hlog
  rw [hlog]
  refine ⟨i, errand, user, ?_, List.mem_append_left _ harr, hproven.mono, hid, hexp⟩
  obtain rfl : visit = some i := hi
  exact List.mem_append_right _ List.mem_cons_self

set_option maxRecDepth 10000 in
theorem sessions_proven_registering :
    ∃ i errand user,
      ⟨some i, .issued ⟨['t'], 1, 0, 604800000⟩⟩ ∈ (after plain registering).log ∧
      ⟨some i, .arrived errand 0⟩ ∈ (after plain registering).log ∧
      Proven plain (after plain registering).log i user errand ∧ 1 = user.id ∧
      604800000 = plusMs 0 sessionTtlMs :=
  sessions_proven plain registering ⟨['t'], 1, 0, 604800000⟩ (by decide)

/-- Who an entry acts for. -/
def actor : Deed → Option UserId
  | .deleted id | .followed id _ _ _ | .unfollowed id _ _ | .configured id _ => some id
  | _ => none

/-- Nothing is done in anyone's name but by a request that, after it arrived, found a session of theirs that
stood and had not expired at its arrival. -/
theorem acts_granted (verify : Text → Text → Option Bool) (steps : List SiteStep) (before later : List Entry)
    (e : Entry) (id : UserId) (hlog : (after verify steps).log = before ++ e :: later)
    (hact : actor e.deed = some id) :
    ∃ i x, e.visit = some i ∧ x.userId = id ∧ Granted before i x := by
  have hjust := (sound_after verify steps).log before e later hlog
  obtain ⟨visit, d⟩ := e
  cases d with
  | deleted id' =>
      cases hact
      obtain ⟨i, x, hi, hg, hid⟩ := hjust
      exact ⟨i, x, hi, hid, hg⟩
  | followed id' item region now =>
      cases hact
      obtain ⟨i, x, hi, hg, hid⟩ := hjust
      exact ⟨i, x, hi, hid, hg⟩
  | unfollowed id' item region =>
      cases hact
      obtain ⟨i, x, hi, hg, hid⟩ := hjust
      exact ⟨i, x, hi, hid, hg⟩
  | configured id' webhook =>
      cases hact
      cases webhook with
      | none =>
          obtain ⟨i, x, hi, hg, hid⟩ := hjust
          exact ⟨i, x, hi, hid, hg⟩
      | some url =>
          obtain ⟨-, i, x, hi, hg, hid⟩ := hjust
          exact ⟨i, x, hi, hid, hg⟩
  | arrived errand now => cases hact
  | created user hash => cases hact
  | issued x => cases hact
  | loggedOut token => cases hact

set_option maxRecDepth 10000 in
theorem acts_granted_deleting :
    ∃ i x, (⟨some 2, .deleted 1⟩ : Entry).visit = some i ∧ x.userId = 1 ∧
      Granted ((after plain deleting).log.take 5) i x :=
  acts_granted plain deleting _ ((after plain deleting).log.drop 6) ⟨some 2, .deleted 1⟩ 1 (by decide) rfl

/-! ## Deletion -/

/-- Ids only grow, and only to an account that is there does anything happen. -/
def Grounded (before : List Entry) (e : Entry) : Prop :=
  match e.deed with
  | .created user _ => ∀ x ∈ before, ∀ u hash, x.deed = .created u hash → u.id < user.id
  | .issued x => ∃ c, Account c before ∧ c.user.id = x.userId
  | .deleted id | .followed id _ _ _ => ∃ c, Account c before ∧ c.user.id = id
  | _ => True

theorem account_of_has {a : Accounts} (h : InStep a log) {id : UserId} (hid : a.users.has id = true) :
    ∃ c, Account c log ∧ c.user.id = id := by
  obtain ⟨r, hr, hk⟩ := Gavel.Keyed.has_iff.mp hid
  exact ⟨r.toCredentials, (h.accounts _).mp ⟨r, hr, rfl⟩, hk⟩

theorem effect_grounded {a a' : Accounts} {who : Option Nat} {d : Deed} (h : InStep a log)
    (he : Effect a (some d) a') : Grounded log ⟨who, d⟩ := by
  cases he with
  | created hfree hid hhook hs =>
      intro x hx u hash hd
      exact hid ▸ Nat.lt_succ_of_le (h.ahead x hx u hash hd)
  | issued hfree hown => exact account_of_has h hown
  | loggedOut token => trivial
  | deleted hid => exact account_of_has h hid
  | followed hw => exact account_of_has h (h.watch_eq hw).2
  | unfollowed id item region => trivial
  | configured id webhook => trivial

theorem grounded_after (verify : Text → Text → Option Bool) (steps : List SiteStep) :
    Log.Each Grounded (after verify steps).log := by
  suffices h : InStep (after verify steps).accounts (after verify steps).log ∧
      Log.Each Grounded (after verify steps).log from h.2
  refine Run.invariant_final (I := fun s : AccountSite => InStep s.accounts s.log ∧ Log.Each Grounded s.log)
    ?_ steps ⟨inStep_empty, Log.each_nil⟩
  intro s t h
  rcases step_effect verify s t with ⟨i, errand, ha, hlog⟩ | ⟨who, d, he, hlog⟩
  · rw [ha, hlog]
    exact ⟨h.1.arrived errand t.1, Log.each_concat.mpr ⟨h.2, trivial⟩⟩
  · rw [hlog]
    refine ⟨he.inStep h.1, each_recorded h.2 fun x hx => ?_⟩
    subst hx
    exact effect_grounded h.1 he

/-- What stood before an entry began before it. -/
theorem created_of_account {c : Credentials} (h : Account c log) :
    ∃ before e later, log = before ++ e :: later ∧ e.deed = .created c.user c.passwordHash ∧
      ∀ x ∈ later, x.deed ≠ .deleted c.user.id := h

/-- No account stands under an id that was deleted: the id was made once, and before. -/
theorem not_account_of_deleted (h : Log.Each Grounded log) {e : Entry} (he : e ∈ log) {c : Credentials}
    (hd : e.deed = .deleted c.user.id) : ¬ Account c log := by
  intro hacc
  obtain ⟨before, x, later, rfl, hx, hlater⟩ := created_of_account hacc
  rcases List.mem_append.mp he with he | he
  · -- deleted before it was made: it was made before that, too
    obtain ⟨b, l, rfl⟩ := List.append_of_mem he
    have hground := h b e (l ++ x :: later) (by simp)
    rw [Grounded, hd] at hground
    obtain ⟨c', hc', hid⟩ := hground
    obtain ⟨y, hy, hyd⟩ := hc'.created
    have hnew := h (b ++ e :: l) x later (by simp)
    rw [Grounded, hx] at hnew
    have hlt := hnew y (List.mem_append_left _ hy) c'.user c'.passwordHash hyd
    rw [hid] at hlt
    exact Nat.lt_irrefl _ hlt
  · rcases List.mem_cons.mp he with rfl | he
    · rw [hx] at hd
      cases hd
    · exact hlater e he hd

/-- What makes, signs in to or changes an account. -/
def touches : Deed → Option UserId
  | .created user _ => some user.id
  | .issued x => some x.userId
  | .deleted id | .followed id _ _ _ => some id
  | _ => none

/-- A deleted account is gone for good: no row of any table refers to it any more, nothing is made under its id
again, and requests that were already let in to it neither sign in nor follow anything. -/
theorem deleted_is_gone (verify : Text → Text → Option Bool) (steps : List SiteStep) (before later : List Entry)
    (e : Entry) (id : UserId) (hlog : (after verify steps).log = before ++ e :: later)
    (hdel : e.deed = .deleted id) :
    let a := (after verify steps).accounts
    (a.byId id = none ∧ a.discordWebhook id = none ∧ (∀ x ∈ a.sessions.rows, x.userId ≠ id) ∧
      ∀ w ∈ a.watches.rows, w.user ≠ id) ∧
    ∀ x ∈ later, touches x.deed ≠ some id := by
  intro a
  have hk := (sound_after verify steps).kept
  have hg := grounded_after verify steps
  have hmem : e ∈ (after verify steps).log := by rw [hlog]; simp
  have hnone : ¬ a.users.has id = true := by
    intro hhas
    obtain ⟨c, hc, rfl⟩ := account_of_has hk hhas
    exact not_account_of_deleted hg hmem hdel hc
  have hfind : (a.users.rows.find? fun r => decide (r.user.id = id)) = none := by
    refine List.find?_eq_none.mpr fun r hr hid => hnone ?_
    exact Gavel.Keyed.has_iff.mpr ⟨r, hr, of_decide_eq_true hid⟩
  refine ⟨⟨?_, ?_, ?_, ?_⟩, ?_⟩
  · exact congrArg (Option.map _) hfind
  · exact congrArg (fun o : Option UserRow => o.bind _) hfind
  · rintro x hx rfl
    exact hnone (hk.owned x hx)
  · rintro w hw rfl
    exact hnone (hk.followers w hw)
  · intro x hx htouch
    obtain ⟨l, l', rfl⟩ := List.append_of_mem hx
    have hcut : (after verify steps).log = (before ++ e :: l) ++ x :: l' := by rw [hlog]; simp
    have hground := hg _ x l' hcut
    have hprefix : Log.Each Grounded (before ++ e :: l) := by
      intro b y r heq
      exact hg b y (r ++ x :: l') (by rw [hcut, heq]; simp)
    have hin : e ∈ before ++ e :: l := by simp
    have hgone {c : Credentials} (hc : Account c (before ++ e :: l)) (hid : c.user.id = id) : False :=
      not_account_of_deleted hprefix hin (hid ▸ hdel) hc
    obtain ⟨visit, d⟩ := x
    cases d with
    | created user hash =>
        cases htouch
        have hdground := hprefix before e l rfl
        rw [Grounded, hdel] at hdground
        obtain ⟨c, hc, hid⟩ := hdground
        obtain ⟨y, hy, hyd⟩ := hc.created
        have hlt := hground y (List.mem_append_left _ hy) c.user c.passwordHash hyd
        rw [hid] at hlt
        exact Nat.lt_irrefl _ hlt
    | issued x =>
        cases htouch
        obtain ⟨c, hc, hid⟩ := hground
        exact hgone hc hid
    | deleted id' =>
        cases htouch
        obtain ⟨c, hc, hid⟩ := hground
        exact hgone hc hid
    | followed id' item region now =>
        cases htouch
        obtain ⟨c, hc, hid⟩ := hground
        exact hgone hc hid
    | arrived errand now => cases htouch
    | loggedOut token => cases htouch
    | unfollowed id' item region => cases htouch
    | configured id' webhook => cases htouch

set_option maxRecDepth 10000 in
theorem deleted_is_gone_deleting :
    let a := (after plain deleting).accounts
    (a.byId 1 = none ∧ a.discordWebhook 1 = none ∧ (∀ x ∈ a.sessions.rows, x.userId ≠ 1) ∧
      ∀ w ∈ a.watches.rows, w.user ≠ 1) ∧
    ∀ x ∈ (after plain deleting).log.drop 6, touches x.deed ≠ some 1 :=
  deleted_is_gone plain deleting ((after plain deleting).log.take 5) _ ⟨some 2, .deleted 1⟩ 1 (by decide) rfl

/-! ## Who is signed in -/

/-- The token of a session that is issued. -/
def issuedToken : Deed → Option Text
  | .issued x => some x.id
  | _ => none

/-- A token that is handed out is none that was handed out before. -/
def freshToken (s : AccountSite) (t : SiteStep) : Bool :=
  match t.2 with
  | .proceed i given =>
      match s.visits[i]?.map Visit.next with
      | some (.createSession _) => s.log.all fun e => issuedToken e.deed ≠ some given.text
      | _ => true
  | _ => true

/-- Where the log says nothing, the sessions are as they were or one that expired is dropped; a session that
is issued has the token that was given. -/
structure Guarded (v : Visit) (a : Accounts) (given : Given) (o : Outcome) : Prop where
  unsaid : o.deed = none → o.accounts.sessions = a.sessions ∨ ∃ token action x,
    v.errand = .act (some token) action ∧ v.next = .dropSession x ∧ o.accounts = a.deleteSession token
  issued : ∀ x, o.deed = some (.issued x) → (∃ user, v.next = .createSession user) ∧ x.id = given.text

theorem Guarded.quiet {v : Visit} {a : Accounts} {given : Given} {next : NextCall} :
    Guarded v a given ⟨a, next, none⟩ :=
  ⟨fun _ => .inl rfl, fun x hx => by cases hx⟩

theorem Guarded.said {v : Visit} {a a' : Accounts} {given : Given} {next : NextCall} {d : Deed}
    (hne : ∀ x, d ≠ .issued x) : Guarded v a given ⟨a', next, some d⟩ :=
  ⟨fun hn => absurd hn (Option.some_ne_none d), fun x hx => absurd (Option.some.inj hx) (hne x)⟩

theorem startSession_guarded {v : Visit} {user : User} (hn : v.next = .createSession user) (a : Accounts)
    (given : Given) : Guarded v a given (v.startSession a user given.text) := by
  simp only [Visit.startSession]
  split
  · exact .quiet
  · refine ⟨fun hd => absurd hd (Option.some_ne_none _), fun x hx => ?_⟩
    cases hx
    exact ⟨⟨user, hn⟩, rfl⟩

theorem perform_guarded (v : Visit) (a : Accounts) (user : User) (now : Millis) (given : Given)
    (action : Action) : Guarded v a given (v.perform a user now given.isPublic action) := by
  cases action with
  | delete =>
      by_cases hid : a.users.has user.id = true
      · simp only [Visit.perform, Accounts.delete, if_pos hid]
        exact .said fun x hx => by cases hx
      · simp only [Visit.perform, Accounts.delete, if_neg hid]
        exact .quiet
  | setDiscordWebhook webhookUrl =>
      simp only [Visit.perform]
      split
      · exact .quiet
      · split
        · exact .said fun x hx => by cases hx
        · split
          · exact .quiet
          · exact .said fun x hx => by cases hx
  | toggle item region watch =>
      simp only [Visit.perform]
      split
      · exact .quiet
      · split
        · exact .quiet
        · split
          · exact .quiet
          · split
            · split
              · exact .quiet
              · exact .said fun x hx => by cases hx
            · exact .said fun x hx => by cases hx

theorem proceed_guarded (verify : Text → Text → Option Bool) (v : Visit) (a : Accounts) (now : Millis)
    (given : Given) : Guarded v a given (v.proceed verify a now given) := by
  unfold Visit.proceed
  split
  · exact .quiet
  · exact .quiet
  · split
    · exact .quiet
    · exact .said fun x hx => by cases hx
  · exact startSession_guarded ‹_› a given
  · exact startSession_guarded ‹_› a given
  · exact .quiet
  · exact .quiet
  · exact .said fun x hx => by cases hx
  · exact .quiet
  · rename_i token action x he hn
    exact ⟨fun _ => .inr ⟨token, action, x, he, hn, rfl⟩, fun x hx => by cases hx⟩
  · exact .quiet
  · exact perform_guarded v a _ now given _
  · exact .quiet

/-- The register of sessions at an instant: those that stand and have not expired are all in the table. -/
structure Clocked (verify : Text → Text → Option Bool) (t : Millis) (s : AccountSite) : Prop where
  sound : s.Sound verify
  live : ∀ x, SignedIn x s.log → t < x.expiresAt → x ∈ s.accounts.sessions.rows
  once : ∀ e ∈ s.log, ∀ e' ∈ s.log, ∀ x y, e.deed = .issued x → e'.deed = .issued y → x.id = y.id → x = y
  times : ∀ e ∈ s.log, ∀ errand now, e.deed = .arrived errand now → now ≤ t ∧ now + sessionTtlMs < 2 ^ 63

namespace Clocked

variable {t₀ now : Millis}

/-- When a session that was issued expires. -/
theorem short (h : Clocked verify t₀ s) {e : Entry} (he : e ∈ s.log) {x : Session} (hd : e.deed = .issued x) :
    x.expiresAt < 2 ^ 63 := by
  obtain ⟨before, later, hlog⟩ := List.append_of_mem he
  have hjust := h.sound.log before e later hlog
  rw [Justified, hd] at hjust
  obtain ⟨i, errand, user, -, harr, -, -, hexp⟩ := hjust
  have hmem : (⟨some i, .arrived errand x.createdAt⟩ : Entry) ∈ s.log := by rw [hlog]; simp [harr]
  have hrange := (h.times _ hmem errand x.createdAt rfl).2
  rw [hexp]
  exact Nat.lt_of_le_of_lt (Nat.min_le_left _ _) hrange

theorem start : Clocked verify t₀ AccountSite.start where
  sound := sound_start
  live _ h := absurd h Log.not_stands_nil
  once _ he := absurd he List.not_mem_nil
  times _ he := absurd he List.not_mem_nil

/-- An effect keeps the register, if it only drops silently what has expired. -/
theorem live_effect (h : Clocked verify t₀ s) (hle : t₀ ≤ now) {a' : Accounts} {who : Option Nat} {d : Option Deed}
    (he : Effect s.accounts d a')
    (hgone : d = none → ∀ x ∈ s.accounts.sessions.rows, now < x.expiresAt → x ∈ a'.sessions.rows) :
    ∀ x, SignedIn x (recorded s.log who d) → now < x.expiresAt → x ∈ a'.sessions.rows := by
  intro x hx hexp
  have hold (hs : SignedIn x s.log) : x ∈ s.accounts.sessions.rows := h.live x hs (Nat.lt_of_le_of_lt hle hexp)
  cases he with
  | quiet hs => exact hgone rfl x (hold (by simpa using hx)) hexp
  | dropped token => exact hgone rfl x (hold (by simpa using hx)) hexp
  | purged instant => exact hgone rfl x (hold (by simpa using hx)) hexp
  | created hfree hid hhook hs =>
      rw [hs.sessions]
      exact hold (by simpa using hx)
  | @issued y hfree hown =>
      rcases signedIn_concat.mp hx with hy | ⟨hs, -⟩
      · cases hy
        exact Gavel.Keyed.mem_add.mpr (.inr ⟨rfl, hfree⟩)
      · exact Gavel.Keyed.mem_add_of_mem (hold hs)
  | loggedOut token =>
      obtain ⟨hs, hends⟩ := (signedIn_concat.mp hx).resolve_left (fun hd => by cases hd)
      refine Gavel.Keyed.mem_keep.mpr ⟨hold hs, decide_eq_true fun heq => ?_⟩
      exact hends (.inl (congrArg Deed.loggedOut heq.symm))
  | @deleted id hid =>
      obtain ⟨hs, hends⟩ := (signedIn_concat.mp hx).resolve_left (fun hd => by cases hd)
      simp only [Accounts.delete, if_pos hid]
      refine Gavel.Keyed.mem_keep.mpr ⟨hold hs, decide_eq_true fun heq => ?_⟩
      exact hends (.inr (congrArg Deed.deleted heq.symm))
  | followed hw =>
      rw [(h.sound.kept.watch_eq hw).1]
      exact hold (by simpa using hx)
  | unfollowed id item region => exact hold (by simpa using hx)
  | configured id webhook => exact hold (by simpa using hx)

/-- A time within range is stored as it is. -/
theorem stored_eq {n : Millis} (h : n < 2 ^ 63) : asI64 n = n :=
  Gavel.Market.asI64_eq (by have := Int.natCast_nonneg n; omega) (by exact_mod_cast h)

theorem bootstrapAdmin_sessions {a a' : Accounts} {username passwordHash : Text} {user : Option User}
    (h : a.bootstrapAdmin username passwordHash now = .ok (user, a')) : a'.sessions = a.sessions := by
  have hclaim := claimBootstrap_same a
  simp only [Accounts.bootstrapAdmin] at h
  split at h
  · cases h
    exact hclaim.sessions
  · split at h
    · cases h
    · rename_i hins
      obtain ⟨r, -, -, -, -, -, -, -, rfl⟩ := insertUser_effect hins
      cases h
      exact hclaim.sessions

/-- A step of the site, with what the register needs of it. -/
theorem step_cases (h : Clocked verify t₀ s) (hle : t₀ ≤ t.1) (hr : t.1 + sessionTtlMs < 2 ^ 63)
    (hf : freshToken s t = true) :
    (∃ i errand, (s.step verify t).accounts = s.accounts ∧
      (s.step verify t).log = s.log ++ [⟨some i, .arrived errand t.1⟩]) ∨
    ∃ who d, Effect s.accounts d (s.step verify t).accounts ∧ (s.step verify t).log = recorded s.log who d ∧
      (d = none → ∀ x ∈ s.accounts.sessions.rows, t.1 < x.expiresAt →
        x ∈ (s.step verify t).accounts.sessions.rows) ∧
      ∀ x, d = some (.issued x) → ∀ e ∈ s.log, ∀ y, e.deed = .issued y → y.id ≠ x.id := by
  obtain ⟨now, call⟩ := t
  have hstill (s' : AccountSite) (ha : s'.accounts = s.accounts) (hl : s'.log = s.log) :
      ∃ who d, Effect s.accounts d s'.accounts ∧ s'.log = recorded s.log who d ∧
        (d = none → ∀ x ∈ s.accounts.sessions.rows, now < x.expiresAt → x ∈ s'.accounts.sessions.rows) ∧
        ∀ x, d = some (.issued x) → ∀ e ∈ s.log, ∀ y, e.deed = .issued y → y.id ≠ x.id := by
    rw [ha, hl]
    exact ⟨none, none, .quiet (.refl _), recorded_none.symm, fun _ x hx _ => hx, fun x hx => by cases hx⟩
  cases call with
  | arrive errand csrf => exact .inl ⟨_, errand, rfl, rfl⟩
  | fail i =>
      refine .inr (hstill _ ?_ ?_) <;> simp only [AccountSite.step] <;> split <;> rfl
  | purgeExpired =>
      refine .inr ⟨none, none, .purged now, recorded_none.symm, ?_, fun x hx => by cases hx⟩
      intro _ x hx hexp
      obtain ⟨-, e, he, hd⟩ := (h.sound.kept.sessions x hx).begun
      have hshort := h.short he hd
      refine Gavel.Keyed.mem_keep.mpr ⟨hx, ?_⟩
      rw [stored_eq hshort, stored_eq (Nat.lt_of_le_of_lt (Nat.le_add_right _ _) hr)]
      simpa using hexp
  | bootstrapAdmin username password passwordHash =>
      simp only [AccountSite.step, AccountSite.bootstrapAdmin]
      split
      · rename_i user a' hu hp hb
        refine .inr ⟨none, _, bootstrapAdmin_effect hb, ?_, ?_, ?_⟩
        · rw [recorded, Option.map_map]
          rfl
        · intro _ x hx _
          rwa [bootstrapAdmin_sessions hb]
        · intro x hx
          obtain ⟨u, -, hd⟩ := Option.map_eq_some_iff.mp hx
          cases hd
      · exact .inr (hstill s rfl rfl)
  | proceed i given =>
      simp only [AccountSite.step]
      split
      · rename_i v hi
        right
        have hv := h.sound.visits i v hi
        have hg := proceed_guarded verify v s.accounts now given
        refine ⟨some i, _, proceed_effect verify v s.accounts now given, rfl, ?_, ?_⟩
        · intro hd x hx hexp
          rcases hg.unsaid hd with hsame | ⟨token, action, y, he, hn, hdrop⟩
          · exact hsame ▸ hx
          · have hknows := hv.knows
            rw [hn] at hknows
            obtain ⟨⟨e, hmem, hissued⟩, hdead, action', heq⟩ := hknows
            rw [he] at heq
            cases heq
            have harrived := (h.times _ hv.arrived v.errand v.arrived rfl).1
            obtain ⟨-, e', he', hd'⟩ := (h.sound.kept.sessions x hx).begun
            show x ∈ (v.proceed verify s.accounts now given).accounts.sessions.rows
            rw [hdrop]
            refine Gavel.Keyed.mem_keep.mpr ⟨hx, decide_eq_true fun hid => ?_⟩
            obtain rfl := h.once e' he' e hmem x y hd' hissued hid
            exact absurd hexp (Nat.not_lt.mpr (hdead.trans (harrived.trans hle)))
        · intro x hx e he y hy
          obtain ⟨⟨user, hn⟩, hid⟩ := hg.issued x hx
          simp only [freshToken, hi, Option.map_some, hn, List.all_eq_true] at hf
          have htoken := of_decide_eq_true (hf e he)
          rw [hy] at htoken
          rw [hid]
          exact fun heq => htoken (congrArg some heq)
      · exact .inr (hstill s rfl rfl)

theorem step (h : Clocked verify t₀ s) (hle : t₀ ≤ t.1) (hr : t.1 + sessionTtlMs < 2 ^ 63) (hf : freshToken s t = true) :
    Clocked verify t.1 (s.step verify t) := by
  have hsound := h.sound.step t
  have htimes : ∀ e ∈ s.log, ∀ errand now, e.deed = .arrived errand now →
      now ≤ t.1 ∧ now + sessionTtlMs < 2 ^ 63 := fun e he errand now hd =>
    ⟨(h.times e he errand now hd).1.trans hle, (h.times e he errand now hd).2⟩
  rcases h.step_cases hle hr hf with ⟨i, errand, ha, hlog⟩ | ⟨who, d, he, hlog, hgone, hnew⟩
  · refine ⟨hsound, ?_, ?_, ?_⟩
    · intro x hx hexp
      rw [hlog] at hx
      rw [ha]
      exact h.live x (by simpa using hx) (Nat.lt_of_le_of_lt hle hexp)
    · intro e he e' he' x y hd hd' hid
      rw [hlog] at he he'
      rcases List.mem_append.mp he with he | he <;> rcases List.mem_append.mp he' with he' | he'
      · exact h.once e he e' he' x y hd hd' hid
      · rw [List.mem_singleton.mp he'] at hd'
        cases hd'
      · rw [List.mem_singleton.mp he] at hd
        cases hd
      · rw [List.mem_singleton.mp he] at hd
        cases hd
    · intro e he errand' now hd
      rw [hlog] at he
      rcases List.mem_append.mp he with he | he
      · exact htimes e he errand' now hd
      · rw [List.mem_singleton.mp he] at hd
        cases hd
        exact ⟨Nat.le_refl _, hr⟩
  · refine ⟨hsound, ?_, ?_, ?_⟩
    · rw [hlog]
      exact h.live_effect hle he hgone
    · rw [hlog]
      cases d with
      | none =>
          rw [recorded_none]
          exact h.once
      | some d =>
          intro e he e' he' x y hd hd' hid
          rcases List.mem_append.mp he with he | he <;> rcases List.mem_append.mp he' with he' | he'
          · exact h.once e he e' he' x y hd hd' hid
          · rw [List.mem_singleton.mp he'] at hd'
            exact absurd hid (hnew y (congrArg some hd') e he x hd)
          · rw [List.mem_singleton.mp he] at hd
            exact absurd hid.symm (hnew x (congrArg some hd) e' he' y hd')
          · rw [List.mem_singleton.mp he] at hd
            rw [List.mem_singleton.mp he'] at hd'
            exact Deed.issued.inj (hd.symm.trans hd')
    · rw [hlog]
      cases d with
      | none =>
          rw [recorded_none]
          exact htimes
      | some d =>
          intro e hmem errand now hd
          rcases List.mem_append.mp hmem with hmem | hmem
          · exact htimes e hmem errand now hd
          · rw [List.mem_singleton.mp hmem] at hd
            subst hd
            cases he

end Clocked

/-- Whoever presents a token is signed in as an account exactly if a session with that token was issued to it,
has not expired, and since then neither the session was signed out nor the account deleted. -/
theorem signed_in_iff (verify : Text → Text → Option Bool) (steps : List SiteStep) (now : Millis)
    (hclock : (steps.map Prod.fst).Pairwise (· ≤ ·)) (hnow : ∀ t ∈ steps, t.1 ≤ now)
    (hrange : now + sessionTtlMs < 2 ^ 63)
    (hfresh : Run.AllSteps (step verify) (fun s t => freshToken s t = true) start steps)
    (token : Text) (user : User) :
    let s := after verify steps
    authenticate s.accounts token now = some user ↔
      ∃ x hash, x.id = token ∧ now < x.expiresAt ∧ x.userId = user.id ∧ SignedIn x s.log ∧
        Account ⟨user, hash⟩ s.log := by
  intro s
  have hnow' : Run.AllSteps (step verify) (fun _ t => t.1 ≤ now) start steps := Run.allSteps_of_forall hnow
  obtain ⟨t₀, hle, h⟩ := Run.invariant_clocked_of_steps (C := fun s t => freshToken s t = true ∧ t.1 ≤ now) (t := 0) Prod.fst
    (fun t s => t ≤ now ∧ Clocked verify t s)
    (fun t s i h hle hc => ⟨hc.2, h.2.step hle
      (Nat.lt_of_le_of_lt (Nat.add_le_add_right hc.2 _) hrange) hc.1⟩)
    ⟨Nat.zero_le _, .start⟩ (fun _ _ => Nat.zero_le _) hclock (hfresh.and hnow') s (Run.final_mem_visited _ _)
  have hk := h.sound.kept
  constructor
  · intro hauth
    unfold authenticate at hauth
    split at hauth
    · rename_i x hget
      obtain ⟨hx, hid⟩ := getSession_eq hget
      split at hauth
      · cases hauth
      · rename_i hexp
        obtain ⟨r, hr, rfl, huser⟩ := byId_eq hauth
        refine ⟨x, r.passwordHash, hid, ?_, huser.symm, hk.sessions x hx, (hk.accounts _).mp ⟨r, hr, rfl⟩⟩
        simpa [Session.isExpired] using hexp
    · cases hauth
  · rintro ⟨x, hash, rfl, hexp, huser, hin, hacc⟩
    have hx := h.live x hin (Nat.lt_of_le_of_lt hle hexp)
    obtain ⟨r, hr, hcred⟩ := (hk.accounts _).mpr hacc
    have hget : s.accounts.getSession x.id = some x := Gavel.Keyed.find?_key.mpr ⟨hx, rfl⟩
    have hrow : (s.accounts.users.rows.find? fun r => decide (r.user.id = x.userId)) = some r := by
      refine Gavel.Keyed.find?_key.mpr ⟨hr, ?_⟩
      rw [huser]
      exact congrArg (fun c : Credentials => c.user.id) hcred
    have hlive : x.isExpired now = false := by simpa [Session.isExpired] using hexp
    simp only [authenticate, hget, hlive, Bool.false_eq_true, if_false, Accounts.byId, hrow, Option.map_some]
    exact congrArg (fun c : Credentials => some c.user) hcred

set_option maxRecDepth 10000 in
theorem signed_in_iff_registering :
    let s := after plain registering
    authenticate s.accounts ['t'] 10 = some ⟨1, ['a', 'd', 'a'], 0, false⟩ ↔
      ∃ x hash, x.id = ['t'] ∧ 10 < x.expiresAt ∧ x.userId = 1 ∧ SignedIn x s.log ∧
        Account ⟨⟨1, ['a', 'd', 'a'], 0, false⟩, hash⟩ s.log :=
  signed_in_iff plain registering 10 (by decide) (by decide) (by decide) (by decide) ['t'] _

/-! ## Administrators -/

theorem effect_bootstrapped {a a' : Accounts} {d : Option Deed} (he : Effect a d a')
    (h : a.adminBootstrap.isSome = true) : a'.adminBootstrap.isSome = true := by
  cases he with
  | quiet hs => exact hs.bootstrapped h
  | created hfree hid hhook hs => exact hs.bootstrapped h
  | issued hfree hown => exact h
  | dropped token => exact h
  | purged now => exact h
  | loggedOut token => exact h
  | deleted hid =>
      simp only [Accounts.delete, if_pos hid]
      simpa using h
  | followed hw =>
      simp only [Accounts.watch] at hw
      split at hw
      · cases hw
        exact h
      · split at hw
        · cases hw
          exact h
        · cases hw
  | unfollowed id item region => exact h
  | configured id webhook => exact h

/-- An administrator is made by no request, and after no other. -/
def Singular (before : List Entry) (e : Entry) : Prop :=
  ∀ user hash, e.deed = .created user hash → user.isAdmin = true →
    e.visit = none ∧ ∀ x ∈ before, ∀ u h, x.deed = .created u h → u.isAdmin = false

/-- Every administrator was made as a bootstrap that was the first, and the row of the bootstrap remembers. -/
structure Administered (s : AccountSite) : Prop where
  log : Log.Each Singular s.log
  remembered : ∀ e ∈ s.log, ∀ user hash, e.deed = .created user hash → user.isAdmin = true →
    s.accounts.adminBootstrap.isSome = true

/-- An entry that makes no administrator leaves everything as it was. -/
theorem Administered.recorded (h : Administered s) {a' : Accounts} {who : Option Nat} {d : Option Deed}
    (he : Effect s.accounts d a') (hd : ∀ user hash, d = some (.created user hash) → user.isAdmin = false)
    {visits : List Visit} : Administered ⟨a', visits, recorded s.log who d⟩ where
  log := each_recorded h.log fun x hx user hash hc hadmin => by
    rw [hd user hash (hx.trans (congrArg some hc))] at hadmin
    cases hadmin
  remembered e hmem user hash hc hadmin := by
    rcases List.mem_append.mp hmem with hmem | hmem
    · exact effect_bootstrapped he (h.remembered e hmem user hash hc hadmin)
    · obtain ⟨x, hx, rfl⟩ := Option.map_eq_some_iff.mp (Option.mem_toList.mp hmem)
      rw [hd user hash (hx.trans (congrArg some hc))] at hadmin
      cases hadmin

theorem Administered.bootstrapAdmin (h : Administered s) (now : Millis) (username password passwordHash : Text) :
    Administered (s.bootstrapAdmin now username password passwordHash) := by
  simp only [AccountSite.bootstrapAdmin]
  split
  · rename_i user a' hu hp hb
    cases user with
    | none =>
        have hsame : Administered ⟨a', s.visits, Web.recorded s.log none none⟩ :=
          h.recorded (bootstrapAdmin_effect hb) fun user hash hd => by cases hd
        exact hsame
    | some user =>
        simp only [Accounts.bootstrapAdmin] at hb
        split at hb
        · cases hb
        rename_i hfree
        split at hb
        · cases hb
        cases hb
        -- the row was not there before, so no administrator had been made
        have hnone : ∀ x ∈ s.log, ∀ u w, x.deed = .created u w → u.isAdmin = false := by
          intro x hx u w hd
          by_contra hne
          exact hfree ((claimBootstrap_same s.accounts).bootstrapped
            (h.remembered x hx u w hd (by simpa using hne)))
        refine ⟨Log.each_concat.mpr ⟨h.log, fun u w hd _ => ⟨rfl, hnone⟩⟩, fun _ _ _ _ _ _ => rfl⟩
  · exact h

theorem Administered.step (h : Administered s) (hv : s.Sound verify) (t : SiteStep) :
    Administered (s.step verify t) := by
  obtain ⟨now, call⟩ := t
  cases call with
  | arrive errand csrf =>
      refine ⟨Log.each_concat.mpr ⟨h.log, fun user hash hd => by cases hd⟩, ?_⟩
      intro e hmem user hash hc hadmin
      rcases List.mem_append.mp hmem with hmem | hmem
      · exact h.remembered e hmem user hash hc hadmin
      · rw [List.mem_singleton.mp hmem] at hc
        cases hc
  | proceed i given =>
      simp only [AccountSite.step]
      split
      · rename_i v hi
        obtain ⟨-, hjust⟩ := proceed_leaves hv.kept (hv.visits i v hi) now given
        refine h.recorded (proceed_effect verify v s.accounts now given) ?_
        intro user hash hd
        exact ((hjust _ hd).2 i rfl).1
      · exact h
  | fail i =>
      simp only [AccountSite.step]
      split
      · exact ⟨h.log, h.remembered⟩
      · exact h
  | purgeExpired => exact ⟨h.log, h.remembered⟩
  | bootstrapAdmin username password passwordHash => exact h.bootstrapAdmin now username password passwordHash

/-- At most one administrator is ever made: by the bootstrap of a process that starts, never by a request,
and none again after that, not even once the account is deleted. -/
theorem one_administrator (verify : Text → Text → Option Bool) (steps : List SiteStep)
    (before later : List Entry) (e : Entry) (user : User) (hash : Text)
    (hlog : (after verify steps).log = before ++ e :: later) (hmade : e.deed = .created user hash)
    (hadmin : user.isAdmin = true) :
    e.visit = none ∧ ∀ x ∈ before ++ later, ∀ u h, x.deed = .created u h → u.isAdmin = false := by
  have hall : Log.Each Singular (after verify steps).log := by
    suffices h : (after verify steps).Sound verify ∧ Administered (after verify steps) from h.2.log
    refine Run.invariant_final (I := fun s : AccountSite => s.Sound verify ∧ Administered s)
      (fun s t h => ⟨h.1.step t, h.2.step h.1 t⟩) steps ⟨sound_start, Log.each_nil, ?_⟩
    exact fun _ he => absurd he List.not_mem_nil
  obtain ⟨hvisit, hbefore⟩ := hall before e later hlog user hash hmade hadmin
  refine ⟨hvisit, fun x hx u w hd => ?_⟩
  rcases List.mem_append.mp hx with hx | hx
  · exact hbefore x hx u w hd
  · by_contra hne
    obtain ⟨l, l', rfl⟩ := List.append_of_mem hx
    have hcut : (after verify steps).log = (before ++ e :: l) ++ x :: l' := by rw [hlog]; simp
    have hprev := (hall _ x l' hcut u w hd (by simpa using hne)).2 e (by simp) user hash hmade
    rw [hadmin] at hprev
    cases hprev

set_option maxRecDepth 10000 in
theorem one_administrator_registering :
    (⟨none, .created ⟨1, ['e', 'v', 'e'], 0, true⟩ ['h']⟩ : Entry).visit = none ∧
      ∀ x ∈ [] ++ (after plain
          ((0, .bootstrapAdmin ['e', 'v', 'e'] ['p', 'a', 's', 's', 'w', 'o', 'r', 'd'] ['h']) ::
            registering)).log.drop 1,
        ∀ u h, x.deed = .created u h → u.isAdmin = false :=
  one_administrator plain
    ((0, .bootstrapAdmin ['e', 'v', 'e'] ['p', 'a', 's', 's', 'w', 'o', 'r', 'd'] ['h']) :: registering)
    [] _ ⟨none, .created ⟨1, ['e', 'v', 'e'], 0, true⟩ ['h']⟩ _ _ (by decide) rfl rfl

/-! ## Watch lists -/

/-- A watch list has every market that was followed and not given up since, once, with the moment it was first
followed, the newest first. -/
theorem watchlist_tells_log (verify : Text → Text → Option Bool) (steps : List SiteStep) (id : UserId) :
    let s := after verify steps
    (∀ w, w ∈ s.accounts.watchesOf id ↔ Follows ⟨id, w⟩ s.log) ∧
    (s.accounts.watchesOf id).Pairwise (fun v w => asI64 w.addedAt ≤ asI64 v.addedAt) ∧
    ((s.accounts.watchesOf id).map fun w => (w.item, w.region)).Nodup := by
  intro s
  have h := (sound_after verify steps).kept
  refine ⟨fun w => ?_, ?_, ?_⟩
  · rw [← h.watches]
    simp only [Accounts.watchesOf, List.mem_insertionSort, List.mem_map, List.mem_filter, decide_eq_true_eq]
    constructor
    · rintro ⟨r, ⟨hr, rfl⟩, rfl⟩
      exact hr
    · intro hw
      exact ⟨_, ⟨hw, rfl⟩, rfl⟩
  · have htotal : Std.Total fun v w : Watch => asI64 w.addedAt ≤ asI64 v.addedAt :=
      ⟨fun v w => le_total _ _⟩
    have htrans : IsTrans Watch fun v w => asI64 w.addedAt ≤ asI64 v.addedAt :=
      ⟨fun _ _ _ h₁ h₂ => h₂.trans h₁⟩
    exact List.pairwise_insertionSort _ _
  · have hnodup : (((s.accounts.watches.rows.filter (·.user = id)).map WatchRow.watch).map
        fun w => (w.item, w.region)).Nodup := by
      rw [List.map_map]
      refine List.pairwise_map.mpr (List.Pairwise.imp_of_mem ?_ (s.accounts.watches.unique.filter _))
      intro v w hv hw hkey heq
      have hv := (List.mem_filter.mp hv).2
      have hw := (List.mem_filter.mp hw).2
      simp only [decide_eq_true_eq] at hv hw
      exact hkey (Prod.ext (hv.trans hw.symm) heq)
    exact ((List.perm_insertionSort _ _).map _).nodup_iff.mpr hnodup

end AccountSite

end Gavel.Web
