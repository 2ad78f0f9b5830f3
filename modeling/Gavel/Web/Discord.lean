import Gavel.Web.Account

/-!
# Alerts for those who follow a market

Who follows the market of an alert is looked up once; then each of their webhooks is read and posted to, one
after the other. Requests go on meanwhile, and a call that fails is given up.
-/

namespace Gavel.Web

open Gavel.Market (ItemId Region)
open Gavel.Storage (Accounts UserId)

/-- The call an alert makes next, with the watchers that are still to come. -/
inductive PublishCall where
  | watchers
  | discordWebhook (user : UserId) (rest : List UserId)
  | post (user : UserId) (url : Text) (rest : List UserId)
  | done
  deriving DecidableEq

/-- The loop over the watchers. -/
def PublishCall.notifyAll : List UserId → PublishCall
  | [] => .done
  | user :: rest => .discordWebhook user rest

/-- An alert on its way. -/
structure PerUserDiscord where
  call : PublishCall
  /-- The posts so far, about whom and where to. One that fails is not made again. -/
  posted : List (UserId × Text)
  deriving DecidableEq

namespace PerUserDiscord

def start : PerUserDiscord := ⟨.watchers, []⟩

/-- One call, and whether it succeeds. -/
def publish (p : PerUserDiscord) (item : ItemId) (region : Region) (a : Accounts) (succeeds : Bool) :
    PerUserDiscord :=
  match p.call with
  | .watchers => { p with call := if succeeds then .notifyAll (a.watchers item region) else .done }
  | .discordWebhook user rest =>
      match if succeeds then a.discordWebhook user else none with
      | some url => { p with call := .post user url rest }
      | none => { p with call := .notifyAll rest }
  | .post user url rest => ⟨.notifyAll rest, p.posted ++ [(user, url)]⟩
  | .done => p

end PerUserDiscord

/-- The site, and an alert on its way. Alerts write nothing, so one of them is followed. -/
structure Alerting where
  site : AccountSite
  alert : PerUserDiscord

inductive AlertingStep where
  | site (t : SiteStep)
  | publish (succeeds : Bool)
  deriving DecidableEq

namespace Alerting

variable (verify : Text → Text → Option Bool) (item : ItemId) (region : Region)

def step (s : Alerting) : AlertingStep → Alerting
  | .site t => { s with site := s.site.step verify t }
  | .publish succeeds => { s with alert := s.alert.publish item region s.site.accounts succeeds }

/-- The site after some calls, from an empty database, and the alert after those of its own among them. -/
def after (steps : List AlertingStep) : Alerting := Run.final (step verify item region) ⟨.start, .start⟩ steps

end Alerting

end Gavel.Web
