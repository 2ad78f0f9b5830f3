import Gavel.Lib.Sorting
import Gavel.Market.Analysis
import Gavel.Market.Catalog

/-!
# Market events

Things that happened, and when: what a reviewed catalogue states of its patches and raids, and the weekly
resets, which are generated from a rule.
-/

namespace Gavel.Market

open Gavel.Cluster (Millis)
open Gavel.Sorting

/-- What kind of thing happened. -/
inductive EventKind where
  | patchRelease | raidOpening | seasonStart | weeklyReset | hotfix | professionChange | holiday | annotation
  deriving DecidableEq

namespace EventKind

def all : List EventKind :=
  [.patchRelease, .raidOpening, .seasonStart, .weeklyReset, .hotfix, .professionChange, .holiday, annotation]

def asStr : EventKind → Text
  | patchRelease => "patch_release".toList
  | raidOpening => "raid_opening".toList
  | seasonStart => "season_start".toList
  | weeklyReset => "weekly_reset".toList
  | hotfix => "hotfix".toList
  | professionChange => "profession_change".toList
  | holiday => "holiday".toList
  | annotation => "annotation".toList

def parse (raw : Text) : Option EventKind := all.find? fun k => k.asStr = raw

end EventKind

/-- Who says this happened. -/
inductive Provenance where
  | catalogue | calendar | administrator
  deriving DecidableEq

/-- Whether anybody has checked it. -/
inductive Validation where
  | unvalidated | validated | rejected
  deriving DecidableEq

/-- Who may see it. -/
inductive Visibility where
  | internal | shown
  deriving DecidableEq

/-- What an event applies to; everything that is empty applies to all. -/
structure EventScope where
  regions : List Region := []
  expansion : Option Text := none
  patch : Option Text := none
  tier : Option Text := none
  category : Option ItemKind := none
  item : Option ItemId := none
  market : Option MarketKey := none
  deriving DecidableEq

/-- One thing that happened. -/
structure MarketEvent where
  id : Text
  kind : EventKind
  title : Text
  notes : Option Text
  startsAt : Millis
  endsAt : Option Millis
  scope : EventScope
  provenance : Provenance
  validation : Validation
  visibility : Visibility
  deriving DecidableEq

namespace MarketEvent

/-- In the order they started, then of their ids. -/
def order : MarketEvent → MarketEvent → Ordering := compareLex (compareOn startsAt) (compareOn id)

end MarketEvent

/-! ## Weekly resets -/

def weekMs : Nat := 7 * dayMs

/-- When a region's week turns over: the day, Monday first, and the hour, UTC. -/
structure ResetRule where
  region : Region
  weekday : Nat
  hourUtc : Nat
  deriving DecidableEq

def resetRules : List ResetRule := [⟨.us, 1, 15⟩, ⟨.eu, 2, 3⟩, ⟨.kr, 2, 22⟩, ⟨.tw, 2, 22⟩]

namespace ResetRule

/-- The first reset at or after an instant. -/
def firstAtOrAfter (rule : ResetRule) (since : Millis) : Millis :=
  let day := since / dayMs * dayMs
  let ahead := (7 + rule.weekday - Market.weekday day) % 7
  let candidate := (day + ahead * dayMs + rule.hourUtc * hourMs) % 2 ^ 64
  if since ≤ candidate then candidate else (candidate + weekMs) % 2 ^ 64

/-- The reset at an instant. The hour is not known well enough to publish it. -/
def event (rule : ResetRule) (at' : Millis) : MarketEvent :=
  { id := "calendar:reset:".toList ++ rule.region.asStr ++ ':' :: Text.decimal at'
    kind := .weeklyReset
    title := rule.region.asStr.map Char.toUpper ++ " weekly reset".toList
    notes := none
    startsAt := at'
    endsAt := none
    scope := { regions := [rule.region] }
    provenance := .calendar
    validation := .unvalidated
    visibility := .internal }

/-- A week at a time until an instant, for as many rounds as there is fuel; nothing is returned if that
was not enough. -/
def walk (until' : Millis) : Nat → Millis → Option (List Millis)
  | 0, _ => none
  | fuel + 1, at' =>
      if at' < until' then (walk until' fuel ((at' + weekMs) % 2 ^ 64)).map (at' :: ·) else some []

/-- Every reset from one instant on and before another. -/
def events (rule : ResetRule) (fuel : Nat) (since until' : Millis) : Option (List MarketEvent) :=
  (walk until' fuel (rule.firstAtOrAfter since)).map (·.map rule.event)

end ResetRule

/-- Every region's resets in a window. -/
def weeklyResets (fuel : Nat) (since until' : Millis) : Option (List MarketEvent) :=
  (resetRules.mapM fun rule : ResetRule => rule.events fuel since until').map fun lists =>
    sortWith MarketEvent.order lists.flatten

end Gavel.Market
