import Gavel.Web.Discord
import Gavel.Web.Lemmas.Account

/-!
# An alert reaches those who follow its market

Whatever requests come between its calls: an alert is posted about nobody who did not follow the market when
that was looked up, and only to the webhook that was theirs when that was read.
-/

namespace Gavel.Web

open Gavel.Market (ItemId Region)
open Gavel.Storage (Accounts UserId UserRow)

/-! ## What is read -/

section Reads

variable {a : Accounts} {log : List Entry} {id : UserId} {item : ItemId} {region : Region} {url : Text}

/-- Everyone once, by id. -/
theorem watchers_sorted (a : Accounts) (item : ItemId) (region : Region) :
    (a.watchers item region).Pairwise (· < ·) := by
  have hnodup : ((a.watches.rows.filter fun w => w.watch.item = item ∧ w.watch.region = region).map
      Gavel.Storage.WatchRow.user).Nodup := by
    refine List.pairwise_map.mpr (List.Pairwise.imp_of_mem ?_ (a.watches.unique.filter _))
    intro v w hv hw hkey heq
    have hv := (List.mem_filter.mp hv).2
    have hw := (List.mem_filter.mp hw).2
    simp only [decide_eq_true_eq] at hv hw
    exact hkey (Prod.ext heq (Prod.ext (hv.1.trans hw.1.symm) (hv.2.trans hw.2.symm)))
  have hsorted := List.pairwise_insertionSort (α := UserId) (· ≤ ·)
    ((a.watches.rows.filter fun w => w.watch.item = item ∧ w.watch.region = region).map
      Gavel.Storage.WatchRow.user)
  have hdistinct := (List.perm_insertionSort (α := UserId) (· ≤ ·) _).nodup_iff.mpr hnodup
  exact (hsorted.and hdistinct).imp fun h => Nat.lt_of_le_of_ne h.1 h.2

end Reads

namespace Alerting

variable {verify : Text → Text → Option Bool} {item : ItemId} {region : Region}
variable {steps before : List AlertingStep} {call : PublishCall} {succeeds : Bool} {posted : List (UserId × Text)}
variable {id : UserId}

/-! ## The calls of the alert -/

theorem after_concat (steps : List AlertingStep) (t : AlertingStep) :
    after verify item region (steps ++ [t]) = (after verify item region steps).step verify item region t := by
  simp [after, Run.final]

theorem sound_after (steps : List AlertingStep) : (after verify item region steps).site.Sound verify := by
  refine Run.invariant_final (I := fun s : Alerting => s.site.Sound verify) (fun s t h => ?_) steps
    AccountSite.sound_start
  cases t with
  | site t => exact h.step t
  | publish succeeds => exact h

/-- The alert made a call after some of the steps. -/
def Made (verify : Text → Text → Option Bool) (item : ItemId) (region : Region) (steps before : List AlertingStep)
    (call : PublishCall) (succeeds : Bool) : Prop :=
  (before ++ [AlertingStep.publish succeeds]).IsPrefix steps ∧ (after verify item region before).alert.call = call

theorem Made.concat (h : Made verify item region steps before call succeeds) (t : AlertingStep) :
    Made verify item region (steps ++ [t]) before call succeeds :=
  ⟨h.1.trans (List.prefix_append _ _), h.2⟩

theorem made_concat (h : (after verify item region steps).alert.call = call) :
    Made verify item region (steps ++ [.publish succeeds]) steps call succeeds := ⟨List.prefix_rfl, h⟩

/-- The webhook of a watcher was read, and what that gave is what was posted about the watcher. -/
def Served (verify : Text → Text → Option Bool) (item : ItemId) (region : Region) (steps : List AlertingStep)
    (posted : List (UserId × Text)) (id : UserId) : Prop :=
  ∃ before rest succeeds, Made verify item region steps before (.discordWebhook id rest) succeeds ∧
    ∀ url, (id, url) ∈ posted ↔
      succeeds = true ∧ (after verify item region before).site.accounts.discordWebhook id = some url

theorem Served.concat (h : Served verify item region steps posted id) (t : AlertingStep) :
    Served verify item region (steps ++ [t]) posted id := by
  obtain ⟨before, rest, succeeds, hmade, hiff⟩ := h
  exact ⟨before, rest, succeeds, hmade.concat t, hiff⟩

/-- A post about somebody else does not matter. -/
theorem Served.posted_ne (h : Served verify item region steps posted id) {p : UserId × Text} (hne : id ≠ p.1) :
    Served verify item region steps (posted ++ [p]) id := by
  obtain ⟨before, rest, succeeds, hmade, hiff⟩ := h
  refine ⟨before, rest, succeeds, hmade, fun url => ?_⟩
  rw [← hiff, List.mem_append, List.mem_singleton, or_iff_left]
  rintro rfl
  exact hne rfl

/-- The watchers whose webhook is read, or still to be read. -/
def waiting : PublishCall → List UserId
  | .discordWebhook user rest => user :: rest
  | .post user _ rest => user :: rest
  | .watchers | .done => []

theorem waiting_notifyAll (ids : List UserId) : waiting (.notifyAll ids) = ids := by
  cases ids <;> rfl

theorem notifyAll_ne_watchers (ids : List UserId) : PublishCall.notifyAll ids ≠ .watchers := by
  cases ids <;> nofun

/-- The alert is under way to those who followed the market when they were looked up. -/
structure Underway (verify : Text → Text → Option Bool) (item : ItemId) (region : Region)
    (steps before : List AlertingStep) (alert : PerUserDiscord) (served : List UserId) : Prop where
  looked : Made verify item region steps before .watchers true
  under : alert.call ≠ .watchers
  all : served ++ waiting alert.call = (after verify item region before).site.accounts.watchers item region
  posted : (alert.posted.map Prod.fst).Sublist served
  served : ∀ id ∈ served, Served verify item region steps alert.posted id
  read : ∀ id url rest, alert.call = .post id url rest → ∃ before rest,
    Made verify item region steps before (.discordWebhook id rest) true ∧
      (after verify item region before).site.accounts.discordWebhook id = some url

namespace Underway

variable {alert : PerUserDiscord} {served rest : List UserId}

theorem concat (h : Underway verify item region steps before alert served) (t : AlertingStep) :
    Underway verify item region (steps ++ [t]) before alert served where
  looked := h.looked.concat t
  under := h.under
  all := h.all
  posted := h.posted
  served id hid := (h.served id hid).concat t
  read id url rest hc := by
    obtain ⟨read, rest, hmade, hurl⟩ := h.read id url rest hc
    exact ⟨read, rest, hmade.concat t, hurl⟩

/-- Nobody has been served whose turn it is. -/
theorem not_served (h : Underway verify item region steps before alert served)
    (hw : waiting alert.call = id :: rest) : id ∉ served := by
  intro hid
  have hsorted := watchers_sorted (after verify item region before).site.accounts item region
  rw [← h.all, hw] at hsorted
  exact Nat.lt_irrefl id ((List.pairwise_append.mp hsorted).2.2 id hid id List.mem_cons_self)

theorem not_posted (h : Underway verify item region steps before alert served)
    (hw : waiting alert.call = id :: rest) (url : Text) : (id, url) ∉ alert.posted :=
  fun hp => h.not_served hw (h.posted.subset (List.mem_map_of_mem (f := Prod.fst) hp))

/-- The next watcher's turn is over. -/
theorem next (h : Underway verify item region steps before alert served) (hw : waiting alert.call = id :: rest)
    (hposted : posted = alert.posted ∨ ∃ url, posted = alert.posted ++ [(id, url)])
    (hid : Served verify item region steps posted id) :
    Underway verify item region steps before ⟨.notifyAll rest, posted⟩ (served ++ [id]) where
  looked := h.looked
  under := notifyAll_ne_watchers rest
  all := by
    rw [waiting_notifyAll, ← h.all, hw, List.append_assoc]
    rfl
  posted := by
    rcases hposted with rfl | ⟨url, rfl⟩
    · exact h.posted.trans (List.sublist_append_left _ _)
    · rw [List.map_append]
      exact h.posted.append (List.Sublist.refl [id])
  served other hother := by
    rcases List.mem_append.mp hother with hserved | hlast
    · have hold := h.served other hserved
      rcases hposted with rfl | ⟨url, rfl⟩
      · exact hold
      · refine hold.posted_ne ?_
        rintro rfl
        exact h.not_served hw hserved
    · rw [List.mem_singleton.mp hlast]
      exact hid
  read _ _ _ hc := by cases rest <;> cases hc

/-- One call of an alert that is under way. -/
theorem publish (h : Underway verify item region steps before alert served)
    (halert : (after verify item region steps).alert = alert) (succeeds : Bool) :
    ∃ served', Underway verify item region (steps ++ [.publish succeeds]) before
      (alert.publish item region (after verify item region steps).site.accounts succeeds) served' := by
  have hkept := h.concat (.publish succeeds)
  unfold PerUserDiscord.publish
  split
  · rename_i hcall
    exact absurd hcall h.under
  · rename_i user rest hcall
    have hw : waiting alert.call = user :: rest := by rw [hcall, waiting]
    have hmade : Made verify item region (steps ++ [.publish succeeds]) steps (.discordWebhook user rest) succeeds :=
      made_concat (halert ▸ hcall)
    split
    · rename_i url hread
      obtain ⟨rfl, hurl⟩ : succeeds = true ∧
          (after verify item region steps).site.accounts.discordWebhook user = some url := by
        cases succeeds with
        | true => exact ⟨rfl, hread⟩
        | false => cases hread
      refine ⟨served, hkept.looked, nofun, ?_, hkept.posted, hkept.served, fun id url' rest' hc => ?_⟩
      · rw [← hkept.all, hw]
        rfl
      · cases hc
        exact ⟨steps, rest, hmade, hurl⟩
    · rename_i hread
      refine ⟨served ++ [user], hkept.next hw (.inl rfl) ⟨steps, rest, succeeds, hmade, fun url => ?_⟩⟩
      refine iff_of_false (h.not_posted hw url) ?_
      rintro ⟨rfl, hurl⟩
      rw [if_pos rfl, hurl] at hread
      cases hread
  · rename_i user url rest hcall
    have hw : waiting alert.call = user :: rest := by rw [hcall, waiting]
    refine ⟨served ++ [user], hkept.next hw (.inr ⟨url, rfl⟩) ?_⟩
    obtain ⟨read, rest', hmade, hurl⟩ := hkept.read user url rest hcall
    refine ⟨read, rest', true, hmade, fun url' => ?_⟩
    rw [hurl, List.mem_append, or_iff_right (h.not_posted hw url'), List.mem_singleton]
    simp [eq_comm]
  · exact ⟨served, hkept⟩

end Underway

/-- How far an alert has come. -/
theorem progress (verify : Text → Text → Option Bool) (item : ItemId) (region : Region)
    (steps : List AlertingStep) :
    (after verify item region steps).alert = .start ∨
    ((after verify item region steps).alert = ⟨.done, []⟩ ∧
      ∃ before, Made verify item region steps before .watchers false) ∨
    ∃ before served, Underway verify item region steps before (after verify item region steps).alert served := by
  induction steps using List.reverseRecOn with
  | nil => exact .inl rfl
  | append_singleton steps t ih =>
      rw [after_concat]
      cases t with
      | site t =>
          rcases ih with hstart | ⟨hdone, before, hmade⟩ | ⟨before, served, h⟩
          · exact .inl hstart
          · exact .inr (.inl ⟨hdone, before, hmade.concat _⟩)
          · exact .inr (.inr ⟨before, served, h.concat _⟩)
      | publish succeeds =>
          rcases ih with hstart | ⟨hdone, before, hmade⟩ | ⟨before, served, h⟩
          · have hmade : Made verify item region (steps ++ [.publish succeeds]) steps .watchers succeeds :=
              made_concat (by rw [hstart]; rfl)
            simp only [step, hstart, PerUserDiscord.start, PerUserDiscord.publish]
            cases succeeds with
            | false => exact .inr (.inl ⟨rfl, steps, hmade⟩)
            | true =>
                refine .inr (.inr ⟨steps, [], hmade, notifyAll_ne_watchers _, ?_, .slnil, nofun, fun _ _ _ hc => ?_⟩)
                · exact waiting_notifyAll _
                · exact absurd hc (by simp only [if_true, PublishCall.notifyAll]; split <;> nofun)
          · refine .inr (.inl ⟨?_, before, hmade.concat _⟩)
            simp only [step, hdone, PerUserDiscord.publish]
          · exact .inr (.inr ⟨before, h.publish rfl succeeds⟩)

/-! ## What an alert comes to -/

end Alerting

end Gavel.Web
