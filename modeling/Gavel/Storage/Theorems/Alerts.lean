import Gavel.Lib.Run
import Gavel.Market.Theorems.Dates
import Gavel.Storage.Collect

/-!
# Alerts over a series of collections

Whatever snapshots come, in whatever order, and whichever calls fail, the alerts of one market are a
cooldown apart. An alert is raised on a sample of the snapshot at hand, which the store has too unless
another sample of the item was recorded for the same instant before.
-/

namespace Gavel.Storage

open Gavel.Cluster (Millis)
open Gavel.Market Gavel.Calls

variable {F : Floating} {rule : AlertRule} {t u w : Prices} {v : Visit} {region : Region}
  {now at' : Millis} {instants : List Millis} {s : PriceSample} {a : Alert}

/-- Two alerts of one market are a cooldown apart. -/
def CooldownApart (rule : AlertRule) (a b : Alert) : Prop :=
  a.item = b.item → a.region = b.region →
    a.observedAt + rule.cooldownMs ≤ b.observedAt ∨ b.observedAt + rule.cooldownMs ≤ a.observedAt

/-- The stored alerts are apart and justified, and something is recorded of the item at the instant. -/
structure Orderly (rule : AlertRule) (t : Prices) : Prop where
  apart : t.alerts.Pairwise (CooldownApart rule)
  justified : ∀ a ∈ t.alerts, a.Justified rule
  recorded : ∀ a ∈ t.alerts, t.samples.has (a.item, a.region, a.observedAt) = true

/-- The samples of the snapshot that a collection is answered with. -/
def Visit.samples (v : Visit) (t : Prices) : List PriceSample :=
  match v.commodities v.region (v.catalog.tracked v.skip) (t.lastObserved v.region) with
  | .ok (.fresh generatedAt listings) =>
      (summariseAll v.region (if generatedAt = 0 then v.now else generatedAt) listings).1
  | _ => []

/-- What a collection adds to the alerts. -/
structure Adds (v : Visit) (t u : Prices) : Prop where
  /-- The samples they are raised on are recorded, as far as nothing was before. -/
  raised : ∃ raised, u.alerts = t.alerts ++ raised ∧ ∀ a ∈ raised, ∃ s ∈ v.samples t, a.On s ∧
    ∃ row ∈ u.samples.rows, row.key = s.key ∧ (row = s ∨ row ∈ t.samples.rows)
  /-- A snapshot that is recorded already raises none. -/
  repeated : (∀ s ∈ v.samples t, t.samples.has s.key = true) → u.alerts = t.alerts

/-- The instants of a collection are those of a clock and of a date header. -/
def Visit.Dated (v : Visit) : Prop :=
  v.now < 2 ^ 63 ∧ ∀ region items since generatedAt listings,
    v.commodities region items since = .ok (.fresh generatedAt listings) → generatedAt < 2 ^ 63

/-! ## The store -/

theorem greatestStored_spec (h : ∀ at' ∈ instants, at' < 2 ^ 63) (hat : at' ∈ instants) :
    ∃ last, greatestStored instants = some last ∧ at' ≤ last := by
  have hstored : ∀ i ∈ instants, stored i = (i : Nat) := fun i hi => stored_eq (h i hi)
  have hne : instants.map stored ≠ [] := List.ne_nil_of_mem (List.mem_map_of_mem hat)
  obtain ⟨most, hmost⟩ := Option.isSome_iff_exists.mp (List.isSome_max?_of_ne_nil hne)
  obtain ⟨hmem, hle⟩ := List.max?_eq_some_iff.mp hmost
  obtain ⟨last, hlast, rfl⟩ := List.mem_map.mp hmem
  refine ⟨last, ?_, ?_⟩
  · have hback : ∀ n : Nat, n < 2 ^ 63 → ((n : Int) % 2 ^ 64).toNat = n := by
      intro n hn
      omega
    rw [greatestStored, hmost, Option.map_some, hstored last hlast, hback last (h last hlast)]
  · have hless := hle _ (List.mem_map_of_mem hat)
    rw [hstored at' hat, hstored last hlast] at hless
    exact Int.ofNat_le.mp hless

/-- The last alert of a market is as late as any of its. -/
theorem lastAlertAt_spec (h : ∀ b ∈ t.alerts, b.observedAt < 2 ^ 63) (ha : a ∈ t.alerts) :
    ∃ last, t.lastAlertAt a.item a.region = some last ∧ a.observedAt ≤ last := by
  apply greatestStored_spec
  · intro i hi
    obtain ⟨b, hb, rfl⟩ := List.mem_map.mp hi
    exact h b (List.mem_of_mem_filter hb)
  · refine List.mem_map_of_mem (List.mem_filter.mpr ⟨ha, ?_⟩)
    simp

/-- A market that is not cooling down has had no alert since a cooldown ago. -/
theorem apart_of_not_cooling (h : ∀ b ∈ t.alerts, b.observedAt < 2 ^ 63)
    (hcool : ¬ coolingDown rule a.observedAt (t.lastAlertAt a.item a.region) = true) {b : Alert}
    (hb : b ∈ t.alerts) : CooldownApart rule b a := by
  intro hitem hregion
  obtain ⟨last, hlast, hle⟩ := lastAlertAt_spec h hb
  rw [hitem, hregion] at hlast
  simp only [coolingDown, hlast, Option.any_some, decide_eq_true_eq, Nat.not_lt] at hcool
  rcases Nat.eq_zero_or_pos rule.cooldownMs with hzero | hpos
  · rw [hzero]
    exact Nat.le_total b.observedAt a.observedAt
  · refine .inl ((Nat.add_le_add_right hle _).trans ?_)
    exact (Nat.add_le_add_left hcool last).trans (Nat.le_of_eq (Nat.add_sub_of_le (by omega)))

/-! ## The samples of a snapshot -/

theorem listingsByItem_sorted (listings : List Listing) : Assoc.Sorted (listingsByItem listings) := by
  have hfold : ∀ groups, Assoc.Sorted groups → Assoc.Sorted (listings.foldl
      (fun groups l => Assoc.alter l.item (fun held => held.getD [] ++ [l]) groups) groups) := by
    induction listings with
    | nil => exact fun _ h => h
    | cons l listings ih => exact fun groups h => ih _ h.alter
  exact hfold [] .nil

theorem mem_summarised {listings : List Listing} (h : s ∈ (summariseAll region at' listings).1) :
    s.region = region ∧ s.observedAt = at' := by
  obtain ⟨group, -, h⟩ := List.mem_filterMap.mp h
  obtain ⟨stats, -, h⟩ := Option.bind_eq_some_iff.mp h
  obtain rfl := Option.some.inj h
  exact ⟨rfl, rfl⟩

theorem pairwise_summarised (region : Region) (at' : Millis) (listings : List Listing) :
    (summariseAll region at' listings).1.Pairwise fun s s' => s.key ≠ s'.key := by
  refine List.pairwise_filterMap.mpr ((listingsByItem_sorted listings).imp ?_)
  intro g g' hlt s hs s' hs' heq
  obtain ⟨stats, -, hs⟩ := Option.bind_eq_some_iff.mp hs
  obtain ⟨stats', -, hs'⟩ := Option.bind_eq_some_iff.mp hs'
  obtain rfl := Option.some.inj hs
  obtain rfl := Option.some.inj hs'
  have hitem := congrArg Prod.fst heq
  exact absurd hitem (Nat.ne_of_lt hlt)

/-! ## Raising alerts -/

/-- Alerts were raised on samples of a snapshot, and nothing else was changed. -/
structure Raising (rule : AlertRule) (samples : List PriceSample) (t u : Prices) : Prop where
  orderly : Orderly rule u
  dated : ∀ a ∈ u.alerts, a.observedAt < 2 ^ 63
  kept : u.samples = t.samples
  raised : ∃ raised, u.alerts = t.alerts ++ raised ∧ ∀ a ∈ raised, ∃ s ∈ samples, a.On s

theorem Raising.refl {samples : List PriceSample} (horderly : Orderly rule t)
    (hdated : ∀ a ∈ t.alerts, a.observedAt < 2 ^ 63) : Raising rule samples t t :=
  ⟨horderly, hdated, rfl, [], (List.append_nil _).symm, fun _ h => absurd h List.not_mem_nil⟩

theorem Raising.recordAlert {samples : List PriceSample} (h : Raising rule samples t u) (hs : s ∈ samples)
    (hlt : s.observedAt < 2 ^ 63) (hrecorded : t.samples.has s.key = true)
    (hcool : ¬ coolingDown rule s.observedAt (u.lastAlertAt s.item s.region) = true) (hon : a.On s)
    (hjustified : a.Justified rule) : Raising rule samples t (u.recordAlert a) := by
  rw [← hon.observedAt] at hlt hcool
  rw [← hon.item, ← hon.region] at hcool
  obtain ⟨raised, halerts, hraised⟩ := h.raised
  have hkey : u.samples.has (a.item, a.region, a.observedAt) = true := by
    rw [hon.item, hon.region, hon.observedAt, h.kept]
    exact hrecorded
  refine ⟨⟨?_, ?_, ?_⟩, ?_, h.kept, raised ++ [a], ?_, ?_⟩
  · refine List.pairwise_append.mpr ⟨h.orderly.apart, List.pairwise_singleton _ _, ?_⟩
    intro b hb c hc
    rw [List.mem_singleton.mp hc]
    exact apart_of_not_cooling h.dated hcool hb
  · exact List.forall_mem_append.mpr ⟨h.orderly.justified, List.forall_mem_singleton.mpr hjustified⟩
  · exact List.forall_mem_append.mpr ⟨h.orderly.recorded, List.forall_mem_singleton.mpr hkey⟩
  · exact List.forall_mem_append.mpr ⟨h.dated, List.forall_mem_singleton.mpr hlt⟩
  · rw [Prices.recordAlert, halerts, List.append_assoc]
  · exact List.forall_mem_append.mpr ⟨hraised, List.forall_mem_singleton.mpr ⟨s, hs, hon⟩⟩

section Programs

variable {samples l : List PriceSample} {index : Table CatalogItem}

theorem raiseAlert_spec (hs : s ∈ samples) (hlt : s.observedAt < 2 ^ 63)
    (hrecorded : t.samples.has s.key = true) :
    Holds (Raising rule samples t) (raiseAlert F rule index s.observedAt s)
      (fun _ => Raising rule samples t) (Raising rule samples t) := by
  unfold raiseAlert
  cases index[s.item]? with
  | none => exact Holds.pure fun _ h => h
  | some entry =>
      have hlast : Holds (Raising rule samples t)
          (Program.ask Failure.repository fun u : Prices => u.lastAlertAt s.item s.region)
          (fun last u => Raising rule samples t u ∧ last = u.lastAlertAt s.item s.region)
          (Raising rule samples t) := Holds.ask (fun _ h => ⟨h, rfl⟩) fun _ h => h
      refine Holds.bind hlast fun last => ?_
      by_cases hcool : coolingDown rule s.observedAt last = true
      · rw [if_pos hcool]
        exact Holds.pure fun _ h => h.1
      · rw [if_neg hcool]
        have hhistory : Holds
            (fun u => Raising rule samples t u ∧ last = u.lastAlertAt s.item s.region)
            (Program.ask Failure.repository fun u : Prices =>
              u.history s.item s.region (s.observedAt - rule.lookbackMs))
            (fun _ u => Raising rule samples t u ∧
              ¬ coolingDown rule s.observedAt (u.lastAlertAt s.item s.region) = true)
            (Raising rule samples t) := Holds.ask (fun _ h => ⟨h.1, h.2 ▸ hcool⟩) fun _ h => h.1
        refine Holds.bind hhistory fun history => ?_
        dsimp only
        cases halert : Alert.evaluate F rule s (history.filter (·.observedAt ≠ s.observedAt))
            entry.floorCopper with
        | none => exact Holds.pure fun _ h => h.1
        | some alert =>
            obtain ⟨hon, hjustified⟩ := Alert.evaluate_spec halert
            have hrecord := fun (u : Prices) (h : Raising rule samples t u ∧ _) =>
              h.1.recordAlert hs hlt hrecorded h.2 hon hjustified
            have htell := Holds.tell (e := Failure.repository) (Q := fun _ => Raising rule samples t)
              hrecord (fun _ h => h.1) hrecord
            exact Holds.bind htell fun _ => Holds.pure fun _ h => h

theorem raiseAlerts_spec (hnow : now < 2 ^ 63) (h : ∀ s ∈ l, s ∈ samples ∧ s.observedAt = now ∧
    t.samples.has s.key = true) :
    Holds (Raising rule samples t) (raiseAlerts F rule index now l)
      (fun _ => Raising rule samples t) (Raising rule samples t) := by
  induction l with
  | nil => exact Holds.pure fun _ h => h
  | cons s l ih =>
      obtain ⟨⟨hs, hat, hrecorded⟩, hl⟩ := List.forall_mem_cons.mp h
      subst hat
      refine Holds.bind (raiseAlert_spec hs hnow hrecorded) fun raised => ?_
      exact Holds.bind (ih hl) fun more => Holds.pure fun _ h => h

end Programs

/-! ## A collection -/

/-- The store after a collection: orderly still, and with no alerts but those that were to be raised. -/
structure Collected (rule : AlertRule) (v : Visit) (t u : Prices) : Prop where
  orderly : Orderly rule u
  dated : ∀ a ∈ u.alerts, a.observedAt < 2 ^ 63
  adds : Adds v t u

theorem Collected.of_alerts_eq (horderly : Orderly rule t) (hdated : ∀ a ∈ t.alerts, a.observedAt < 2 ^ 63)
    (halerts : u.alerts = t.alerts) (hkept : ∀ k, t.samples.has k = true → u.samples.has k = true) :
    Collected rule v t u where
  orderly :=
    { apart := halerts.symm ▸ horderly.apart
      justified := halerts.symm ▸ horderly.justified
      recorded := by
        rw [halerts]
        exact fun a ha => hkept _ (horderly.recorded a ha) }
  dated := halerts.symm ▸ hdated
  adds := ⟨⟨[], by rw [halerts, List.append_nil], fun _ h => absurd h List.not_mem_nil⟩, fun _ => halerts⟩

theorem Raising.collected {samples : List PriceSample} (hu : Raising rule samples u w)
    (hsamples : samples = v.samples t) (hkeys : samples.Pairwise fun s s' => s.key ≠ s'.key)
    (hrecorded : u.samples = samples.foldl Keyed.add t.samples) (halerts : u.alerts = t.alerts)
    (hnew : u.samples = t.samples → samples = []) : Collected rule v t w := by
  obtain ⟨raised, hraised, hon⟩ := hu.raised
  refine ⟨hu.orderly, hu.dated, ⟨raised, by rw [hraised, halerts], ?_⟩, ?_⟩
  · intro a ha
    obtain ⟨s, hs, hon⟩ := hon a ha
    rw [← hsamples, hu.kept, hrecorded]
    exact ⟨s, hs, hon, Keyed.exists_mem_foldl_add hkeys hs⟩
  · intro hhas
    rw [← hsamples] at hhas
    have hnone := hnew (hrecorded.trans (Keyed.foldl_add_of_has hhas))
    have hempty : raised = [] := by
      apply List.eq_nil_iff_forall_not_mem.mpr
      intro a ha
      obtain ⟨s, hs, -⟩ := hon a ha
      rw [hnone] at hs
      exact absurd hs List.not_mem_nil
    rw [hraised, hempty, List.append_nil, halerts]

theorem record_spec {samples : List PriceSample} {ladders : List (ItemId × Ladder)}
    (horderly : Orderly rule t) (hdated : ∀ a ∈ t.alerts, a.observedAt < 2 ^ 63) (hnow : now < 2 ^ 63)
    (hsamples : samples = v.samples t) (hat : ∀ s ∈ samples, s.observedAt = now)
    (hkeys : samples.Pairwise fun s s' => s.key ≠ s'.key) :
    Holds (fun u => u = t) (record F rule v now samples ladders) (fun _ => Collected rule v t)
      (Collected rule v t) := by
  -- The store with the snapshot recorded, whether the caller learns of it or not.
  obtain ⟨w, hw⟩ : ∃ w, w = (t.recordSnapshot samples v.region now ladders).1 := ⟨_, rfl⟩
  have hrecorded : w.samples = samples.foldl Keyed.add t.samples := by
    rw [hw]
    rfl
  have halerts : w.alerts = t.alerts := by
    rw [hw]
    rfl
  have hkept : ∀ k, t.samples.has k = true → w.samples.has k = true := by
    intro k hk
    rw [hrecorded]
    exact Keyed.has_foldl_add hk
  have hlost : Collected rule v t w := .of_alerts_eq horderly hdated halerts hkept
  have hcall : Holds (fun u => u = t)
      (Program.call Failure.repository fun u : Prices => u.recordSnapshot samples v.region now ladders)
      (fun r u => u = w ∧ r.1 = w.samples.rows.length - t.samples.rows.length) (Collected rule v t) := by
    refine Holds.call ?_ ?_ ?_
    · rintro u rfl
      exact ⟨hw.symm, by rw [hw]; rfl⟩
    · rintro u rfl
      exact .of_alerts_eq horderly hdated rfl fun _ h => h
    · rintro u rfl
      exact hw ▸ hlost
  refine Holds.bind hcall ?_
  rintro ⟨written, ladderRows⟩
  refine Holds.assuming fun hwritten => ?_
  dsimp only at hwritten ⊢
  by_cases hdone : written = 0 ∧ samples ≠ []
  · rw [if_pos hdone]
    refine Holds.pure ?_
    rintro u rfl
    exact hlost
  · rw [if_neg hdone]
    have hnew : w.samples = t.samples → samples = [] := by
      intro hsame
      by_contra hsome
      rw [hsame, Nat.sub_self] at hwritten
      exact hdone ⟨hwritten, hsome⟩
    have hall : ∀ s ∈ samples, s ∈ samples ∧ s.observedAt = now ∧ w.samples.has s.key = true := by
      intro s hs
      obtain ⟨row, hrow, hkey, -⟩ := @Keyed.exists_mem_foldl_add _ _ _ t.samples _ _ _ hkeys hs
      rw [hrecorded]
      exact ⟨hs, hat s hs, Keyed.has_iff.mpr ⟨row, hrow, hkey⟩⟩
    have hraise : Holds (Raising rule samples w) (raiseAlerts F rule v.catalog.index now samples)
        (fun _ => Raising rule samples w) (Raising rule samples w) := raiseAlerts_spec hnow hall
    have hstart : ∀ u, u = w → Raising rule samples w u := by
      rintro u rfl
      exact .refl hlost.orderly hlost.dated
    have hend : ∀ u, Raising rule samples w u → Collected rule v t u := fun u hu =>
      hu.collected hsamples hkeys hrecorded halerts hnew
    refine Holds.bind (hraise.weaken hstart (fun _ => hend) hend) fun alerts => ?_
    exact Holds.pure fun _ h => h

theorem collect_spec (horderly : Orderly rule t) (hdated : ∀ a ∈ t.alerts, a.observedAt < 2 ^ 63)
    (hv : v.Dated) :
    Holds (fun u => u = t) (collect F rule v) (fun _ => Collected rule v t) (Collected rule v t) := by
  have hsame : ∀ u, u = t → Collected rule v t u := by
    rintro u rfl
    exact .of_alerts_eq horderly hdated rfl fun _ h => h
  have hsince : Holds (fun u => u = t)
      (Program.ask Failure.repository fun u : Prices => u.lastObserved v.region)
      (fun since u => u = t ∧ since = t.lastObserved v.region) (Collected rule v t) := by
    refine Holds.ask ?_ hsame
    rintro u rfl
    exact ⟨rfl, rfl⟩
  refine Holds.bind hsince fun since => Holds.assuming fun heq => ?_
  subst heq
  cases hanswer : v.commodities v.region (v.catalog.tracked v.skip) (t.lastObserved v.region) with
  | error message => exact Holds.fail hsame
  | ok snapshot =>
      cases snapshot with
      | notModified => exact Holds.pure hsame
      | fresh generatedAt listings =>
          have hnow : (if generatedAt = 0 then v.now else generatedAt) < 2 ^ 63 := by
            split
            · exact hv.1
            · exact hv.2 _ _ _ _ _ hanswer
          have hsamples : (summariseAll v.region (if generatedAt = 0 then v.now else generatedAt)
              listings).1 = v.samples t := by
            simp only [Visit.samples, hanswer]
          exact record_spec horderly hdated hnow hsamples (fun s hs => (mem_summarised hs).2)
            (pairwise_summarised _ _ _)

theorem visit_collected (F : Floating) (horderly : Orderly rule t)
    (hdated : ∀ a ∈ t.alerts, a.observedAt < 2 ^ 63) (hv : v.Dated) :
    Collected rule v t (visit F rule t v) :=
  (collect_spec horderly hdated hv).state_of ⟨t, v.fates⟩ rfl

/-! ## A series of collections -/

/-- In every series of collections on a store without alerts, whatever is recorded in it, the alerts are
orderly throughout and every collection adds those of its own snapshot, and none if that is recorded. -/
theorem alerts_cool (F : Floating) (rule : AlertRule)
    (samples : Keyed PriceSample (ItemId × Region × Millis) PriceSample.key)
    (ladders : Keyed PriceLadder (ItemId × Region × Millis) PriceLadder.key) (visits : List Visit)
    (h : ∀ v ∈ visits, v.Dated) :
    (∀ t ∈ Run.visited (visit F rule) ⟨samples, ladders, []⟩ visits, Orderly rule t) ∧
      Run.AllSteps (visit F rule) (fun t v => Adds v t (visit F rule t v)) ⟨samples, ladders, []⟩ visits := by
  let Kept (t : Prices) : Prop := Orderly rule t ∧ ∀ a ∈ t.alerts, a.observedAt < 2 ^ 63
  have hstart : Kept ⟨samples, ladders, []⟩ :=
    ⟨⟨.nil, fun _ ha => absurd ha List.not_mem_nil, fun _ ha => absurd ha List.not_mem_nil⟩,
      fun _ ha => absurd ha List.not_mem_nil⟩
  have hdated : Run.AllSteps (visit F rule) (fun _ v => v.Dated) ⟨samples, ladders, []⟩ visits :=
    Run.allSteps_of_forall h
  have hstep : ∀ t v, Kept t → v.Dated → Kept (visit F rule t v) := by
    rintro t v ⟨horderly, hd⟩ hv
    have hcollected := visit_collected F horderly hd hv
    exact ⟨hcollected.orderly, hcollected.dated⟩
  constructor
  · intro t ht
    exact (Run.invariant hstep hstart hdated t ht).1
  · refine Run.allSteps_of_invariant hstep ?_ hstart hdated
    rintro t v ⟨horderly, hd⟩ hv
    exact (visit_collected F horderly hd hv).adds

section Examples

/-- A flask with a floor of 600 copper, and how many of its two ranks are tracked. -/
def flaskRanks (ranks : Nat) : Catalog :=
  { id := "midnight".toList, expansion := "Midnight".toList, status := .active, catalogVersion := 1
    patches := [], raidTiers := []
    items := [⟨"flask".toList, .consumable, [⟨1, 7⟩, ⟨2, 8⟩].take ranks, none, some 600⟩]
    itemLevels := [], tracks := [], modifiers := [], notes := [] }

/-- A collection that is answered with one snapshot. -/
def answered (ranks : Nat) (at' : Millis) (listings : List Listing) (fates : List Fate) : Visit :=
  ⟨flaskRanks ranks, [], .eu, at', fun _ _ _ => .ok (.fresh at' listings), fates⟩

/-- The floors decide, and no quantile is asked for. -/
def level : Floating := ⟨fun prices _ => prices.headD 0, fun _ _ => none⟩

theorem answered_dated {ranks : Nat} {listings : List Listing} {fates : List Fate} (h : at' < 2 ^ 63) :
    (answered ranks at' listings fates).Dated := by
  refine ⟨h, ?_⟩
  rintro _ _ _ _ _ ⟨⟩
  exact h

/-- An alert that is stored while its call fails, the same snapshot again, the next within the cooldown and
one after it. -/
def cheapHours : List Visit :=
  [answered 1 1000000 [⟨7, 500, 50⟩] [.done, .done, .done, .done, .lost],
    answered 1 1000000 [⟨7, 500, 50⟩] [], answered 2 4600000 [⟨7, 400, 50⟩, ⟨8, 900, 50⟩] [],
    answered 2 22600000 [⟨7, 300, 50⟩] []]

theorem alerts_cool_flask :
    (Run.final (visit level .default) .empty cheapHours).alerts.map Alert.current = [500, 300] ∧
      (∀ t ∈ Run.visited (visit level .default) .empty cheapHours, Orderly .default t) ∧
      Run.AllSteps (visit level .default) (fun t v => Adds v t (visit level .default t v)) .empty
        cheapHours := by
  refine ⟨by decide, alerts_cool level .default .empty .empty cheapHours ?_⟩
  intro v hv
  simp only [cheapHours, List.mem_cons, List.not_mem_nil, or_false] at hv
  rcases hv with rfl | rfl | rfl | rfl <;> exact answered_dated (by decide)

/-- A second copy of a snapshot with another price, and with a rank that was not tracked before: the alert
is raised on the copy, and recorded is the price of the first. -/
theorem copy_not_recorded :
    ¬ ∀ visits : List Visit, (∀ v ∈ visits, v.Dated) →
      ∀ t ∈ Run.visited (visit level .default) .empty visits,
        ∀ a ∈ t.alerts, ∃ s ∈ t.samples.rows, a.On s := by
  intro h
  let visits := [answered 1 1000000 [⟨7, 1000, 50⟩] [],
    answered 2 1000000 [⟨7, 500, 50⟩, ⟨8, 1000, 50⟩] []]
  have hdated : ∀ v ∈ visits, v.Dated := by
    intro v hv
    simp only [visits, List.mem_cons, List.not_mem_nil, or_false] at hv
    rcases hv with rfl | rfl <;> exact answered_dated (by decide)
  have halert : ∀ a ∈ (Run.final (visit level .default) .empty visits).alerts, a.current = 500 := by
    decide
  have hrows : ∀ s ∈ (Run.final (visit level .default) .empty visits).samples.rows,
      s.p05UnitPrice = 1000 := by
    decide
  obtain ⟨a, ha⟩ := List.exists_mem_of_ne_nil
    (Run.final (visit level .default) .empty visits).alerts (by decide)
  obtain ⟨s, hs, hon⟩ := h visits hdated _ (Run.final_mem_visited _ _) a ha
  have hprice := hon.current
  rw [halert a ha, hrows s hs] at hprice
  exact absurd hprice (by decide)

end Examples

end Gavel.Storage
