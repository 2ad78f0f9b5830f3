import Gavel.Server.CollectRealms
import Gavel.Storage.Lemmas.Snapshots

/-!
# Every realm as if it were collected alone

What is stored of a realm and the schedule that is stored for it belong to the calls of that realm: they
read and write nothing else of a realm's. So the order in which the calls of different realms come does not
matter, and a cycle is the sum of its realms.
-/

namespace Gavel.Storage.RealmPrices

open Gavel.Cluster (Millis)
open Gavel.Market

/-! ## What is stored of one realm -/

/-- What is stored of one realm. -/
def on (t : RealmPrices) (k : Region × RealmId) : RealmPrices where
  snapshots := t.snapshots.keep fun n => (n.region, n.realm) = k
  samples := t.samples.keep fun s => (s.region, s.realm) = k
  ladders := t.ladders.keep fun l => (l.seen.region, l.seen.realm) = k

variable {t : RealmPrices} {region : Region} {realm : RealmId} {k : Region × RealmId}

theorem newest_on {s : RealmSample} (hs : (s.region, s.realm) = k) : (t.on k).newest s = t.newest s := by
  rw [Bool.eq_iff_iff, newest, newest, List.all_eq_true, List.all_eq_true]
  constructor
  · intro h p hp
    refine decide_eq_true fun hm => ?_
    have hpk : (p.region, p.realm) = k := by
      simp only [RealmSample.market, Prod.mk.injEq] at hm
      rw [← hs, hm.1, hm.2.1]
    exact of_decide_eq_true (h p (Keyed.mem_keep.mpr ⟨hp, decide_eq_true hpk⟩)) hm
  · intro h p hp
    exact h p (Keyed.mem_keep.mp hp).1

theorem stepsAt_on {s : RealmSample} (hs : (s.region, s.realm) = k) : (t.on k).stepsAt s = t.stepsAt s := by
  rw [stepsAt, stepsAt, on, Keyed.rows_keep, List.find?_filter]
  congr 2
  funext l
  rw [decide_eq_decide, decide_eq_true_eq, decide_eq_true_eq, and_iff_right_iff_imp]
  intro hl
  have hseen : l.seen = s.seen := congrArg Prod.fst hl
  rw [hseen, ← hs]
  rfl

theorem previousOf_on (t : RealmPrices) (region : Region) (realm : RealmId) :
    (t.on (region, realm)).previousOf region realm = t.previousOf region realm := by
  have hrows : (t.on (region, realm)).samples.rows.filter (fun s =>
      s.region = region ∧ s.realm = realm ∧ (t.on (region, realm)).newest s) =
      t.samples.rows.filter fun s => s.region = region ∧ s.realm = realm ∧ t.newest s := by
    rw [on, Keyed.rows_keep, List.filter_filter]
    refine List.filter_congr fun s _ => ?_
    rw [← Bool.decide_and, decide_eq_decide, Prod.mk.injEq]
    constructor
    · rintro ⟨⟨hr, hm, hn⟩, -⟩
      exact ⟨hr, hm, (newest_on (Prod.ext hr hm)).symm.trans hn⟩
    · rintro ⟨hr, hm, hn⟩
      exact ⟨⟨hr, hm, (newest_on (Prod.ext hr hm)).trans hn⟩, hr, hm⟩
  rw [previousOf, previousOf, hrows]
  refine List.map_congr_left fun s hs => ?_
  have hs := of_decide_eq_true (List.mem_filter.mp hs).2
  rw [stepsAt_on (Prod.ext hs.1 hs.2.1)]

theorem lastObserved_on (t : RealmPrices) (region : Region) (realm : RealmId) :
    (t.on (region, realm)).lastObserved region realm = t.lastObserved region realm := by
  simp only [lastObserved, on, Keyed.rows_keep, List.filter_filter, Prod.mk.injEq, Bool.and_self]

/-- A snapshot of a realm is recorded in what is stored of the realm, and nowhere else. -/
theorem recordSnapshot_on (t : RealmPrices) (listings : List GearListing) (region : Region) (realm : RealmId)
    (observedAt : Millis) (k : Region × RealmId) :
    let r := summariseRealm listings region realm observedAt
    (t.recordSnapshot r.1 region realm observedAt r.2).1.on k =
      if k = (region, realm) then ((t.on k).recordSnapshot r.1 region realm observedAt r.2).1 else t.on k := by
  intro r
  have hseen : ∀ s ∈ r.1, s.seen = ⟨region, realm, observedAt⟩ := fun s hs =>
    seen_of_mem (n := ⟨region, realm, observedAt⟩) hs
  have hrow {l : List Previous} : ∀ s ∈ r.1.filter (isNews r.2 (t.previousOf region realm)) ++
      burials ⟨region, realm, observedAt⟩ l, (s.region, s.realm) = (region, realm) := by
    intro s hs
    rcases List.mem_append.mp hs with hs | hs
    · have hs := hseen s (List.mem_of_mem_filter hs)
      exact congrArg (fun n : Seen => (n.region, n.realm)) hs
    · obtain ⟨p, -, -, rfl⟩ := mem_burials.mp hs
      rfl
  have hladder : ∀ l ∈ (r.1.filter (isNews r.2 (t.previousOf region realm))).flatMap
      (besides ⟨region, realm, observedAt⟩ r.2), l.seen = ⟨region, realm, observedAt⟩ := by
    intro l hl
    obtain ⟨s, -, hl⟩ := List.mem_flatMap.mp hl
    obtain ⟨w, -, rfl⟩ := Option.map_eq_some_iff.mp (Option.mem_toList.mp hl)
    rfl
  rw [recordSnapshot_eq hseen pairwise_samples]
  split
  · rename_i hk
    subst hk
    rw [recordSnapshot_eq hseen pairwise_samples, previousOf_on]
    refine RealmPrices.mk.injEq .. ▸ ⟨?_, ?_, ?_⟩
    · refine Keyed.keep_add fun n hn => ?_
      obtain rfl : n = ⟨region, realm, observedAt⟩ := hn
      exact decide_eq_true rfl
    · refine Keyed.keep_foldl_add fun s hs b hb => ?_
      have hb : b.seen = s.seen := congrArg Prod.fst hb
      refine decide_eq_true ((congrArg (fun n : Seen => (n.region, n.realm)) hb).trans (hrow s hs))
    · refine Keyed.keep_foldl_add fun l hl b hb => ?_
      have hb : b.seen = l.seen := congrArg Prod.fst hb
      rw [hb, hladder l hl]
      exact decide_eq_true rfl
  · rename_i hk
    refine RealmPrices.mk.injEq .. ▸ ⟨?_, ?_, ?_⟩
    · exact Keyed.keep_add_of_not (decide_eq_false fun h => hk h.symm)
    · refine Keyed.keep_foldl_add_of_not fun s hs => decide_eq_false fun h => ?_
      exact hk (h.symm.trans (hrow s hs))
    · refine Keyed.keep_foldl_add_of_not fun l hl => decide_eq_false fun h => ?_
      rw [hladder l hl] at h
      exact hk h.symm

end Gavel.Storage.RealmPrices

namespace Gavel.Server

open Gavel.Cluster (Millis)
open Gavel.Market
open Gavel.Storage (RealmDirectory RealmPrices)

/-- The key under which the schedule of a realm is stored. -/
def cadenceKey (k : Region × RealmId) : Text :=
  "market/realm-cadence/".toList ++ k.1.asStr ++ '/' :: Text.decimal k.2

theorem cadenceKey_inj {k k' : Region × RealmId} (h : cadenceKey k = cadenceKey k') : k = k' := by
  have hkeys : "market/realm-cadence/".toList ++ (k.1.asStr ++ '/' :: Text.decimal k.2) =
      "market/realm-cadence/".toList ++ (k'.1.asStr ++ '/' :: Text.decimal k'.2) := by
    rw [← List.append_assoc, ← List.append_assoc]
    exact h
  have hrest := List.append_cancel_left hkeys
  obtain ⟨hregion, hrealm⟩ :=
    List.append_inj hrest ((Region.length_asStr k.1).trans (Region.length_asStr k'.1).symm)
  have hrealm : k.2 = k'.2 := Text.decimal_inj (List.cons.inj hrealm).2
  exact Prod.ext (Region.asStr_inj hregion) hrealm

/-- What belongs to one realm: what is stored of it, and its schedule. -/
def GearStore.on (s : GearStore) (k : Region × RealmId) : RealmPrices × Option Text :=
  (s.prices.on k, s.kv.get? (cadenceKey k))

namespace RealmCycle

variable {c : RealmCycle} {d : Realm × RealmCadence} {s s' : GearStore} {a : RealmAnswer} {at' : RealmCall}
variable {k : Region × RealmId}

/-! ## One call -/

theorem saveRealmCadence_on (s : GearStore) (realm : Realm) (cadence : RealmCadence) (k : Region × RealmId) :
    (saveRealmCadence s realm cadence).on k =
      if k = realm.key then ((s.on k).1, some cadence.display) else s.on k := by
  simp only [GearStore.on, saveRealmCadence]
  split
  · rename_i hk
    subst hk
    exact Prod.ext rfl Dict.get?_put_self
  · rename_i hk
    have hne : cadenceKey k ≠ cadenceKey realm.key := fun h => hk (cadenceKey_inj h)
    exact Prod.ext rfl (Dict.get?_put_ne hne)

/-- What a call does to what belongs to each realm. -/
theorem collectOneRealm_on (c : RealmCycle) (d : Realm × RealmCadence) (at' : RealmCall) (a : RealmAnswer)
    (s : GearStore) (k : Region × RealmId) :
    (c.collectOneRealm d at' a s).1.on k =
      if k = realmOf d ∧ a.panics = false ∧ a.stored = true then
        match at' with
        | .recordSnapshot generatedAt listings =>
            let r := summariseRealm listings d.1.region d.1.id generatedAt
            (((s.on k).1.recordSnapshot r.1 d.1.region d.1.id generatedAt r.2).1, (s.on k).2)
        | .saveCadence outcome =>
            ((s.on k).1, some (outcome.next d.2 a.now c.realmMinIntervalMs c.realmMaxIntervalMs).display)
        | _ => s.on k
      else s.on k := by
  obtain ⟨realm, cadence⟩ := d
  cases hp : a.panics with
  | true => simp [collectOneRealm, hp]
  | false =>
      cases at' with
      | lastObserved => simp [collectOneRealm, hp]
      | ended outcome => simp [collectOneRealm, hp]
      | auctions since =>
          simp only [collectOneRealm, hp, Bool.false_eq_true, if_false, ite_self]
          split <;> rfl
      | recordSnapshot generatedAt listings =>
          cases hs : a.stored with
          | false => simp [collectOneRealm, hp, hs]
          | true =>
              have hon := RealmPrices.recordSnapshot_on s.prices listings realm.region realm.id generatedAt k
              simp only [collectOneRealm, hp, hs, Bool.false_eq_true, if_true, if_false, GearStore.on, hon,
                realmOf, Realm.key, and_true]
              split <;> rfl
      | saveCadence outcome =>
          cases hs : a.stored with
          | false => simp [collectOneRealm, hp, hs]
          | true =>
              simp only [collectOneRealm, hp, hs, Bool.false_eq_true, if_true, if_false, saveRealmCadence_on, realmOf,
                and_true]

theorem collectOneRealm_next (h : s.on (realmOf d) = s'.on (realmOf d)) :
    (c.collectOneRealm d at' a s).2 = (c.collectOneRealm d at' a s').2 := by
  obtain ⟨realm, cadence⟩ := d
  cases hp : a.panics with
  | true => simp [collectOneRealm, hp]
  | false =>
      cases at' with
      | lastObserved =>
          have hprices : s.prices.on (realm.region, realm.id) = s'.prices.on (realm.region, realm.id) :=
            congrArg Prod.fst h
          have hlast : s.prices.lastObserved realm.region realm.id = s'.prices.lastObserved realm.region realm.id := by
            rw [← RealmPrices.lastObserved_on, hprices, RealmPrices.lastObserved_on]
          simp [collectOneRealm, hp, hlast]
      | auctions since =>
          simp only [collectOneRealm, hp, Bool.false_eq_true, if_false]
          split <;> rfl
      | recordSnapshot generatedAt listings =>
          simp only [collectOneRealm, hp, Bool.false_eq_true, if_false]
          split <;> rfl
      | saveCadence outcome => simp [collectOneRealm, hp]
      | ended outcome => simp [collectOneRealm, hp]

/-- Every realm's calls have a part of the store to themselves. -/
theorem owned (c : RealmCycle) : c.tasks.Owned realmOf fun k s s' => s.on k = s'.on k where
  refl _ _ := rfl
  trans _ _ _ _ h h' := h.trans h'
  own d at' a s s' h := by
    refine ⟨?_, collectOneRealm_next h⟩
    simp only [tasks, collectOneRealm_on, h]
  other d at' a s k hk := by
    simp only [tasks, collectOneRealm_on, hk, false_and, if_false]

/-! ## The realms of a cycle -/

theorem due_nodup (c : RealmCycle) (s : GearStore) : ((c.due s).map realmOf).Nodup := by
  unfold due
  split
  · refine List.Nodup.sublist (List.filter_sublist.map realmOf) ?_
    rw [List.map_map]
    refine List.Nodup.sublist (List.filter_sublist.map Realm.key) ?_
    cases c.directory with
    | none => exact List.nodup_nil
    | some t =>
        have hperm := (List.perm_insertionSort (fun a b : Realm =>
          [a.region.asStr.map Char.toNat, a.name.map Char.toNat] ≤
            [b.region.asStr.map Char.toNat, b.name.map Char.toNat]) t.rows).map Realm.key
        exact hperm.nodup_iff.mpr (List.pairwise_map.mpr t.unique)
  · exact List.nodup_nil

/-! ## The directory -/

/-- How a write switches a realm, if it does. -/
def switchOf (k : Region × RealmId) : RealmDirectory.Write → Option Bool
  | .discovered _ => none
  | .switched region realm enabled => if (region, realm) = k then some enabled else none

/-- A realm that is known keeps its switch through a discovery, and takes it from an operator. -/
theorem write_enabled {t : RealmDirectory} {r : Realm} (hr : r ∈ t.rows) (w : RealmDirectory.Write) :
    ∃ r' ∈ (t.write w).rows, r'.key = r.key ∧ r'.enabled = (switchOf r.key w).getD r.enabled := by
  cases w with
  | discovered found =>
      simp only [RealmDirectory.write, RealmDirectory.recordRealm]
      split
      · refine ⟨_, List.mem_map_of_mem hr, ?_⟩
        split <;> exact ⟨rfl, rfl⟩
      · exact ⟨r, Keyed.mem_add_of_mem hr, rfl, rfl⟩
  | switched region realm enabled =>
      refine ⟨_, List.mem_map_of_mem hr, ?_⟩
      by_cases hk : r.key = (region, realm)
      · rw [if_pos hk, switchOf, if_pos hk.symm]
        exact ⟨rfl, rfl⟩
      · rw [if_neg hk, switchOf, if_neg fun heq => hk heq.symm]
        exact ⟨rfl, rfl⟩

/-- Whatever is discovered, a realm stays as an operator switched it last. -/
theorem enabled_after {t : RealmDirectory} {r : Realm} (hr : r ∈ t.rows) (writes : List RealmDirectory.Write) :
    ∃ r' ∈ (Run.final RealmDirectory.write t writes).rows, r'.key = r.key ∧
      r'.enabled = (writes.filterMap (switchOf r.key)).getLast?.getD r.enabled := by
  induction writes generalizing t r with
  | nil => exact ⟨r, hr, rfl, rfl⟩
  | cons w writes ih =>
      obtain ⟨next, hnext, hkey, henabled⟩ := write_enabled hr w
      obtain ⟨r', hr', hkey', henabled'⟩ := ih hnext
      refine ⟨r', hr', hkey'.trans hkey, ?_⟩
      rw [henabled', hkey, henabled, List.filterMap_cons]
      cases switchOf r.key w with
      | none => rfl
      | some enabled => rw [Option.getD_some, List.getLast?_cons, Option.getD_some]

/-- A realm that an operator switched off is not collected, however often it was discovered since. -/
theorem not_due_of_switched_off (c : RealmCycle) (s : GearStore) {t : RealmDirectory} {r : Realm}
    (hr : r ∈ t.rows) (writes : List RealmDirectory.Write)
    (hread : c.directory = some (Run.final RealmDirectory.write t writes))
    (hoff : (writes.filterMap (switchOf r.key)).getLast? = some false) :
    ∀ d ∈ c.due s, realmOf d ≠ r.key := by
  intro d hd hkey
  obtain ⟨r', hr', hkey', henabled⟩ := enabled_after hr writes
  simp only [due, hread] at hd
  split at hd
  · obtain ⟨listed, hlisted, rfl⟩ := List.mem_map.mp (List.mem_of_mem_filter hd)
    obtain ⟨hmem, hon⟩ := List.mem_filter.mp hlisted
    have hrow : listed ∈ (Run.final RealmDirectory.write t writes).rows :=
      (List.perm_insertionSort _ _).mem_iff.mp hmem
    have hsame : listed = r' := Keyed.eq_of_key hrow hr' (hkey.trans hkey'.symm)
    rw [hsame, henabled, hoff] at hon
    cases hon
  · cases hd

/-! ## What the calls of a realm come to -/

/-- What the provider has for a realm: it is asked for what is newer than what was seen last, if that could
be read. -/
def fetched (c : RealmCycle) (d : Realm × RealmCadence) (prices : RealmPrices) (last asked : RealmAnswer) :
    Option RealmSnapshot :=
  asked.auctions d.1.region d.1.id c.wanted
    (if last.stored then prices.lastObserved d.1.region d.1.id else none)

/-- What is stored of a realm once a snapshot of it is recorded. -/
def withSnapshot (d : Realm × RealmCadence) (generatedAt : Millis) (listings : List GearListing)
    (prices : RealmPrices) : RealmPrices :=
  let r := summariseRealm listings d.1.region d.1.id generatedAt
  (prices.recordSnapshot r.1 d.1.region d.1.id generatedAt r.2).1

/-- Where the answers to its calls have brought the collection of a realm before its last call: what is
stored of the realm, and what the next call is. -/
inductive Reached (c : RealmCycle) (d : Realm × RealmCadence) (prices : RealmPrices) :
    List RealmAnswer → RealmPrices → RealmCall → Prop where
  | first : Reached c d prices [] prices .lastObserved
  | dated {last : RealmAnswer} (hl : last.panics = false) :
      Reached c d prices [last] prices
        (.auctions (if last.stored then prices.lastObserved d.1.region d.1.id else none))
  | unchanged {last asked : RealmAnswer} (hl : last.panics = false) (ha : asked.panics = false)
      (hf : c.fetched d prices last asked = some .notModified) :
      Reached c d prices [last, asked] prices (.saveCadence .unchanged)
  | refused {last asked : RealmAnswer} (hl : last.panics = false) (ha : asked.panics = false)
      (hf : c.fetched d prices last asked = none) :
      Reached c d prices [last, asked] prices (.saveCadence .failed)
  | fresh {last asked : RealmAnswer} {generatedAt : Millis} {listings : List GearListing}
      (hl : last.panics = false) (ha : asked.panics = false)
      (hf : c.fetched d prices last asked = some (.fresh generatedAt listings)) :
      Reached c d prices [last, asked] prices (.recordSnapshot generatedAt listings)
  | lost {last asked kept : RealmAnswer} {generatedAt : Millis} {listings : List GearListing}
      (hl : last.panics = false) (ha : asked.panics = false) (hk : kept.panics = false)
      (hf : c.fetched d prices last asked = some (.fresh generatedAt listings)) (hs : kept.stored = false) :
      Reached c d prices [last, asked, kept] prices (.saveCadence .failed)
  | collected {last asked kept : RealmAnswer} {generatedAt : Millis} {listings : List GearListing}
      (hl : last.panics = false) (ha : asked.panics = false) (hk : kept.panics = false)
      (hf : c.fetched d prices last asked = some (.fresh generatedAt listings)) (hs : kept.stored = true) :
      Reached c d prices [last, asked, kept] (withSnapshot d generatedAt listings prices)
        (.saveCadence .collected)

/-- What the answers to its calls have made of a realm and what its collection says, once that has ended. -/
inductive Reported (c : RealmCycle) (d : Realm × RealmCadence) (before : RealmPrices × Option Text) :
    List RealmAnswer → RealmPrices × Option Text → Option PollOutcome → Prop where
  | saved {answers : List RealmAnswer} {prices : RealmPrices} {outcome : PollOutcome} {saved : RealmAnswer}
      (h : Reached c d before.1 answers prices (.saveCadence outcome)) (hp : saved.panics = false) :
      Reported c d before (answers ++ [saved])
        (prices,
          if saved.stored then
            some (outcome.next d.2 saved.now c.realmMinIntervalMs c.realmMaxIntervalMs).display
          else before.2)
        (some outcome)
  | panicked {answers : List RealmAnswer} {prices : RealmPrices} {at' : RealmCall} {last : RealmAnswer}
      (h : Reached c d before.1 answers prices at') (hp : last.panics = true) :
      Reported c d before (answers ++ [last]) (prices, before.2) none

/-- The answers with which a snapshot of a realm is stored. -/
def Brought (c : RealmCycle) (d : Realm × RealmCadence) (prices : RealmPrices) (answers : List RealmAnswer)
    (generatedAt : Millis) (listings : List GearListing) : Prop :=
  ∃ last asked kept saved, answers = [last, asked, kept, saved] ∧ (∀ a ∈ answers, a.panics = false) ∧
    c.fetched d prices last asked = some (.fresh generatedAt listings) ∧ kept.stored = true

variable {before after : RealmPrices × Option Text} {given : List RealmAnswer} {outcome : Option PollOutcome}

/-- A collection says that it brought a snapshot exactly if its answers bring one, and then that is stored. -/
theorem Reported.collected_iff (h : Reported c d before given after outcome) :
    outcome = some .collected ↔ ∃ generatedAt listings, Brought c d before.1 given generatedAt listings ∧
      after.1 = withSnapshot d generatedAt listings before.1 := by
  constructor
  · rintro rfl
    cases h with
    | saved h hp =>
        cases h with
        | collected hl ha hk hf hs =>
            refine ⟨_, _, ⟨_, _, _, _, rfl, ?_, hf, hs⟩, rfl⟩
            simp [hl, ha, hk, hp]
  · rintro ⟨generatedAt, listings, ⟨last, asked, kept, saved, hanswers, hpanics, hf, hs⟩, -⟩
    cases h with
    | saved h hp =>
        have hsplit : _ ++ [_] = [last, asked, kept] ++ [saved] := hanswers
        obtain ⟨rfl, -⟩ := List.append_inj' hsplit rfl
        cases h with
        | lost hl ha hk hf' hs' => exact absurd (hs.symm.trans hs') Bool.true_eq_false.mp
        | collected => rfl
    | panicked h hp =>
        have hfalse := hpanics _ (List.mem_append_right _ (List.mem_singleton_self _))
        rw [hp] at hfalse
        cases hfalse

/-- A collection that brings no snapshot leaves the prices as they are. -/
theorem Reported.kept (h : Reported c d before given after outcome) (ho : outcome ≠ none)
    (hne : outcome ≠ some .collected) : after.1 = before.1 := by
  cases h with
  | saved h hp =>
      cases h with
      | unchanged | refused | lost => rfl
      | collected => exact absurd rfl hne
  | panicked => exact absurd rfl ho

/-- Where the collection of a realm stands, by the answers to its calls. -/
def Told (c : RealmCycle) (d : Realm × RealmCadence) (before : RealmPrices × Option Text)
    (given : List RealmAnswer) (after : RealmPrices × Option Text) : RealmCall → Prop
  | .ended outcome => Reported c d before given after outcome
  | at' => after.2 = before.2 ∧ Reached c d before.1 given after.1 at'

/-- What follows the provider's answer. -/
theorem collectOneRealm_auctions {prices : RealmPrices} {last : RealmAnswer} (hp : a.panics = false) :
    (c.collectOneRealm d (.auctions (if last.stored then prices.lastObserved d.1.region d.1.id else none)) a s).2 =
      match c.fetched d prices last a with
      | some .notModified => .saveCadence .unchanged
      | some (.fresh generatedAt listings) => .recordSnapshot generatedAt listings
      | none => .saveCadence .failed := by
  simp only [collectOneRealm, hp, Bool.false_eq_true, if_false, fetched]
  generalize a.auctions _ _ _ _ = answer
  cases answer with
  | none => rfl
  | some found => cases found <;> rfl

/-- One more call brings a realm where its answer says. -/
theorem Reached.call {prices : RealmPrices} (h : Reached c d before.1 given prices at')
    (hon : s.on (realmOf d) = (prices, before.2)) (a : RealmAnswer) :
    Told c d before (given ++ [a]) ((c.collectOneRealm d at' a s).1.on (realmOf d))
      (c.collectOneRealm d at' a s).2 := by
  rw [collectOneRealm_on, hon]
  cases hp : a.panics with
  | true =>
      have hnext : (c.collectOneRealm d at' a s).2 = .ended none := by
        simp only [collectOneRealm, hp, if_true]
      rw [hnext]
      simp only [Bool.true_eq_false, false_and, and_false, if_false]
      exact .panicked h hp
  | false =>
      simp only [true_and]
      cases at' with
      | ended outcome => cases h
      | lastObserved =>
          cases h
          have hlast : s.prices.lastObserved d.1.region d.1.id = before.1.lastObserved d.1.region d.1.id := by
            rw [← RealmPrices.lastObserved_on]
            exact congrArg (fun r : RealmPrices × Option Text => r.1.lastObserved d.1.region d.1.id) hon
          have hnext : (c.collectOneRealm d .lastObserved a s).2 =
              .auctions (if a.stored then before.1.lastObserved d.1.region d.1.id else none) := by
            simp only [collectOneRealm, hp, Bool.false_eq_true, if_false, hlast]
          rw [hnext, ite_self]
          exact ⟨rfl, .dated hp⟩
      | auctions since =>
          cases h with
          | @dated last hl =>
              have hnext : (c.collectOneRealm d (.auctions (if last.stored then
                  before.1.lastObserved d.1.region d.1.id else none)) a s).2 = _ := collectOneRealm_auctions hp
              rw [ite_self]
              cases hf : c.fetched d before.1 last a with
              | none =>
                  rw [hf] at hnext
                  exact hnext ▸ ⟨rfl, .refused hl hp hf⟩
              | some snapshot =>
                  rw [hf] at hnext
                  cases snapshot with
                  | notModified => exact hnext ▸ ⟨rfl, .unchanged hl hp hf⟩
                  | fresh generatedAt listings => exact hnext ▸ ⟨rfl, .fresh hl hp hf⟩
      | recordSnapshot generatedAt listings =>
          cases h with
          | fresh hl ha hf =>
              have hnext : (c.collectOneRealm d (.recordSnapshot generatedAt listings) a s).2 =
                  .saveCadence (if a.stored then .collected else .failed) := by
                simp only [collectOneRealm, hp, Bool.false_eq_true, if_false]
                split <;> rfl
              rw [hnext]
              cases hs : a.stored with
              | false => exact ⟨rfl, .lost hl ha hp hf hs⟩
              | true => exact ⟨rfl, .collected hl ha hp hf hs⟩
      | saveCadence outcome =>
          have hnext : (c.collectOneRealm d (.saveCadence outcome) a s).2 = .ended (some outcome) := by
            simp only [collectOneRealm, hp, Bool.false_eq_true, if_false]
          have hsaved := Reported.saved h hp
          rw [hnext]
          cases hs : a.stored with
          | false =>
              rw [hs] at hsaved
              exact hsaved
          | true =>
              rw [hs] at hsaved
              exact hsaved

theorem Told.ended_or (h : Told c d before given after at') :
    (∃ outcome, at' = .ended outcome) ∨ (after.2 = before.2 ∧ Reached c d before.1 given after.1 at') := by
  cases at' with
  | ended outcome => exact .inl ⟨outcome, rfl⟩
  | lastObserved | auctions | recordSnapshot | saveCadence => exact .inr h

/-- A realm alone is brought where the answers to its calls say. -/
theorem told_of_worked (h : c.tasks.Worked d s given s' at') :
    Told c d (s.on (realmOf d)) given (s'.on (realmOf d)) at' := by
  induction h with
  | first => exact ⟨rfl, .first⟩
  | call h hg a ih =>
      rcases ih.ended_or with ⟨outcome, rfl⟩ | ⟨hold, hreached⟩
      · exact absurd rfl hg
      · exact hreached.call (Prod.ext rfl hold) a

/-! ## A cycle -/

/-- The answers a cycle gives to the calls of a realm. -/
def answers (c : RealmCycle) (s : GearStore) (k : Region × RealmId) (steps : List CycleStep) :
    List RealmAnswer :=
  Fanout.answers c.tasks realmOf c.fanOut (c.start s) k steps

/-- In whatever order the calls of a cycle come: no more realms are in flight than there are nodes, and no
fewer while one waits; every realm that is done is left as its own calls alone, with the same answers,
leave it; a realm that was not due is left as it was; and in the end the task of every realm that was due
has ended and was joined, once. -/
theorem realms_as_alone (c : RealmCycle) (s : GearStore) (steps : List CycleStep) :
    let cycle := c.after s steps
    (∀ x ∈ Run.visited c.step (c.start s) steps, x.Windowed c.fanOut) ∧
    (∀ p ∈ cycle.joined, c.tasks.ended p.2 = true ∧
      let alone := c.tasks.solo s p.1 (c.answers s (realmOf p.1) steps)
      alone.2 = p.2 ∧ alone.1.on (realmOf p.1) = cycle.store.on (realmOf p.1)) ∧
    (∀ k, k ∉ (c.due s).map realmOf → cycle.store.on k = s.on k) ∧
    (cycle.Finished → (cycle.joined.map Prod.fst).Perm (c.due s)) := by
  have h := Fanout.isolated (owned c) (due_nodup c s) s c.fanOut steps
  refine ⟨Fanout.windowed s (c.due s) steps, fun p hp => ⟨h.ended p hp, ?_⟩, fun k hk => (h.others k hk).symm,
    h.finished⟩
  obtain ⟨alone, hworked, hon⟩ := h.worked p (List.mem_append_right _ hp)
  have hsolo := hworked.solo
  rw [answers, start, hsolo]
  exact ⟨rfl, hon⟩

theorem collected_iff {s : Cycle} :
    collected s = true ↔ ∃ p ∈ s.joined, p.2 = .ended (some .collected) := by
  rw [collected, List.any_eq_true]
  refine exists_congr fun p => and_congr_right fun _ => ?_
  constructor
  · intro h
    split at h
    · rename_i hp
      exact hp
    · cases h
  · intro h
    rw [h]

/-- What a cycle says of a realm that is done is what the answers to the realm's calls have made of it. -/
theorem reported_of_joined (c : RealmCycle) (s : GearStore) (steps : List CycleStep)
    {p : (Realm × RealmCadence) × RealmCall} (hp : p ∈ (c.after s steps).joined) :
    ∃ outcome, p.2 = .ended outcome ∧ Reported c p.1 (s.on (realmOf p.1)) (c.answers s (realmOf p.1) steps)
      ((c.after s steps).store.on (realmOf p.1)) outcome := by
  have h := Fanout.isolated (owned c) (due_nodup c s) s c.fanOut steps
  obtain ⟨alone, hworked, hon⟩ := h.worked p (List.mem_append_right _ hp)
  have htold := told_of_worked hworked
  have hended := h.ended p hp
  rw [hon] at htold
  cases hat : p.2 with
  | ended outcome =>
      rw [hat] at htold
      exact ⟨outcome, rfl, htold⟩
  | lastObserved | auctions | recordSnapshot | saveCadence =>
      rw [hat] at hended
      cases hended

/-- A finished cycle says of every realm what the answers to its calls have made of it; it says that
something is new exactly if the answers bring some realm a snapshot; and if nothing is new no realm's
prices have changed, unless a task has panicked. -/
theorem cycle_reports (c : RealmCycle) (s : GearStore) (steps : List CycleStep)
    (hf : (c.after s steps).Finished) :
    let cycle := c.after s steps
    (∀ p ∈ cycle.joined, ∃ outcome, p.2 = .ended outcome ∧ Reported c p.1 (s.on (realmOf p.1))
      (c.answers s (realmOf p.1) steps) (cycle.store.on (realmOf p.1)) outcome) ∧
    (collected cycle = true ↔ ∃ d ∈ c.due s, ∃ generatedAt listings,
      Brought c d (s.on (realmOf d)).1 (c.answers s (realmOf d) steps) generatedAt listings ∧
      (cycle.store.on (realmOf d)).1 = withSnapshot d generatedAt listings (s.on (realmOf d)).1) ∧
    (collected cycle = false → (∀ p ∈ cycle.joined, p.2 ≠ .ended none) →
      ∀ k, (cycle.store.on k).1 = (s.on k).1) := by
  intro cycle
  have h := Fanout.isolated (owned c) (due_nodup c s) s c.fanOut steps
  have hall := h.finished hf
  refine ⟨fun p hp => reported_of_joined c s steps hp, ?_, fun hc hpanic k => ?_⟩
  · rw [collected_iff]
    constructor
    · rintro ⟨p, hp, hend⟩
      obtain ⟨outcome, hout, hreport⟩ := reported_of_joined c s steps hp
      refine ⟨p.1, hall.subset (List.mem_map_of_mem hp), hreport.collected_iff.mp ?_⟩
      rw [hout] at hend
      exact RealmCall.ended.inj hend
    · rintro ⟨d, hd, hbrought⟩
      obtain ⟨p, hp, rfl⟩ := List.mem_map.mp (hall.symm.subset hd)
      obtain ⟨outcome, hout, hreport⟩ := reported_of_joined c s steps hp
      exact ⟨p, hp, hout.trans (congrArg _ (hreport.collected_iff.mpr hbrought))⟩
  · by_cases hk : k ∈ (c.due s).map realmOf
    · obtain ⟨d, hd, rfl⟩ := List.mem_map.mp hk
      obtain ⟨p, hp, rfl⟩ := List.mem_map.mp (hall.symm.subset hd)
      obtain ⟨outcome, hout, hreport⟩ := reported_of_joined c s steps hp
      apply hreport.kept
      · rintro rfl
        exact hpanic p hp hout
      · rintro rfl
        exact Bool.false_ne_true (hc.symm.trans (collected_iff.mpr ⟨p, hp, hout⟩))
    · exact congrArg Prod.fst (h.others k hk).symm

/-- Two realms that nothing is stored of, and two nodes. -/
def twoRealms : RealmCycle :=
  let recipes : Catalog := ⟨[], [], .active, 1, [], [], [⟨[], .recipe, [⟨1, 7⟩], none, none⟩], [], [], [], []⟩
  let realm (id : RealmId) : Realm := ⟨id, .eu, [], [], [], true⟩
  { isConfigured := true
    activeCatalog := some recipes
    disabled := none
    directory := some ((Keyed.empty.add (realm 1)).add (realm 2))
    readable := fun _ => true
    now := 5
    realmMinIntervalMs := 60
    realmMaxIntervalMs := 900
    nodesOnline := 2 }

/-- Between the calls of a realm that has something new come those of one whose request fails. -/
def mixedSteps : List CycleStep :=
  let answer (snapshot : Option RealmSnapshot) : RealmAnswer := ⟨5, true, fun _ _ _ _ => snapshot, false⟩
  [.call (.eu, 1) (answer none), .call (.eu, 2) (answer none),
    .call (.eu, 1) (answer (some (.fresh 4 [⟨7, 100, []⟩]))), .call (.eu, 2) (answer none),
    .call (.eu, 1) (answer none), .call (.eu, 2) (answer none), .call (.eu, 1) (answer none),
    .join (.eu, 2), .join (.eu, 1)]

theorem cycle_reports_mixedSteps :
    let s : GearStore := ⟨.empty, .empty⟩
    let cycle := twoRealms.after s mixedSteps
    (∀ p ∈ cycle.joined, ∃ outcome, p.2 = .ended outcome ∧ Reported twoRealms p.1 (s.on (realmOf p.1))
      (twoRealms.answers s (realmOf p.1) mixedSteps) (cycle.store.on (realmOf p.1)) outcome) ∧
    (collected cycle = true ↔ ∃ d ∈ twoRealms.due s, ∃ generatedAt listings,
      Brought twoRealms d (s.on (realmOf d)).1 (twoRealms.answers s (realmOf d) mixedSteps) generatedAt listings ∧
      (cycle.store.on (realmOf d)).1 = withSnapshot d generatedAt listings (s.on (realmOf d)).1) ∧
    (collected cycle = false → (∀ p ∈ cycle.joined, p.2 ≠ .ended none) →
      ∀ k, (cycle.store.on k).1 = (s.on k).1) :=
  cycle_reports twoRealms ⟨.empty, .empty⟩ mixedSteps ⟨rfl, rfl⟩

end RealmCycle

end Gavel.Server
