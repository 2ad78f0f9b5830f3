import Gavel.Market.Lemmas.Hierarchy
import Gavel.Market.Theorems.Owners

/-!
# Drafts do not leak

Whatever a draft says, a visitor sees the same: drafts and public catalogues are sorted together, but the
public ones come in an order of their own, and every answer is made of these.
-/

namespace Gavel.Market

open Gavel.Sorting

namespace CatalogSet

/-- Two catalogues that a visitor cannot tell apart. -/
def SameFor (states : ReleaseStates) (c c' : Catalog) : Prop :=
  c.id = c'.id ∧ c.status = c'.status ∧ (states.stateOf c ≠ .draftPtr → c = c')

/-- Two sets that agree except in what their drafts say. -/
def Agree (states : ReleaseStates) (s s' : CatalogSet) : Prop :=
  List.Forall₂ (SameFor states) s.catalogs s'.catalogs

/-- A visitor gets the same answers from two sets. -/
structure SameView (states : ReleaseStates) (s s' : CatalogSet) : Prop where
  active : active s states = active s' states
  public' : ∀ id, public' s states id = public' s' states id
  publicAll : publicAll s states = publicAll s' states
  publicOwners : publicOwners s states = publicOwners s' states
  publicItem : ∀ item, publicItem s states item = publicItem s' states item
  publicIndex : publicIndex s states = publicIndex s' states
  archive : archive s states = archive s' states

/-- No answer has a catalogue in it that is a draft. -/
structure NoDrafts (states : ReleaseStates) (s : CatalogSet) : Prop where
  active : ∀ c, Market.active s states = some c → states.stateOf c ≠ .draftPtr
  public' : ∀ id c, Market.public' s states id = some c → states.stateOf c ≠ .draftPtr
  publicAll : ∀ c ∈ Market.publicAll s states, states.stateOf c ≠ .draftPtr
  publicOwners : ∀ (item : Nat) c, (Market.publicOwners s states)[item]? = some c →
    states.stateOf c ≠ .draftPtr
  publicItem : ∀ item c entry, Market.publicItem s states item = some (c, entry) →
    states.stateOf c ≠ .draftPtr
  publicIndex : ∀ (item : Nat) c entry, (Market.publicIndex s states)[item]? = some (c, entry) →
    states.stateOf c ≠ .draftPtr
  archive : ∀ id, (Market.archive s states).Mentions id →
    ∀ c ∈ s.catalogs, c.id = id → states.stateOf c ≠ .draftPtr

variable {s s' : CatalogSet} {states : ReleaseStates} {c c' : Catalog}

/-! ## Public catalogues -/

theorem isPublic_iff {status : CatalogStatus} : status.isPublic = true ↔ status ≠ .draftPtr := by
  cases status <;> simp [CatalogStatus.isPublic]

theorem SameFor.stateOf (h : SameFor states c c') : states.stateOf c = states.stateOf c' := by
  simp only [ReleaseStates.stateOf, h.1, h.2.1]

/-- What picks public catalogues by their id and state picks the same from both sets. -/
theorem filter_eq {l l' : List Catalog} (h : List.Forall₂ (SameFor states) l l') {p : Catalog → Bool}
    (hp : ∀ c c', SameFor states c c' → p c = p c') (hpublic : ∀ c, p c = true → states.stateOf c ≠ .draftPtr) :
    l.filter p = l'.filter p := by
  induction h with
  | nil => rfl
  | @cons c c' l l' hc hl ih =>
      by_cases hpc : p c = true
      · obtain rfl := hc.2.2 (hpublic c hpc)
        rw [List.filter_cons_of_pos hpc, List.filter_cons_of_pos hpc, ih]
      · have hpc' : ¬ p c' = true := by rwa [← hp c c' hc]
        rw [List.filter_cons_of_neg hpc, List.filter_cons_of_neg hpc', ih]

theorem map_id_eq {l l' : List Catalog} (h : List.Forall₂ (SameFor states) l l') :
    l.map Catalog.id = l'.map Catalog.id := by
  induction h with
  | nil => rfl
  | cons hc _ ih => rw [List.map_cons, List.map_cons, hc.1, ih]

theorem active_eq (h : s.Agree states s') : Market.active s states = Market.active s' states := by
  rw [Market.active, Market.active, ← List.head?_filter, ← List.head?_filter, filter_eq h]
  · exact fun c c' hc => by rw [hc.stateOf]
  · intro c hc
    rw [CatalogStatus.isActive_iff.mp hc]
    decide

/-- A catalogue under an id is the same one on both sides, or a draft on both. -/
theorem public_eq (h : s.Agree states s') (id : Text) : Market.public' s states id = Market.public' s' states id := by
  simp only [Agree] at h
  simp only [Market.public', CatalogSet.byId]
  generalize s.catalogs = l, s'.catalogs = l' at h
  induction h with
  | nil => rfl
  | @cons c c' l l' hc hl ih =>
      by_cases hid : c.id = id
      · have hid' : c'.id = id := hc.1.symm.trans hid
        rw [List.find?_cons_of_pos (by simpa using hid), List.find?_cons_of_pos (by simpa using hid'),
          Option.filter_some, Option.filter_some, ← hc.stateOf]
        by_cases hpublic : (states.stateOf c).isPublic = true
        · rw [hc.2.2 (isPublic_iff.mp hpublic)]
        · rw [if_neg hpublic, if_neg hpublic]
      · have hid' : ¬ c'.id = id := fun heq => hid (hc.1.trans heq)
        rw [List.find?_cons_of_neg (by simpa using hid), List.find?_cons_of_neg (by simpa using hid'), ih]

/-! ## Display order -/

instance display.transCmp (stateOf : Catalog → CatalogStatus) : Std.TransCmp (display stateOf) := by
  have hactive : Std.TransCmp fun a b => compare (stateOf b).isActive (stateOf a).isActive :=
    inferInstanceAs (Std.TransCmp fun a b => compareOn (fun c => (stateOf c).isActive) b a)
  have hspan : Std.TransCmp fun (a b : Catalog) => compare b.spanStart a.spanStart :=
    inferInstanceAs (Std.TransCmp fun a b => compareOn Catalog.spanStart b a)
  exact inferInstanceAs (Std.TransCmp (compareLex _ (compareLex _ (compareOn Catalog.id))))

theorem id_of_display_eq {stateOf : Catalog → CatalogStatus} (h : display stateOf c c' = .eq) :
    c.id = c'.id := by
  simp only [display, compareLex_eq_eq, compareOn] at h
  exact Std.LawfulEqCmp.eq_of_compare h.2.2

theorem eq_of_id (hids : (s.catalogs.map Catalog.id).Nodup) (hc : c ∈ s.catalogs) (hc' : c' ∈ s.catalogs)
    (h : c.id = c'.id) : c = c' := List.inj_on_of_nodup_map hids hc hc' h

theorem publicAll_eq (h : s.Agree states s') (hids : (s.catalogs.map Catalog.id).Nodup) :
    Market.publicAll s states = Market.publicAll s' states := by
  have hfilter := filter_eq h (p := fun c => (states.stateOf c).isPublic)
    (fun c c' hc => by rw [hc.stateOf]) (fun c hc => isPublic_iff.mp hc)
  refine filter_sortWith_congr hfilter fun a ha b hb heq => ?_
  exact eq_of_id hids (List.mem_of_mem_filter ha) (List.mem_of_mem_filter hb) (id_of_display_eq heq)

theorem mem_publicAll : c ∈ Market.publicAll s states ↔
    c ∈ s.catalogs ∧ (states.stateOf c).isPublic = true := by
  rw [Market.publicAll, List.mem_filter, CatalogSet.orderedBy, mem_sortWith]

theorem not_draft (h : c ∈ Market.publicAll s states) : states.stateOf c ≠ .draftPtr :=
  isPublic_iff.mp (mem_publicAll.mp h).2

/-! ## Answers -/

theorem sameView (h : s.Agree states s') (hids : (s.catalogs.map Catalog.id).Nodup) : SameView states s s' := by
  have hall := publicAll_eq h hids
  refine ⟨active_eq h, public_eq h, hall, ?_, fun item => ?_, ?_, ?_⟩
  · rw [Market.publicOwners, Market.publicOwners, hall]
  · rw [Market.publicItem, Market.publicItem, hall]
  · rw [Market.publicIndex, Market.publicIndex, hall]
  · rw [Market.archive, Market.archive, hall]

theorem noDrafts (states : ReleaseStates) (hids : (s.catalogs.map Catalog.id).Nodup) : NoDrafts states s where
  active := by
    intro c hc
    have hactive : (states.stateOf c).isActive = true := by simpa using List.find?_some hc
    rw [CatalogStatus.isActive_iff.mp hactive]
    decide
  public' := by
    intro id c hc
    exact isPublic_iff.mp (Option.filter_eq_some_iff.mp hc).2
  publicAll := fun c hc => not_draft hc
  publicOwners := by
    intro item c hc
    rw [get_publicOwners] at hc
    obtain ⟨c', hc', hlast⟩ := List.exists_of_findSome?_eq_some hc
    obtain ⟨-, -, rfl⟩ := Option.map_eq_some_iff.mp hlast
    exact not_draft hc'
  publicItem := by
    intro item c entry hc
    obtain ⟨c', hc', hfind⟩ := List.exists_of_findSome?_eq_some hc
    obtain ⟨_, -, heq⟩ := Option.map_eq_some_iff.mp hfind
    cases heq
    exact not_draft hc'
  publicIndex := by
    intro item c entry hc
    rw [get_publicIndex] at hc
    obtain ⟨c', hc', hlast⟩ := List.exists_of_findSome?_eq_some hc
    obtain ⟨_, -, heq⟩ := Option.map_eq_some_iff.mp hlast
    cases heq
    exact not_draft hc'
  archive := by
    intro id hid c hc heq
    obtain ⟨c', hc', heq'⟩ := Archive.mentions_of hid
    rw [eq_of_id hids hc (mem_publicAll.mp hc').1 (heq.trans heq'.symm)]
    exact not_draft hc'

/-- What drafts say makes no difference to a visitor, and none of them is ever shown. -/
theorem drafts_do_not_leak (states : ReleaseStates) (s s' : CatalogSet)
    (hids : (s.catalogs.map Catalog.id).Nodup) (h : s.Agree states s') :
    SameView states s s' ∧ NoDrafts states s ∧ NoDrafts states s' := by
  have hids' : (s'.catalogs.map Catalog.id).Nodup := by rwa [← map_id_eq h]
  exact ⟨sameView h hids, noDrafts states hids, noDrafts states hids'⟩

/-- A catalogue with one patch and one item. -/
def season (id : Text) (status : CatalogStatus) (started : Text) (item : ItemId) : Catalog :=
  { id, expansion := "Midnight".toList, status, catalogVersion := 1
    patches := [⟨"12.0".toList, "Launch".toList, started⟩]
    raidTiers := []
    items := [⟨"flask".toList, .consumable, [⟨1, item⟩], none, none⟩]
    itemLevels := [], tracks := [], modifiers := [], notes := [] }

/-- An active catalogue and a draft. -/
def withDraft (started : Text) (item : ItemId) : CatalogSet :=
  ⟨[season "live".toList .active "2026-03-02".toList 7, season "ptr".toList .draftPtr started item]⟩

theorem agree_withDraft (started started' : Text) (item item' : ItemId) :
    (withDraft started item).Agree .new (withDraft started' item') :=
  .cons ⟨rfl, rfl, fun _ => rfl⟩ (.cons ⟨rfl, rfl, fun hpublic => (hpublic rfl).elim⟩ .nil)

/-- A draft that is older than the active catalogue on one side and newer on the other. -/
theorem moved_draft_does_not_leak :
    SameView .new (withDraft "2026-01-06".toList 7) (withDraft "2026-08-11".toList 8) :=
  (drafts_do_not_leak .new _ _ (by decide) (agree_withDraft _ _ 7 8)).1

end CatalogSet

end Gavel.Market
