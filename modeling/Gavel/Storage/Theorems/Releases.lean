import Gavel.Lib.Run
import Gavel.Storage.Releases

/-!
# One catalogue is active

Seeding asks which catalogue collects once, and then keeps account itself; an activation archives before
it activates. Neither ever meets the index.
-/

namespace Gavel.Storage

open Gavel.Cluster (Millis)
open Gavel.Market

namespace Releases

variable {t t' : Releases} {catalog : Text} {now : Millis} {r : Release} {k : Text}

/-- The row is in the table and active. -/
def Active (t : Releases) (r : Release) : Prop := r ∈ t.table.rows ∧ r.state = .active

/-- What an activation of one catalogue makes of a table. -/
structure Activated (t : Releases) (catalog : Text) (t' : Releases) : Prop where
  now : ∃ r, t'.Active r ∧ r.catalog = catalog
  replaced : ∀ r, t.Active r → r.catalog ≠ catalog →
    ∃ r' ∈ t'.table.rows, r'.catalog = r.catalog ∧ r'.state = .archived
  others : ∀ r ∈ t.table.rows, r.catalog ≠ catalog → r.state ≠ .active → r ∈ t'.table.rows
  again : ∀ now, t'.activate catalog now = .ok (t', ⟨catalog, none⟩)

/-- What holds of a table whatever is asked of it next. -/
structure Orderly (t : Releases) : Prop where
  unviolated : ∀ op message, t.perform op ≠ .error (.conflict message)
  most : ∀ a b, t.Active a → t.Active b → a = b
  ever : (∃ r, t.Active r) → ∀ ops, ∀ x ∈ Run.visited step t ops, ∃! r, x.Active r
  seeded : ∀ defaults now, ∀ r ∈ t.table.rows, r ∈ (t.step (.seed defaults now)).table.rows
  found : ∀ catalog now, (∃ r ∈ t.table.rows, r.catalog = catalog) → ∃ t' a, t.activate catalog now = .ok (t', a)
  refused : ∀ catalog now e, t.activate catalog now = .error e → t.step (.activate catalog now) = t
  activated : ∀ catalog now t' a, t.activate catalog now = .ok (t', a) →
    t.step (.activate catalog now) = t' ∧ t.Activated catalog t'

/-! ## Statements -/

theorem checked_ok {table : Keyed Release Text Release.catalog} (h : OneActive table.rows) :
    checked table = .ok ⟨table, h⟩ := dif_pos h

theorem held_eq_some (h : t.held = some k) : ∃ r, t.Active r ∧ r.catalog = k := by
  obtain ⟨r, hfind, rfl⟩ := Option.map_eq_some_iff.mp h
  have hactive : r.state.isActive = true := by simpa using List.find?_some hfind
  exact ⟨r, ⟨List.mem_of_find?_eq_some hfind, CatalogStatus.isActive_iff.mp hactive⟩, rfl⟩

theorem held_eq_none (h : t.held = none) : ∀ r, ¬ t.Active r := by
  intro r ⟨hr, hactive⟩
  have hnone := List.find?_eq_none.mp (Option.map_eq_none_iff.mp h) r hr
  exact hnone (CatalogStatus.isActive_iff.mpr hactive)

theorem insert_has (h : t.table.has r.catalog = true) : t.insert r = .ok (t, 0) := if_pos h

/-- A row that is new goes in unless it is active beside another. -/
theorem insert_new (h : ¬ t.table.has r.catalog = true) (hfree : r.state = .active → ∀ a, ¬ t.Active a) :
    ∃ t', t.insert r = .ok (t', 1) ∧ t'.table = t.table.add r := by
  have hindex : OneActive (t.table.add r).rows := by
    intro a ha hactive b hb hactive'
    rcases Keyed.mem_add.mp ha with hold | ⟨rfl, -⟩
    · rcases Keyed.mem_add.mp hb with hold' | ⟨rfl, -⟩
      · exact t.index a hold hactive b hold' hactive'
      · exact absurd ⟨hold, hactive⟩ (hfree hactive' a)
    · rcases Keyed.mem_add.mp hb with hold' | ⟨rfl, -⟩
      · exact absurd ⟨hold', hactive'⟩ (hfree hactive b)
      · rfl
  exact ⟨⟨_, hindex⟩, by rw [insert, if_neg h, checked_ok hindex]; rfl, rfl⟩

/-! ## Seeding -/

/-- The catalogue that is taken to be collecting has a row; where none is, no row is active. -/
def Accounts (t : Releases) (collecting : Option Text) : Prop :=
  match collecting with
  | some k => t.table.has k = true
  | none => ∀ r, ¬ t.Active r

theorem seedState_active {collecting : Option Text} {shipped : CatalogStatus}
    (h : seedState collecting k shipped = .active) : collecting = none ∨ collecting = some k := by
  cases collecting with
  | none => exact .inl rfl
  | some held =>
      right
      by_contra hne
      have hother : held ≠ k := fun heq => hne (congrArg some heq)
      cases shipped <;> simp [seedState, CatalogStatus.isActive, hother] at h

/-- Inserting the row of a seeded catalogue succeeds and keeps the rows there are. -/
theorem insert_ok (h : r.state = .active → t.table.has r.catalog = true ∨ ∀ a, ¬ t.Active a) :
    ∃ t' n, t.insert r = .ok (t', n) ∧ t'.table = t.table.add r := by
  by_cases hhas : t.table.has r.catalog = true
  · exact ⟨t, 0, insert_has hhas, (Keyed.add_of_has hhas).symm⟩
  · obtain ⟨t', hinsert, htable⟩ := insert_new hhas fun hactive => (h hactive).resolve_left hhas
    exact ⟨t', 1, hinsert, htable⟩

/-- Seeding one catalogue succeeds, keeps the rows there are, and keeps the account. -/
theorem seedOne_ok {collecting : Option Text} (now : Millis) (written : Nat)
    (shipped : Text × CatalogStatus) (h : t.Accounts collecting) :
    ∃ s : Releases × Option Text × Nat, seedOne now (t, collecting, written) shipped = .ok s ∧
      s.1.Accounts s.2.1 ∧ ∀ r ∈ t.table.rows, r ∈ s.1.table.rows := by
  obtain ⟨catalog, status⟩ := shipped
  obtain ⟨t', n, hinsert, htable⟩ := insert_ok (t := t) (r := ⟨catalog, seedState collecting catalog status,
    now, if (seedState collecting catalog status).isActive then some now else none, none⟩) (by
      intro hactive
      rcases seedState_active hactive with rfl | rfl
      · exact .inr h
      · exact .inl h)
  refine ⟨⟨t', if (seedState collecting catalog status).isActive then some catalog else collecting,
    written + n⟩, by rw [seedOne, hinsert]; rfl, ?_, fun r hr => ?_⟩
  · have hhas : t'.table.has catalog = true := by
      rw [htable, Keyed.has_add]
      exact .inr rfl
    by_cases hactive : (seedState collecting catalog status).isActive = true
    · simpa only [Accounts, hactive, if_true] using hhas
    · simp only [hactive]
      cases collecting with
      | some k =>
          simp only [Accounts, Bool.false_eq_true, if_false, htable, Keyed.has_add]
          exact .inl h
      | none =>
          rintro r ⟨hr, hstate⟩
          rw [htable] at hr
          rcases Keyed.mem_add.mp hr with hr | ⟨rfl, -⟩
          · exact h r ⟨hr, hstate⟩
          · exact hactive (CatalogStatus.isActive_iff.mpr hstate)
  · rw [htable]
    exact Keyed.mem_add_of_mem hr

theorem foldlM_seedOne_ok (now : Millis) (defaults : List (Text × CatalogStatus))
    (s : Releases × Option Text × Nat) (h : s.1.Accounts s.2.1) :
    ∃ s', defaults.foldlM (seedOne now) s = .ok s' ∧ ∀ r ∈ s.1.table.rows, r ∈ s'.1.table.rows := by
  induction defaults generalizing s with
  | nil => exact ⟨s, rfl, fun _ hr => hr⟩
  | cons shipped defaults ih =>
      obtain ⟨s₁, hone, haccounts, hkept⟩ := seedOne_ok now s.2.2 shipped h
      obtain ⟨s₂, hrest, hkept'⟩ := ih s₁ haccounts
      refine ⟨s₂, ?_, fun r hr => hkept' r (hkept r hr)⟩
      rw [List.foldlM_cons, hone]
      exact hrest

theorem accounts_held (t : Releases) : t.Accounts t.held := by
  cases hheld : t.held with
  | none => exact held_eq_none hheld
  | some k =>
      obtain ⟨r, hr, hk⟩ := held_eq_some hheld
      exact Keyed.has_iff.mpr ⟨r, hr.1, hk⟩

theorem seed_ok (t : Releases) (defaults : List (Text × CatalogStatus)) (now : Millis) :
    ∃ t' written, t.seed defaults now = .ok (t', written) ∧ ∀ r ∈ t.table.rows, r ∈ t'.table.rows := by
  obtain ⟨⟨t', c, written⟩, hfold, hkept⟩ :=
    foldlM_seedOne_ok now defaults (t, t.held, 0) t.accounts_held
  exact ⟨t', written, by rw [seed, hfold]; rfl, hkept⟩

/-! ## Activating -/

def archivedRow (now : Millis) (r : Release) : Release :=
  { r with state := .archived, changedAt := now, archivedAt := some now }

def activeRow (now : Millis) (r : Release) : Release :=
  { r with state := .active, changedAt := now, activatedAt := some now, archivedAt := none }

/-- What becomes of a row when another catalogue, or its own, is activated. -/
def movedRow (catalog : Text) (now : Millis) (r : Release) : Release :=
  if r.catalog = catalog then activeRow now r else if r.state = .active then archivedRow now r else r

theorem movedRow_catalog : (movedRow catalog now r).catalog = r.catalog := by
  unfold movedRow
  split
  · rfl
  · split <;> rfl

theorem setArchived_ok (t : Releases) (old : Text) (now : Millis) :
    ∃ t', t.setArchived old now = .ok t' ∧ ∀ r, r ∈ t'.table.rows ↔
      ∃ a ∈ t.table.rows, r = if a.catalog = old then archivedRow now a else a := by
  refine ⟨_, checked_ok ?_, fun r => Keyed.mem_change (f := archivedRow now) fun _ => rfl⟩
  intro a ha hactive b hb hactive'
  obtain ⟨x, hx, rfl⟩ := (Keyed.mem_change (f := archivedRow now) fun _ => rfl).mp ha
  obtain ⟨y, hy, rfl⟩ := (Keyed.mem_change (f := archivedRow now) fun _ => rfl).mp hb
  split at hactive
  · cases hactive
  · split at hactive'
    · cases hactive'
    · rw [if_neg ‹_›, if_neg ‹_›]
      exact t.index x hx hactive y hy hactive'

theorem setActive_ok (catalog : Text) (now : Millis) (h : ∀ r, ¬ t.Active r) :
    ∃ t', t.setActive catalog now = .ok t' ∧ ∀ r, r ∈ t'.table.rows ↔
      ∃ a ∈ t.table.rows, r = if a.catalog = catalog then activeRow now a else a := by
  refine ⟨_, checked_ok ?_, fun r => Keyed.mem_change (f := activeRow now) fun _ => rfl⟩
  intro a ha hactive b hb hactive'
  obtain ⟨x, hx, rfl⟩ := (Keyed.mem_change (f := activeRow now) fun _ => rfl).mp ha
  obtain ⟨y, hy, rfl⟩ := (Keyed.mem_change (f := activeRow now) fun _ => rfl).mp hb
  split at hactive
  · split at hactive'
    · rw [Keyed.eq_of_key hx hy (by rw [‹x.catalog = catalog›, ‹y.catalog = catalog›])]
    · exact absurd ⟨hy, hactive'⟩ (h y)
  · exact absurd ⟨hx, hactive⟩ (h x)

theorem active_iff_catalog (h : t.Active r) {a : Release} (ha : a ∈ t.table.rows) :
    a.state = .active ↔ a.catalog = r.catalog := by
  constructor
  · intro hstate
    rw [t.index a ha hstate r h.1 h.2]
  · intro heq
    rw [Keyed.eq_of_key ha h.1 heq]
    exact h.2

/-- What an activation can do: refuse a catalogue without a row, leave the active one, or move the rows. -/
theorem activate_cases (t : Releases) (catalog : Text) (now : Millis) :
    (t.activate catalog now = .error .notFound ∧ ∀ r ∈ t.table.rows, r.catalog ≠ catalog) ∨
    (∃ r, t.Active r ∧ r.catalog = catalog ∧ t.activate catalog now = .ok (t, ⟨catalog, none⟩)) ∨
    ∃ t', (∃ r ∈ t.table.rows, r.catalog = catalog) ∧
      t.activate catalog now = .ok (t', ⟨catalog, t.held⟩) ∧
      ∀ x, x ∈ t'.table.rows ↔ ∃ a ∈ t.table.rows, x = movedRow catalog now a := by
  cases hfind : t.table.rows.find? (·.catalog = catalog) with
  | none =>
      refine .inl ⟨by simp only [activate, hfind], fun r hr heq => ?_⟩
      exact List.find?_eq_none.mp hfind r hr (decide_eq_true heq)
  | some row =>
      have hrow := List.mem_of_find?_eq_some hfind
      have hkey : row.catalog = catalog := by simpa using List.find?_some hfind
      by_cases hactive : row.state = .active
      · exact .inr (.inl ⟨row, ⟨hrow, hactive⟩, hkey, by simp only [activate, hfind, if_pos hactive]⟩)
      · refine .inr (.inr ?_)
        cases hheld : t.held with
        | none =>
            have hnone := held_eq_none hheld
            obtain ⟨t', hset, hmem⟩ := setActive_ok catalog now hnone
            refine ⟨t', ⟨row, hrow, hkey⟩, ?_, fun x => ?_⟩
            · simp only [activate, hfind, if_neg hactive, hheld, hset, bind, Except.bind, pure, Except.pure]
            · rw [hmem]
              refine exists_congr fun a => and_congr_right fun ha => ?_
              rw [movedRow, if_neg (c := a.state = .active) fun hstate => hnone a ⟨ha, hstate⟩]
        | some old =>
            obtain ⟨was, hwas, rfl⟩ := held_eq_some hheld
            obtain ⟨t₁, hset₁, hmem₁⟩ := setArchived_ok t was.catalog now
            have hnone : ∀ r, ¬ t₁.Active r := by
              rintro r ⟨hr, hstate⟩
              obtain ⟨a, ha, rfl⟩ := (hmem₁ r).mp hr
              split at hstate
              · cases hstate
              · exact ‹a.catalog ≠ was.catalog› ((active_iff_catalog hwas ha).mp hstate)
            obtain ⟨t', hset, hmem⟩ := setActive_ok catalog now hnone
            have hother : was.catalog ≠ catalog := by
              intro heq
              exact hactive ((active_iff_catalog hwas hrow).mpr (hkey.trans heq.symm))
            -- A row moves once: the active one is not the one to become so.
            have hmoved (a : Release) (ha : a ∈ t.table.rows) : movedRow catalog now a =
                if (if a.catalog = was.catalog then archivedRow now a else a).catalog = catalog then
                  activeRow now (if a.catalog = was.catalog then archivedRow now a else a)
                else if a.catalog = was.catalog then archivedRow now a else a := by
              by_cases hold : a.catalog = was.catalog
              · have hne : a.catalog ≠ catalog := fun heq => hother (hold.symm.trans heq)
                rw [if_pos hold, movedRow, if_neg hne, if_pos ((active_iff_catalog hwas ha).mpr hold)]
                exact (if_neg hne).symm
              · rw [if_neg hold, movedRow,
                  if_neg (c := a.state = .active) fun hstate => hold ((active_iff_catalog hwas ha).mp hstate)]
            refine ⟨t', ⟨row, hrow, hkey⟩, ?_, fun x => ?_⟩
            · simp only [activate, hfind, if_neg hactive, hheld, hset₁, hset, bind, Except.bind, pure,
                Except.pure]
            · rw [hmem]
              constructor
              · rintro ⟨b, hb, rfl⟩
                obtain ⟨a, ha, rfl⟩ := (hmem₁ b).mp hb
                exact ⟨a, ha, (hmoved a ha).symm⟩
              · rintro ⟨a, ha, rfl⟩
                exact ⟨_, (hmem₁ _).mpr ⟨a, ha, rfl⟩, hmoved a ha⟩

theorem activate_again (h : t.Active r) (now : Millis) :
    t.activate r.catalog now = .ok (t, ⟨r.catalog, none⟩) := by
  rcases activate_cases t r.catalog now with ⟨-, hnone⟩ | ⟨-, -, -, hok⟩ | ⟨t', -, hok, -⟩
  · exact absurd rfl (hnone r h.1)
  · exact hok
  · cases hfind : t.table.rows.find? (·.catalog = r.catalog) with
    | none => exact absurd (decide_eq_true rfl) (List.find?_eq_none.mp hfind r h.1)
    | some row =>
        have hkey : row.catalog = r.catalog := by simpa using List.find?_some hfind
        have hactive := (active_iff_catalog h (List.mem_of_find?_eq_some hfind)).mpr hkey
        simp only [activate, hfind, if_pos hactive]

/-- Only a catalogue without a row is refused. -/
theorem activate_found (now : Millis) (h : ∃ r ∈ t.table.rows, r.catalog = catalog) :
    ∃ t' a, t.activate catalog now = .ok (t', a) := by
  obtain ⟨r, hr, hkey⟩ := h
  rcases activate_cases t catalog now with ⟨-, hnone⟩ | ⟨-, -, -, hok⟩ | ⟨t', -, hok, -⟩
  · exact absurd hkey (hnone r hr)
  · exact ⟨t, _, hok⟩
  · exact ⟨t', _, hok⟩

theorem activate_ok {a : Activation} (h : t.activate catalog now = .ok (t', a)) :
    t.Activated catalog t' := by
  rcases activate_cases t catalog now with ⟨hno, -⟩ | ⟨r, hr, rfl, hok⟩ | ⟨t₁, ⟨r, hr, hkey⟩, hok, hmem⟩
  · rw [hno] at h
    cases h
  · rw [hok] at h
    cases h
    refine ⟨⟨r, hr, rfl⟩, fun b hb hne => ?_, fun b hb _ _ => hb, activate_again hr⟩
    exact absurd ((active_iff_catalog hr hb.1).mp hb.2) hne
  · rw [hok] at h
    cases h
    have hnow : t'.Active (movedRow catalog now r) :=
      ⟨(hmem _).mpr ⟨r, hr, rfl⟩, by rw [movedRow, if_pos hkey]; rfl⟩
    have hcatalog : (movedRow catalog now r).catalog = catalog := movedRow_catalog.trans hkey
    refine ⟨⟨_, hnow, hcatalog⟩, fun b hb hne => ?_, fun b hb hne hstate => ?_, fun later => ?_⟩
    · exact ⟨_, (hmem _).mpr ⟨b, hb.1, rfl⟩, movedRow_catalog, by
        rw [movedRow, if_neg hne, if_pos hb.2]; rfl⟩
    · exact (hmem _).mpr ⟨b, hb, by rw [movedRow, if_neg hne, if_neg hstate]⟩
    · have hagain := activate_again hnow later
      rwa [hcatalog] at hagain

/-! ## Runs -/

theorem perform_no_conflict (t : Releases) (op : Op) (message : Text) :
    t.perform op ≠ .error (.conflict message) := by
  intro h
  cases op with
  | seed defaults now =>
      obtain ⟨t', written, hok, -⟩ := seed_ok t defaults now
      rw [perform, hok] at h
      cases h
  | activate catalog now =>
      rcases activate_cases t catalog now with ⟨hno, -⟩ | ⟨-, -, -, hok⟩ | ⟨t', -, hok, -⟩
      · rw [perform, hno] at h
        cases h
      · rw [perform, hok] at h
        cases h
      · rw [perform, hok] at h
        cases h

theorem step_seed (t : Releases) (defaults : List (Text × CatalogStatus)) (now : Millis) :
    ∀ r ∈ t.table.rows, r ∈ (t.step (.seed defaults now)).table.rows := by
  obtain ⟨t', written, hok, hkept⟩ := seed_ok t defaults now
  simp only [step, perform, hok]
  exact hkept

theorem step_activate {a : Activation} (h : t.activate catalog now = .ok (t', a)) :
    t.step (.activate catalog now) = t' := by
  simp only [step, perform, h]
  rfl

theorem step_refused {e : RepoError} (h : t.activate catalog now = .error e) :
    t.step (.activate catalog now) = t := by
  simp only [step, perform, h]
  rfl

theorem step_active (h : ∃ r, t.Active r) (op : Op) : ∃ r, (t.step op).Active r := by
  cases op with
  | seed defaults now =>
      obtain ⟨r, hr, hactive⟩ := h
      exact ⟨r, step_seed t defaults now r hr, hactive⟩
  | activate catalog now =>
      cases hactivate : t.activate catalog now with
      | error e =>
          rw [step_refused hactivate]
          exact h
      | ok result =>
          obtain ⟨t', a⟩ := result
          rw [step_activate hactivate]
          obtain ⟨r, hr, -⟩ := (activate_ok hactivate).now
          exact ⟨r, hr⟩

theorem orderly (t : Releases) : t.Orderly where
  unviolated := perform_no_conflict t
  most := fun a b ha hb => t.index a ha.1 ha.2 b hb.1 hb.2
  ever := by
    intro h ops x hx
    obtain ⟨r, hr⟩ := Run.invariant_always (I := fun s => ∃ r, s.Active r) (fun s op hs => step_active hs op) ops h x hx
    exact ⟨r, hr, fun b hb => x.index b hb.1 hb.2 r hr.1 hr.2⟩
  seeded := step_seed t
  found := fun _ now h => activate_found now h
  refused := fun _ _ _ h => step_refused h
  activated := fun _ _ _ _ h => ⟨step_activate h, activate_ok h⟩

/-- Whatever was seeded and activated before, the table stays orderly. -/
theorem orderly_after (ops : List Op) : (Run.final step empty ops).Orderly := orderly _

end Releases

end Gavel.Storage
