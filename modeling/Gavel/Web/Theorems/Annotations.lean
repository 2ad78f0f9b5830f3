import Gavel.Web.Admin
import Gavel.Web.Theorems.Prefs

/-!
# What becomes of annotations

An id forgets the kind, the notes, the region and most of a title, so that two annotations of one instant
may share it. The second is then dropped, and the form says nothing of it.
-/

namespace Gavel.Web

open Gavel.Cluster (Millis)
open Gavel.Market

variable {http : Http} {tables : CharTables} {toLowercase : Text → Text} {requests : List AddRequest}
  {request : AddRequest} {e e' : MarketEvent}

/-- What a submission says. -/
structure Annotated where
  kind : EventKind
  title : Text
  startsAt : Millis
  notes : Option Text
  regions : List Region
  deriving DecidableEq

namespace Annotated

def of (e : MarketEvent) : Annotated := ⟨e.kind, e.title, e.startsAt, e.notes, e.scope.regions⟩

/-- The event that says no more. -/
def event (tables : CharTables) (toLowercase : Text → Text) (a : Annotated) : MarketEvent :=
  { id := noteId a.startsAt (noteSlug tables toLowercase a.title)
    kind := a.kind
    title := a.title
    notes := a.notes
    startsAt := a.startsAt
    endsAt := none
    scope := { regions := a.regions }
    provenance := .administrator
    validation := .unvalidated
    visibility := .internal }

end Annotated

/-- The events of the submissions that are accepted, in their order. -/
def accepted (http : Http) (tables : CharTables) (toLowercase : Text → Text)
    (requests : List AddRequest) : List MarketEvent :=
  requests.filterMap fun request => (addEvent http tables toLowercase request).toOption

/-- The table after submissions to an empty one. -/
def submitted (http : Http) (tables : CharTables) (toLowercase : Text → Text)
    (requests : List AddRequest) : MarketEvents :=
  requests.foldl (MarketEvents.submit http tables toLowercase) .empty

/-- The table has what was accepted: each annotation once, and nothing else. -/
structure Kept (table : MarketEvents) (events : List MarketEvent) : Prop where
  once : ∀ e ∈ events, (table.rows.map Annotated.of).count (Annotated.of e) = 1
  exactly : (table.rows.map Annotated.of).Perm (events.map Annotated.of).dedup

/-! ## Ids -/

theorem noteId_inj {at' at'' : Millis} {slug slug' : Text} :
    noteId at' slug = noteId at'' slug' ↔ at' = at'' ∧ slug = slug' := by
  constructor
  · intro h
    unfold noteId at h
    generalize "note:".toList = before at h
    rw [List.append_assoc, List.append_assoc, List.append_cancel_left_eq] at h
    have hcolon (n : Nat) (s : Text) : Text.splitOnce ':' (Text.decimal n ++ ':' :: s) = some (Text.decimal n, s) :=
      Text.splitOnce_append (Text.not_mem_decimal (by decide) n)
    have hsplit := congrArg (Text.splitOnce ':') h
    rw [hcolon, hcolon, Option.some.injEq, Prod.mk.injEq] at hsplit
    exact ⟨Text.decimal_inj hsplit.1, hsplit.2⟩
  · rintro ⟨rfl, rfl⟩
    rfl

/-- An accepted submission records what it says and no more. -/
theorem event_of_addEvent (h : addEvent http tables toLowercase request = .ok e) :
    (Annotated.of e).event tables toLowercase = e := by
  unfold addEvent at h
  split at h
  · cases h
  · split at h
    · cases h
    · cases h
    · simp only at h
      split at h
      · cases h
      · cases h
      · split at h
        · cases h
        · cases h
          rfl

theorem event_of_accepted (h : e ∈ accepted http tables toLowercase requests) :
    (Annotated.of e).event tables toLowercase = e := by
  obtain ⟨request, -, hrequest⟩ := List.mem_filterMap.mp h
  cases hadd : addEvent http tables toLowercase request with
  | error why =>
      rw [hadd] at hrequest
      cases hrequest
  | ok event =>
      rw [hadd] at hrequest
      cases hrequest
      exact event_of_addEvent hadd

theorem of_injOn (h : e ∈ accepted http tables toLowercase requests)
    (h' : e' ∈ accepted http tables toLowercase requests) (heq : Annotated.of e = Annotated.of e') : e = e' := by
  rw [← event_of_accepted h, ← event_of_accepted h', heq]

/-! ## Every submission -/

/-- A run of submissions inserts the accepted events one after the other. -/
theorem submitted_eq (requests : List AddRequest) : submitted http tables toLowercase requests =
    (accepted http tables toLowercase requests).foldl Keyed.add .empty := by
  rw [submitted, accepted, List.foldl_filterMap]
  congr 1
  funext table request
  rw [MarketEvents.submit]
  cases addEvent http tables toLowercase request <;> rfl

theorem mem_accepted_of_submitted (h : e ∈ (submitted http tables toLowercase requests).rows) :
    e ∈ accepted http tables toLowercase requests := by
  rw [submitted_eq] at h
  exact (Keyed.mem_of_mem_foldl_add h).resolve_left List.not_mem_nil

/-- The ids of accepted events agree where the instants and what is kept of the titles do. -/
theorem id_eq_iff (h : e ∈ accepted http tables toLowercase requests)
    (h' : e' ∈ accepted http tables toLowercase requests) : e.id = e'.id ↔
      e.startsAt = e'.startsAt ∧ noteSlug tables toLowercase e.title = noteSlug tables toLowercase e'.title := by
  have hid {f : MarketEvent} (hf : f ∈ accepted http tables toLowercase requests) :
      f.id = noteId f.startsAt (noteSlug tables toLowercase f.title) :=
    (congrArg MarketEvent.id (event_of_accepted hf)).symm
  rw [hid h, hid h', noteId_inj]

/-- After every run of submissions the table has exactly what was accepted if and only if no two accepted
annotations that differ have their instant and the id's part of their titles in common. -/
theorem annotations_kept_iff (http : Http) (tables : CharTables) (toLowercase : Text → Text)
    (requests : List AddRequest) :
    Kept (submitted http tables toLowercase requests) (accepted http tables toLowercase requests) ↔
      ∀ e ∈ accepted http tables toLowercase requests, ∀ e' ∈ accepted http tables toLowercase requests,
        e.startsAt = e'.startsAt →
        noteSlug tables toLowercase e.title = noteSlug tables toLowercase e'.title →
        Annotated.of e = Annotated.of e' := by
  constructor
  · intro h e he e' he' hat hslug
    have hstored {f : MarketEvent} (hf : f ∈ accepted http tables toLowercase requests) :
        f ∈ (submitted http tables toLowercase requests).rows := by
      have hmem : Annotated.of f ∈ (submitted http tables toLowercase requests).rows.map Annotated.of :=
        List.count_pos_iff.mp (by rw [h.once f hf]; decide)
      obtain ⟨r, hr, heq⟩ := List.mem_map.mp hmem
      rwa [← of_injOn (mem_accepted_of_submitted hr) hf heq]
    have hid : e.id = e'.id := (id_eq_iff he he').mpr ⟨hat, hslug⟩
    rw [Keyed.eq_of_key (hstored he) (hstored he') hid]
  · intro h
    have hperm : (submitted http tables toLowercase requests).rows.Perm
        (accepted http tables toLowercase requests).dedup := by
      rw [submitted_eq]
      refine Keyed.foldl_add_perm_dedup.mpr fun e he e' he' hid => ?_
      obtain ⟨hat, hslug⟩ := (id_eq_iff he he').mp hid
      exact of_injOn he he' (h e he e' he' hat hslug)
    have hnodup : ((submitted http tables toLowercase requests).rows.map Annotated.of).Nodup :=
      (Keyed.nodup _).map_on fun e he e' he' heq =>
        of_injOn (mem_accepted_of_submitted he) (mem_accepted_of_submitted he') heq
    have hmem (a : Annotated) : a ∈ (submitted http tables toLowercase requests).rows.map Annotated.of ↔
        a ∈ (accepted http tables toLowercase requests).map Annotated.of := by
      simp only [List.mem_map, hperm.mem_iff, List.mem_dedup]
    refine ⟨fun e he => ?_, ?_⟩
    · exact List.count_eq_one_of_mem hnodup ((hmem _).mpr (List.mem_map_of_mem he))
    · refine (List.perm_ext_iff_of_nodup hnodup (List.nodup_dedup _)).mpr fun a => ?_
      rw [hmem, List.mem_dedup]

section Witness

/-- An administrator's submission of an annotation with some notes. -/
def noteRequest (notes : Text) : AddRequest :=
  ⟨true, ⟨List.replicate 64 '0'⟩, none,
    ⟨List.replicate 64 '0', "hotfix".toList, "Server hotfix".toList, "2026-08-30".toList, notes, []⟩⟩

/-- The second note on one hotfix is accepted and dropped. -/
theorem second_note_is_dropped :
    let requests := [noteRequest "first".toList, noteRequest "second".toList]
    let events := accepted opaqueOctets ideographTables (List.map Char.toLower) requests
    let table := submitted opaqueOctets ideographTables (List.map Char.toLower) requests
    events.map MarketEvent.notes = [some "first".toList, some "second".toList] ∧
      table.rows.map MarketEvent.notes = [some "first".toList] ∧ ¬ Kept table events := by
  intro requests events table
  have hnotes : events.map MarketEvent.notes = [some "first".toList, some "second".toList] := by decide
  have hrows : table.rows.map MarketEvent.notes = [some "first".toList] := by decide
  refine ⟨hnotes, hrows, fun h => ?_⟩
  have hlost := h.exactly.length_eq
  rw [List.length_map, ← List.length_map (f := MarketEvent.notes), hrows] at hlost
  exact absurd hlost (by decide)

end Witness

end Gavel.Web
