import Gavel.Server.MaterialiseTask
import Gavel.Server.Theorems.Collecting

/-!
# When an incomplete candidate is published

A region's rows are staged whole when the cluster brings every partition back or the local
materialiser completes them. Where neither does, the local pass answers with an empty list and the
run goes on to publish; this module proves exactly when that happens.
-/

namespace Gavel.Server

open Gavel.Cluster (Millis)
open Gavel.Market

variable {F : Floating}

/-! ## Partitions are never empty -/

section Nonempty

variable {region : Region} {ladders : Table Ladder} {owner : ItemId → Catalog}
  {windows : Catalog → List Window} {now : Millis} {history : List PriceSample} {c : Cut}

/-- Sealed partitions hold a market, and there is a catalogue exactly while one is being filled. -/
structure Cut.Filled (c : Cut) : Prop where
  sealed : ∀ input ∈ c.out, input.markets ≠ []
  filling : c.current = [] ↔ c.catalog = none

theorem Cut.Filled.take (h : c.Filled) {group : List PriceSample} (hgroup : group ≠ []) :
    ∃ c', c.take region ladders owner windows now group = some c' ∧ c'.Filled := by
  obtain ⟨first, rows, rfl⟩ := List.exists_cons_of_ne_nil hgroup
  rw [Cut.take_cons]
  cases hfull : c.full (owner first.item) with
  | true =>
      have hne := Cut.ne_nil_of_full hfull
      obtain ⟨held, hheld⟩ := Option.ne_none_iff_exists'.mp fun hnone => hne (h.filling.mpr hnone)
      simp only [if_true, Cut.close, hheld, Option.map_some]
      refine ⟨_, rfl, ?_, by simp [Cut.put]⟩
      intro input hin
      rcases List.mem_append.mp hin with hin | hin
      · exact h.sealed input hin
      · rw [List.mem_singleton.mp hin]
        exact hne
  | false =>
      simp only [Bool.false_eq_true, if_false, Option.map_some]
      exact ⟨_, rfl, h.sealed, by simp [Cut.put]⟩

theorem Cut.Filled.takes {groups : List (List PriceSample)} (hgroups : ∀ g ∈ groups, g ≠ [])
    (h : c.Filled) :
    ∃ c', groups.foldlM (Cut.take region ladders owner windows now) c = some c' ∧ c'.Filled := by
  induction groups generalizing c with
  | nil => exact ⟨c, rfl, h⟩
  | cons g groups ih =>
      obtain ⟨c₁, hc₁, h₁⟩ := h.take (hgroups g List.mem_cons_self)
      obtain ⟨c', hc', h'⟩ := ih (fun g' hg' => hgroups g' (List.mem_cons_of_mem _ hg')) h₁
      exact ⟨c', by rw [List.foldlM_cons, hc₁]; exact hc', h'⟩

/-- A cut goes through for every assignment of owners, and every partition holds a market. -/
theorem partition_nonempty :
    ∃ inputs, partition region ladders owner windows now history = some inputs ∧
      ∀ input ∈ inputs, input.markets ≠ [] := by
  have hgroups : ∀ g ∈ grouped history, g ≠ [] := fun g hg => List.ne_nil_of_mem_splitBy hg
  obtain ⟨c, hc, h⟩ := @Cut.Filled.takes region ladders owner windows now ⟨[], [], none⟩ _ hgroups
    ⟨by simp, by simp⟩
  cases hcat : c.catalog with
  | none =>
      refine ⟨c.out, ?_, h.sealed⟩
      simp only [partition, hc, Option.bind_eq_bind, Option.bind_some, hcat, Option.pure_def]
  | some held =>
      refine ⟨c.out ++ [finish region held c.current windows now], ?_, ?_⟩
      · simp only [partition, hc, Option.bind_eq_bind, Option.bind_some, hcat, Option.pure_def]
      · intro input hin
        rcases List.mem_append.mp hin with hin | hin
        · exact h.sealed input hin
        · rw [List.mem_singleton.mp hin]
          intro hnil
          rw [h.filling.mp hnil] at hcat
          cases hcat

end Nonempty

/-! ## What is recorded -/

section Recording

variable {a : Artifacts} {version algorithm part k : Nat} {rows : List Materialised} {r : Arrival}

/-- The store is genuine on its own, with no result between its check and its insertion. -/
def Artifacts.Genuine (F : Floating) (a : Artifacts) : Prop := Desk.Genuine F ⟨a, []⟩

/-- A result that will be recorded under a partition's number: it names this candidate and is what
the partition's input reduces to. -/
def Artifacts.Fits (F : Floating) (a : Artifacts) (k : Nat) (r : Arrival) : Prop :=
  a.version = r.version ∧ a.algorithm = r.algorithm ∧ r.part = k ∧
    ∃ held, a.inputs[k]? = some held ∧ r.rows = held.input.rows F

/-- The same candidate with the same inputs. -/
structure Artifacts.Same (a b : Artifacts) : Prop where
  version : b.version = a.version
  algorithm : b.algorithm = a.algorithm
  inputs : b.inputs = a.inputs

theorem Artifacts.Same.refl (a : Artifacts) : a.Same a := ⟨rfl, rfl, rfl⟩

theorem Artifacts.Same.trans {a b c : Artifacts} (h : a.Same b) (h' : b.Same c) : a.Same c :=
  ⟨h'.version.trans h.version, h'.algorithm.trans h.algorithm, h'.inputs.trans h.inputs⟩

theorem Artifacts.Same.fits {a b : Artifacts} (h : a.Same b) : b.Fits F k r ↔ a.Fits F k r := by
  simp only [Artifacts.Fits, h.version, h.algorithm, h.inputs]

theorem Artifacts.finish_same (a : Artifacts) (version algorithm part : Nat)
    (rows : List Materialised) : a.Same (a.finish F version algorithm part rows) := by
  unfold Artifacts.finish
  split
  · simp only [Artifacts.record]
    split <;> exact ⟨rfl, rfl, rfl⟩
  · exact .refl a

theorem Artifacts.Genuine.finish (h : a.Genuine F) :
    (a.finish F version algorithm part rows).Genuine F := by
  unfold Artifacts.finish
  split
  · rename_i c hc
    exact (Desk.Genuine.push h hc).record 0
  · exact h

/-- Recording a result changes what is recorded under its own number, and only if it fits. -/
theorem Artifacts.finish_recorded (a : Artifacts) (r : Arrival) (k : Nat) :
    ((a.finish F r.version r.algorithm r.part r.rows).results[k]?).isSome ↔
      (a.results[k]?).isSome ∨ a.Fits F k r := by
  by_cases hnamed : a.version = r.version ∧ a.algorithm = r.algorithm
  · obtain ⟨hv, ha⟩ := hnamed
    cases hheld : a.inputs[r.part]? with
    | none =>
        have hnot : ¬ a.Fits F k r := by
          rintro ⟨-, -, hpart, held, hk, -⟩
          rw [← hpart, hheld] at hk
          cases hk
        simp [Artifacts.finish, Artifacts.check, Artifacts.registered, hv, ha, hheld, hnot]
    | some held =>
        by_cases hrows : r.rows = held.input.rows F
        · have hfits : a.Fits F k r ↔ r.part = k := by
            constructor
            · exact fun h => h.2.2.1
            · rintro rfl
              exact ⟨hv, ha, rfl, held, hheld, hrows⟩
          simp only [Artifacts.finish, Artifacts.check, Artifacts.registered, hv, ha, hheld, hrows,
            Artifacts.record, ne_eq, not_true_eq_false, or_self, if_false, Option.bind_eq_bind,
            Option.bind_some, Option.any_some, decide_true, Bool.not_true, Bool.false_eq_true,
            Table.get_insert, hfits]
          by_cases hk : r.part = k <;> simp [hk]
        · have hnot : ¬ a.Fits F k r := by
            rintro ⟨-, -, hpart, held', hk, hr⟩
            rw [← hpart, hheld] at hk
            obtain rfl := Option.some.inj hk
            exact hrows hr
          simp [Artifacts.finish, Artifacts.check, Artifacts.registered, hv, ha, hheld, hrows, hnot]
  · have hnot : ¬ a.Fits F k r := fun h => hnamed ⟨h.1, h.2.1⟩
    have hor : a.version ≠ r.version ∨ a.algorithm ≠ r.algorithm := by
      by_cases hv : a.version = r.version
      · exact .inr fun ha => hnamed ⟨hv, ha⟩
      · exact .inl hv
    simp [Artifacts.finish, Artifacts.check, Artifacts.registered, hor, hnot]

theorem Artifacts.takeIn_same (a : Artifacts) (arrivals : List Arrival) :
    a.Same (a.takeIn F arrivals) := by
  induction arrivals generalizing a with
  | nil => exact .refl a
  | cons r arrivals ih => exact (a.finish_same _ _ _ _).trans (ih _)

theorem Artifacts.Genuine.takeIn (h : a.Genuine F) (arrivals : List Arrival) :
    (a.takeIn F arrivals).Genuine F := by
  induction arrivals generalizing a with
  | nil => exact h
  | cons r arrivals ih => exact ih h.finish

/-- After some results have arrived, what is recorded is what was and what one of them fits. -/
theorem Artifacts.takeIn_recorded (a : Artifacts) (arrivals : List Arrival) (k : Nat) :
    ((a.takeIn F arrivals).results[k]?).isSome ↔
      (a.results[k]?).isSome ∨ ∃ r ∈ arrivals, a.Fits F k r := by
  induction arrivals generalizing a with
  | nil => simp [Artifacts.takeIn]
  | cons r arrivals ih =>
      have hsame : a.Same (a.finish F r.version r.algorithm r.part r.rows) := a.finish_same _ _ _ _
      have hcons : a.takeIn F (r :: arrivals) =
          (a.finish F r.version r.algorithm r.part r.rows).takeIn F arrivals := rfl
      rw [hcons, ih, Artifacts.finish_recorded]
      simp only [hsame.fits, List.exists_mem_cons_iff, or_assoc]

/-- The store collects exactly when every registered partition is recorded. -/
theorem Artifacts.Genuine.collect_iff (h : a.Genuine F) (hv : a.version = version) :
    (∀ k : Nat, (a.inputs[k]?).isSome → (a.results[k]?).isSome) ↔
      a.collect version = some ((a.inputs.rows.map Held.input).flatMap (Input.rows F)) := by
  have hsize := Table.size_eq_iff (m := a.inputs) (f := fun held => held.input.rows F) h.recorded
  constructor
  · intro hall
    have heq : a.results.size = a.inputs.size := hsize.mpr hall
    obtain ⟨-, hrows⟩ := @Desk.Genuine.collect_eq F ⟨a, []⟩ h version a.results.rows.flatten
      (by simp [Artifacts.collect, hv, heq])
    simp only [Artifacts.collect, hv, heq, ne_eq, not_true_eq_false, if_false]
    rw [hrows]
  · intro hc
    apply hsize.mp
    simp only [Artifacts.collect] at hc
    split at hc
    · cases hc
    · split at hc
      · cases hc
      · rename_i hne
        exact not_not.mp hne

theorem Artifacts.Genuine.collect_none (h : a.Genuine F) (hv : a.version = version)
    (hnot : ¬ ∀ k : Nat, (a.inputs[k]?).isSome → (a.results[k]?).isSome) :
    a.collect version = none := by
  cases hc : a.collect version with
  | none => rfl
  | some rows =>
      have heq := Desk.Genuine.collect_eq h hc
      rw [heq.2] at hc
      exact absurd ((h.collect_iff hv).mpr hc) hnot

end Recording

/-! ## The cluster pass and the local one -/

section Passes

variable {a : Artifacts} {version k : Nat} {attempt : Nat → Attempt}

/-- The rows the registered inputs reduce to, in partition order. -/
def Artifacts.expected (F : Floating) (a : Artifacts) : List Materialised :=
  (a.inputs.rows.map Held.input).flatMap (Input.rows F)

/-- What a pass leaves: the same candidate, genuine, with these partitions recorded. -/
structure Left (F : Floating) (a b : Artifacts) (recorded : Nat → Prop) : Prop where
  same : a.Same b
  genuine : b.Genuine F
  recorded_iff : ∀ k : Nat, (b.results[k]?).isSome ↔ recorded k

/-- Looking at the store until every partition is back either collects the expected rows, every
partition then having a result among those that arrived, or leaves all that arrived recorded. -/
theorem poll_left (h : a.Genuine F) (hv : a.version = version) (rounds : List (List Arrival)) :
    ((poll F version a rounds).2 = some (a.expected F) ∧
        ∀ k : Nat, (a.inputs[k]?).isSome →
          (a.results[k]?).isSome ∨ ∃ r ∈ rounds.flatten, a.Fits F k r) ∨
      ((poll F version a rounds).2 = none ∧
        Left F a (poll F version a rounds).1 fun k =>
          (a.results[k]?).isSome ∨ ∃ r ∈ rounds.flatten, a.Fits F k r) := by
  induction rounds generalizing a with
  | nil => exact .inr ⟨rfl, .refl a, h, by simp [poll]⟩
  | cons arrivals rounds ih =>
      have hsame : a.Same (a.takeIn F arrivals) := a.takeIn_same arrivals
      have hgen := h.takeIn arrivals
      have hv' : (a.takeIn F arrivals).version = version := hsame.version.trans hv
      have hexp : (a.takeIn F arrivals).expected F = a.expected F := by
        simp only [Artifacts.expected, hsame.inputs]
      have hrec := a.takeIn_recorded (F := F) arrivals
      simp only [poll]
      by_cases hall : ∀ k : Nat, ((a.takeIn F arrivals).inputs[k]?).isSome →
          ((a.takeIn F arrivals).results[k]?).isSome
      · rw [(hgen.collect_iff hv').mp hall]
        refine .inl ⟨congrArg some hexp, ?_⟩
        intro k hk
        have hk' := (hrec k).mp (hall k (by rw [hsame.inputs]; exact hk))
        rcases hk' with hk' | ⟨r, hr, hfits⟩
        · exact .inl hk'
        · exact .inr ⟨r, List.mem_append_left _ hr, hfits⟩
      · rw [hgen.collect_none hv' hall]
        have ih := ih hgen hv'
        simp only [hexp, hrec, hsame.fits, hsame.inputs, or_assoc] at ih
        simp only [List.flatten_cons, List.mem_append, or_and_right, exists_or]
        rcases ih with ⟨hpoll, hcover⟩ | ⟨hpoll, hleft⟩
        · exact .inl ⟨hpoll, hcover⟩
        · exact .inr ⟨hpoll, hsame.trans hleft.same, hleft.genuine, hleft.recorded_iff⟩

/-- A partition the local pass comes to and produces: nothing before it stops the pass. -/
def Reached (attempt : Nat → Attempt) (k : Nat) : List Nat → Prop
  | [] => False
  | part :: parts =>
      (part = k ∧ attempt part = .produced) ∨ (attempt part ≠ .panicked ∧ Reached attempt k parts)

theorem reached_range' (start n : Nat) :
    Reached attempt k (List.range' start n) ↔
      start ≤ k ∧ k < start + n ∧ attempt k = .produced ∧
        ∀ j, start ≤ j → j < k → attempt j ≠ .panicked := by
  induction n generalizing start with
  | zero =>
      simp only [List.range'_zero, Reached, false_iff]
      omega
  | succ n ih =>
      simp only [List.range'_succ, Reached, ih]
      constructor
      · rintro (⟨rfl, hk⟩ | ⟨hstart, hle, hlt, hk, hbefore⟩)
        · exact ⟨Nat.le_refl _, by omega, hk, fun j hj hj' => by omega⟩
        · refine ⟨by omega, by omega, hk, ?_⟩
          intro j hj hjk
          by_cases hjs : j = start
          · rw [hjs]
            exact hstart
          · exact hbefore j (by omega) hjk
      · rintro ⟨hle, hlt, hk, hbefore⟩
        by_cases hstart : start = k
        · exact .inl ⟨hstart, by rw [hstart]; exact hk⟩
        · refine .inr ⟨hbefore start (Nat.le_refl _) (by omega), by omega, by omega, hk, ?_⟩
          exact fun j hj hjk => hbefore j (by omega) hjk

/-- The local pass over registered partitions records those it reaches and produces. -/
theorem attemptAll_left (h : a.Genuine F) (hv : a.version = version)
    (halg : a.algorithm = algorithmVersion) {parts : List Nat}
    (hreg : ∀ part ∈ parts, (a.inputs[part]?).isSome) :
    Left F a (attemptAll F version attempt a parts) fun k =>
      (a.results[k]?).isSome ∨ Reached attempt k parts := by
  induction parts generalizing a with
  | nil => exact ⟨.refl a, h, by simp [attemptAll, Reached]⟩
  | cons part parts ih =>
      obtain ⟨held, hheld⟩ := Option.isSome_iff_exists.mp (hreg part List.mem_cons_self)
      have hregd : a.registered version algorithmVersion part = some held := by
        simp [Artifacts.registered, hv, halg, hheld]
      have hrest : ∀ part ∈ parts, (a.inputs[part]?).isSome :=
        fun part hpart => hreg part (List.mem_cons_of_mem _ hpart)
      simp only [attemptAll, hregd]
      cases hatt : attempt part with
      | panicked => exact ⟨.refl a, h, by simp [Reached, hatt]⟩
      | undecodable =>
          have := ih h hv halg hrest
          exact ⟨this.same, this.genuine, by simpa [Reached, hatt] using this.recorded_iff⟩
      | missing =>
          have := ih h hv halg hrest
          exact ⟨this.same, this.genuine, by simpa [Reached, hatt] using this.recorded_iff⟩
      | produced =>
          let r : Arrival := ⟨version, algorithmVersion, part, held.input.rows F⟩
          have hsame : a.Same (a.finish F r.version r.algorithm r.part r.rows) :=
            a.finish_same _ _ _ _
          have hfits : ∀ k, a.Fits F k r ↔ part = k := by
            intro k
            constructor
            · exact fun hf => hf.2.2.1
            · rintro rfl
              exact ⟨hv, halg, rfl, held, hheld, rfl⟩
          have hgen : (a.finish F r.version r.algorithm r.part r.rows).Genuine F := h.finish
          have hleft := ih hgen (hsame.version.trans hv) (hsame.algorithm.trans halg)
            (by rw [hsame.inputs]; exact hrest)
          refine ⟨hsame.trans hleft.same, hleft.genuine, ?_⟩
          intro k
          rw [hleft.recorded_iff, a.finish_recorded, hfits]
          simp only [Reached, hatt, and_true, ne_eq, reduceCtorEq, not_false_eq_true, true_and,
            or_assoc]

end Passes

/-! ## One region -/

section Region

variable {a : Artifacts} {version k : Nat} {inputs : List Input} {p : Pass}

/-- The numbers that name a partition: one for each input, as far as 32 bits go. -/
theorem isSome_positioned : ((positioned inputs)[k]?).isSome ↔ k < inputs.length ∧ k < 2 ^ 32 := by
  induction inputs using List.reverseRecOn with
  | nil => simp [positioned]
  | append_singleton inputs input ih =>
      rw [positioned_concat, Table.get_insert, List.length_append, List.length_singleton]
      split
      · simp only [Option.isSome_some, true_iff]
        omega
      · rw [ih]
        omega

theorem size_positioned : (positioned inputs).size = min inputs.length (2 ^ 32) := by
  induction inputs using List.reverseRecOn with
  | nil => rfl
  | append_singleton inputs input ih =>
      have hmem : (positioned inputs).contains (inputs.length % 2 ^ 32) =
          decide (2 ^ 32 ≤ inputs.length) := by
        rw [Table.contains_eq_isSome, Bool.eq_iff_iff, isSome_positioned, decide_eq_true_eq]
        omega
      rw [positioned_concat, Std.TreeMap.size_insert, hmem, ih, List.length_append,
        List.length_singleton]
      simp only [decide_eq_true_eq]
      split <;> omega

theorem mem_of_positioned {input : Input} (h : (positioned inputs)[k]? = some input) :
    input ∈ inputs := by
  induction inputs using List.reverseRecOn with
  | nil => simp [positioned] at h
  | append_singleton inputs last ih =>
      rw [positioned_concat, Table.get_insert] at h
      split at h
      · obtain rfl := Option.some.inj h
        simp
      · exact List.mem_append_left _ (ih h)

/-- A worker's result that is of this candidate's partition and exactly what its input reduces to. -/
def Arrival.IsOf (F : Floating) (version : Nat) (inputs : List Input) (part : Nat) (r : Arrival) :
    Prop :=
  r.version = version ∧ r.algorithm = algorithmVersion ∧ r.part = part ∧
    ∃ input, (positioned inputs)[part]? = some input ∧ r.rows = input.rows F

/-- A partition whose rows come back: a worker's result for it arrives, while the cluster is waited
for or later, or the local materialiser comes to it and produces it. -/
def Pass.Supplies (F : Floating) (version : Nat) (inputs : List Input) (p : Pass) (part : Nat) :
    Prop :=
  (p.takers = true ∧ p.accepted = true ∧ ∃ r ∈ p.rounds.flatten, r.IsOf F version inputs part) ∨
    (∃ r ∈ p.late, r.IsOf F version inputs part) ∨
    (part < min inputs.length (2 ^ 32) % 2 ^ 32 ∧ p.attempt part = .produced ∧
      ∀ j < part, p.attempt j ≠ .panicked)

/-- A candidate registered under a version. -/
structure Artifacts.Opened (a : Artifacts) (version : Nat) (inputs : List Input) : Prop where
  version : a.version = version
  algorithm : a.algorithm = algorithmVersion
  positioned : ∀ k : Nat, a.inputs[k]?.map Held.input = (Server.positioned inputs)[k]?
  size : a.inputs.size = (Server.positioned inputs).size
  rows : a.inputs.rows.map Held.input = partitionsOf inputs

namespace Artifacts.Opened

theorem begin' (a : Artifacts) (version : Nat) (inputs : List Input) :
    (a.begin' version algorithmVersion inputs).Opened version inputs :=
  ⟨rfl, rfl, (enumerated_positioned _ inputs).2, (enumerated_positioned _ inputs).1,
    rows_enumerated _ inputs⟩

theorem same {b : Artifacts} (h : a.Opened version inputs) (hs : a.Same b) :
    b.Opened version inputs :=
  ⟨hs.version.trans h.version, hs.algorithm.trans h.algorithm, by rw [hs.inputs]; exact h.positioned,
    by rw [hs.inputs]; exact h.size, by rw [hs.inputs]; exact h.rows⟩

theorem registered (h : a.Opened version inputs) (k : Nat) :
    (a.inputs[k]?).isSome ↔ ((Server.positioned inputs)[k]?).isSome := by
  rw [← h.positioned, Option.isSome_map]

theorem fits (h : a.Opened version inputs) {r : Arrival} :
    a.Fits F k r ↔ r.IsOf F version inputs k := by
  simp only [Artifacts.Fits, Arrival.IsOf, h.version, h.algorithm, ← h.positioned,
    Option.map_eq_some_iff, exists_exists_and_eq_and, @eq_comm _ version, @eq_comm _ algorithmVersion]

theorem expected (h : a.Opened version inputs) :
    a.expected F = (partitionsOf inputs).flatMap (Input.rows F) := by
  rw [Artifacts.expected, h.rows]

end Artifacts.Opened

/-- A newly registered candidate is genuine whatever the store held. -/
theorem Artifacts.genuine_begin (a : Artifacts) (version : Nat) (inputs : List Input) :
    (a.begin' version algorithmVersion inputs).Genuine F := by
  refine ⟨by simp [Artifacts.begin'], by simp, by simp, ?_⟩
  intro k held hk
  obtain ⟨-, hlt, hin⟩ := get_enumerated hk
  refine ⟨by simpa [Artifacts.begin'] using hlt, ?_⟩
  intro j held' hj hptr
  obtain ⟨-, -, hin'⟩ := get_enumerated hj
  rw [hptr, hin] at hin'
  exact (Option.some.inj hin').symm

theorem expected_ne_nil (hmarkets : ∀ input ∈ inputs, input.markets ≠ []) (hne : inputs ≠ []) :
    (partitionsOf inputs).flatMap (Input.rows F) ≠ [] := by
  have hzero : ((positioned inputs)[0]?).isSome :=
    isSome_positioned.mpr ⟨List.length_pos_iff.mpr hne, by decide⟩
  obtain ⟨input, hinput⟩ := Option.isSome_iff_exists.mp hzero
  intro hnil
  have hrows : input.rows F = [] :=
    List.flatMap_eq_nil_iff.mp hnil input (Table.mem_rows.mpr ⟨0, hinput⟩)
  exact hmarkets input (mem_of_positioned hinput) (by simpa [Input.rows] using hrows)

/-- The rows of one region: from the cluster, or from this process if it did not bring them. -/
def regionRows (F : Floating) (a : Artifacts) (version : Nat) (inputs : List Input) (p : Pass) :
    Artifacts × List Materialised :=
  match distribute F a version inputs p with
  | (a, some rows) => (a, rows)
  | (a, none) => localPass F a version p

/-- A partition whose rows come back in the local pass. -/
def Pass.Completes (F : Floating) (version : Nat) (inputs : List Input) (p : Pass) (part : Nat) :
    Prop :=
  (∃ r ∈ p.late, r.IsOf F version inputs part) ∨
    (part < min inputs.length (2 ^ 32) % 2 ^ 32 ∧ p.attempt part = .produced ∧
      ∀ j < part, p.attempt j ≠ .panicked)

/-- The local pass over a candidate answers with the expected rows if every partition is recorded by
the end of it, and with nothing otherwise. -/
theorem localPass_rows (h : a.Genuine F) (ho : a.Opened version inputs) :
    ((localPass F a version p).2 = (partitionsOf inputs).flatMap (Input.rows F) ∧
        ∀ k : Nat, ((positioned inputs)[k]?).isSome →
          (a.results[k]?).isSome ∨ p.Completes F version inputs k) ∨
      ((localPass F a version p).2 = [] ∧
        ¬ ∀ k : Nat, ((positioned inputs)[k]?).isSome →
          (a.results[k]?).isSome ∨ p.Completes F version inputs k) := by
  have hsize : a.inputs.size = min inputs.length (2 ^ 32) := ho.size.trans size_positioned
  have hreg : ∀ part ∈ List.range (a.inputs.size % 2 ^ 32), (a.inputs[part]?).isSome := by
    intro part hpart
    rw [List.mem_range, hsize] at hpart
    rw [ho.registered, isSome_positioned]
    omega
  have hleft := @attemptAll_left F a version p.attempt h ho.version ho.algorithm _ hreg
  let b := attemptAll F version p.attempt a (List.range (a.inputs.size % 2 ^ 32))
  let c := b.takeIn F p.late
  have hob : b.Opened version inputs := ho.same hleft.same
  have hsame : a.Same c := hleft.same.trans (b.takeIn_same p.late)
  have hgen : c.Genuine F := hleft.genuine.takeIn p.late
  have hoc : c.Opened version inputs := ho.same hsame
  have hrec : ∀ k : Nat, (c.results[k]?).isSome ↔
      (a.results[k]?).isSome ∨ p.Completes F version inputs k := by
    intro k
    rw [b.takeIn_recorded, hleft.recorded_iff]
    simp only [hob.fits, Pass.Completes, List.range_eq_range', reached_range', hsize, Nat.zero_le,
      true_and, Nat.zero_add, or_assoc, true_implies]
    exact or_congr_right or_comm
  have hrows : (localPass F a version p).2 = (c.collect version).getD [] := rfl
  rw [hrows]
  by_cases hall : ∀ k : Nat, (c.inputs[k]?).isSome → (c.results[k]?).isSome
  · left
    rw [(hgen.collect_iff hoc.version).mp hall, Option.getD_some]
    refine ⟨hoc.expected, ?_⟩
    intro k hk
    exact (hrec k).mp (hall k ((hoc.registered k).mpr hk))
  · right
    rw [hgen.collect_none hoc.version hall]
    refine ⟨rfl, fun hcomplete => hall ?_⟩
    intro k hk
    exact (hrec k).mpr (hcomplete k ((hoc.registered k).mp hk))

theorem localPass_whole_iff (h : a.Genuine F) (ho : a.Opened version inputs)
    (hne : (partitionsOf inputs).flatMap (Input.rows F) ≠ []) :
    (localPass F a version p).2 = (partitionsOf inputs).flatMap (Input.rows F) ↔
      ∀ k : Nat, ((positioned inputs)[k]?).isSome →
        (a.results[k]?).isSome ∨ p.Completes F version inputs k := by
  rcases localPass_rows (p := p) h ho with ⟨hrows, hall⟩ | ⟨hrows, hnot⟩
  · exact iff_of_true hrows hall
  · rw [hrows]
    exact iff_of_false (Ne.symm hne) hnot

/-- The rows of one region are those of all its partitions exactly when every partition's rows come
back. -/
theorem regionRows_whole_iff (hmarkets : ∀ input ∈ inputs, input.markets ≠ []) :
    (regionRows F a version inputs p).2 = (partitionsOf inputs).flatMap (Input.rows F) ↔
      ∀ k : Nat, ((positioned inputs)[k]?).isSome → p.Supplies F version inputs k := by
  by_cases hnil : inputs = []
  · subst hnil
    have hnone : ∀ k : Nat, ¬ ((positioned [])[k]?).isSome := by
      intro k hk
      exact absurd (isSome_positioned.mp hk).1 (Nat.not_lt_zero k)
    exact ⟨fun _ k hk => absurd hk (hnone k), fun _ => rfl⟩
  · have hne := @expected_ne_nil F inputs hmarkets hnil
    let b := a.begin' version algorithmVersion inputs
    have ho : b.Opened version inputs := .begin' a version inputs
    have hgen : b.Genuine F := a.genuine_begin version inputs
    have hfresh : ∀ k : Nat, ¬ (b.results[k]?).isSome := by
      intro k
      simp [b, Artifacts.begin']
    by_cases hcluster : p.takers = true ∧ p.accepted = true
    · have hdist : distribute F a version inputs p = poll F version b p.rounds := by
        simp [distribute, hnil, hcluster, b]
      rcases poll_left hgen ho.version p.rounds with ⟨hpoll, hall⟩ | ⟨hpoll, hleft⟩
      · have hrows : (regionRows F a version inputs p).2 = b.expected F := by
          rw [regionRows, hdist, show poll F version b p.rounds = (_, _) from rfl, hpoll]
        rw [hrows, ho.expected]
        refine ⟨fun _ k hk => .inl ⟨hcluster.1, hcluster.2, ?_⟩, fun _ => rfl⟩
        have hk' := (hall k ((ho.registered k).mpr hk)).resolve_left (hfresh k)
        simpa only [ho.fits] using hk'
      · have hrows : regionRows F a version inputs p =
            localPass F (poll F version b p.rounds).1 version p := by
          rw [regionRows, hdist, show poll F version b p.rounds = (_, _) from rfl, hpoll]
        rw [hrows, localPass_whole_iff hleft.genuine (ho.same hleft.same) hne]
        simp only [hleft.recorded_iff, hfresh, Bool.false_eq_true, false_or, ho.fits, Pass.Supplies,
          Pass.Completes, hcluster.1, hcluster.2, true_and]
    · have hdist : distribute F a version inputs p = (b, none) := by
        have hoff : (!p.takers || !p.accepted) = true := by
          rw [not_and_or] at hcluster
          simpa using hcluster
        simp [distribute, hnil, hoff, b]
      have hrows : regionRows F a version inputs p = localPass F b version p := by
        rw [regionRows, hdist]
      have hnot : ∀ Q : Prop, ¬ (p.takers = true ∧ p.accepted = true ∧ Q) :=
        fun Q h => hcluster ⟨h.1, h.2.1⟩
      rw [hrows, localPass_whole_iff hgen ho hne]
      simp only [hfresh, Bool.false_eq_true, false_or, Pass.Supplies, Pass.Completes, hnot]

end Region

/-! ## A whole run -/

/-- The partitions of one region's pass, once its queries have answered. -/
def Pass.inputs (owners : List (ItemId × Catalog)) (fallback : Catalog) (now : Millis) (p : Pass) :
    List Input :=
  match p.history, p.ladders with
  | .ok history, .ok ladders => inputsOf owners fallback now p.region history ladders
  | _, _ => []

/-- What is staged for a region are the results of all of its partitions. -/
def Pass.WholeWith (F : Floating) (owners : List (ItemId × Catalog)) (fallback : Catalog)
    (now : Millis) (p : Pass) (rows : List Materialised) : Prop :=
  rows = (partitionsOf (p.inputs owners fallback now)).flatMap (Input.rows F)

/-- Nothing a region's pass asks the store for fails. -/
def Pass.Answered (p : Pass) : Prop :=
  (∃ history, p.history = .ok history) ∧ (∃ ladders, p.ladders = .ok ladders) ∧ p.staging = .ok ()

/-- Every partition of the region comes back. -/
def Pass.Supplied (F : Floating) (owners : List (ItemId × Catalog)) (fallback : Catalog)
    (version : Nat) (now : Millis) (p : Pass) : Prop :=
  ∀ part < min (p.inputs owners fallback now).length (2 ^ 32),
    p.Supplies F version (p.inputs owners fallback now) part

/-- What the run promises: without a candidate there was none to open; a candidate that was opened is
abandoned, or `publish` is called with every commodity region staged whole. -/
def Ending.Sound (F : Floating) (w : Conditions) : Ending → Prop
  | .noCandidate =>
      w.fallback = none ∨ (w.commodity = [] ∧ w.perRealm = []) ∨ ∃ e, w.opened = .error e
  | .abandoned _ => True
  | .published _ staged _ =>
      staged.map Prod.fst = w.commodity ∧
        ∀ fallback, w.fallback = some fallback → ∀ s ∈ staged,
          s.1.WholeWith F w.owners fallback w.now s.2

section Run

variable {a : Artifacts} {owners : List (ItemId × Catalog)} {fallback : Catalog} {version : Nat}
  {now : Millis} {p : Pass} {passes : List Pass} {staged : List (Pass × List Materialised)}

/-- A region's pass succeeds with the rows of the region exactly when nothing it asks for fails. -/
theorem commodityRegion_ok (hp : p.Answered) :
    (commodityRegion F owners fallback version now a p).2 =
      .ok (regionRows F a version (p.inputs owners fallback now) p).2 := by
  obtain ⟨⟨history, hhistory⟩, ⟨ladders, hladders⟩, hstaging⟩ := hp
  simp only [commodityRegion, Pass.inputs, hhistory, hladders, hstaging]
  rfl

theorem commodityRegion_error (hp : ¬ p.Answered) :
    ∃ e, (commodityRegion F owners fallback version now a p).2 = .error e := by
  simp only [commodityRegion]
  cases hhistory : p.history with
  | error e => exact ⟨e, rfl⟩
  | ok history =>
      cases hladders : p.ladders with
      | error e => exact ⟨e, rfl⟩
      | ok ladders =>
          cases hstaging : p.staging with
          | error e => exact ⟨e, rfl⟩
          | ok _ => exact absurd ⟨⟨history, hhistory⟩, ⟨ladders, hladders⟩, hstaging⟩ hp

/-- What was staged for a region are rows its pass produced from some state of the store. -/
def Staged (F : Floating) (owners : List (ItemId × Catalog)) (fallback : Catalog) (version : Nat)
    (now : Millis) (s : Pass × List Materialised) : Prop :=
  ∃ a, s.2 = (regionRows F a version (s.1.inputs owners fallback now) s.1).2

/-- The regions are all staged if nothing fails, and the run of them stops otherwise. -/
theorem commodityRegions_spec (a : Artifacts) (passes : List Pass) :
    (∃ staged, (commodityRegions F owners fallback version now a passes).2 = .ok staged ∧
        staged.map Prod.fst = passes ∧ (∀ p ∈ passes, p.Answered) ∧
        ∀ s ∈ staged, Staged F owners fallback version now s) ∨
      ((∃ note, (commodityRegions F owners fallback version now a passes).2 = .error note) ∧
        ¬ ∀ p ∈ passes, p.Answered) := by
  induction passes generalizing a with
  | nil => exact .inl ⟨[], rfl, rfl, by simp, by simp⟩
  | cons p passes ih =>
      rcases hres : commodityRegion F owners fallback version now a p with ⟨b, out⟩
      by_cases hp : p.Answered
      · have hok := @commodityRegion_ok F a owners fallback version now p hp
        rw [hres] at hok
        obtain rfl : out = _ := hok
        rcases hrest : commodityRegions F owners fallback version now b passes with ⟨c, rest⟩
        have ih := ih b
        rw [hrest] at ih
        rcases ih with ⟨staged, rfl, hmap, hall, hrows⟩ | ⟨⟨note, rfl⟩, hnot⟩
        · refine .inl ⟨(p, (regionRows F a version (p.inputs owners fallback now) p).2) :: staged,
            by simp only [commodityRegions, hres, hrest], by rw [List.map_cons, hmap], ?_, ?_⟩
          · exact List.forall_mem_cons.mpr ⟨hp, hall⟩
          · exact List.forall_mem_cons.mpr ⟨⟨a, rfl⟩, hrows⟩
        · exact .inr ⟨⟨note, by simp only [commodityRegions, hres, hrest]⟩,
            fun hall => hnot fun p' hp' => hall p' (List.mem_cons_of_mem _ hp')⟩
      · obtain ⟨e, he⟩ := @commodityRegion_error F a owners fallback version now p hp
        rw [hres] at he
        obtain rfl : out = _ := he
        exact .inr ⟨⟨noteOf "commodity".toList p.region e, by simp only [commodityRegions, hres]⟩,
          fun hall => hp (hall p List.mem_cons_self)⟩

theorem realmRegions_ok_iff {regions : List (Region × Except Text Unit)} :
    realmRegions regions = .ok () ↔ ∀ r ∈ regions, r.2 = .ok () := by
  induction regions with
  | nil => simp [realmRegions]
  | cons r regions ih =>
      obtain ⟨region, outcome⟩ := r
      cases outcome with
      | error e => simp [realmRegions]
      | ok _ => simp [realmRegions, ih]

/-- What a pass stages is whole exactly when every partition of its region comes back. -/
theorem wholeWith_iff {s : Pass × List Materialised} (hs : Staged F owners fallback version now s) :
    s.1.WholeWith F owners fallback now s.2 ↔ s.1.Supplied F owners fallback version now := by
  obtain ⟨a, hrows⟩ := hs
  have hmarkets : ∀ input ∈ s.1.inputs owners fallback now, input.markets ≠ [] := by
    unfold Pass.inputs
    split
    · rename_i history ladders _ _
      obtain ⟨inputs, hinputs, hne⟩ := @partition_nonempty s.1.region ladders
        (ownerOf owners fallback) (windowsOf owners fallback) now history
      rw [inputsOf, hinputs]
      exact hne
    · simp
  rw [Pass.WholeWith, hrows, regionRows_whole_iff hmarkets]
  simp only [Pass.Supplied, isSome_positioned, Nat.lt_min]

/-- Once a candidate is open and nothing fails, `publish` is called on what every region's pass
staged. -/
theorem publish_published {w : Conditions} (hfallback : w.fallback = some fallback)
    (hnone : ¬ (w.commodity.isEmpty && w.perRealm.isEmpty) = true) (hopened : w.opened = .ok version)
    (hall : ∀ p ∈ w.commodity, p.Answered) (hrealms : ∀ r ∈ w.perRealm, r.2 = .ok ()) :
    ∃ staged failed, (publish F a w).2 = .published version staged failed ∧
      staged.map Prod.fst = w.commodity ∧
      ∀ s ∈ staged, Staged F w.owners fallback version w.now s := by
  rcases hres : commodityRegions F w.owners fallback version w.now a w.commodity with ⟨b, out⟩
  have hspec := @commodityRegions_spec F w.owners fallback version w.now a w.commodity
  rw [hres] at hspec
  rcases hspec with ⟨staged, rfl, hmap, -, hrows⟩ | ⟨-, hnot⟩
  · have hrealm := realmRegions_ok_iff.mpr hrealms
    cases hpub : w.publishing with
    | ok _ =>
        refine ⟨staged, none, ?_, hmap, hrows⟩
        simp [publish, hfallback, hnone, hopened, hres, hrealm, hpub]
    | error e =>
        refine ⟨staged, some ("publish failed: ".toList ++ e), ?_, hmap, hrows⟩
        simp [publish, hfallback, hnone, hopened, hres, hrealm, hpub]
  · exact absurd hall hnot

/-- Whatever fails after the candidate is open, it is abandoned. -/
theorem publish_abandoned {w : Conditions} (hfallback : w.fallback = some fallback)
    (hnone : ¬ (w.commodity.isEmpty && w.perRealm.isEmpty) = true) (hopened : w.opened = .ok version)
    (hnot : ¬ ((∀ p ∈ w.commodity, p.Answered) ∧ ∀ r ∈ w.perRealm, r.2 = .ok ())) :
    ∃ note, (publish F a w).2 = .abandoned note := by
  rcases hres : commodityRegions F w.owners fallback version w.now a w.commodity with ⟨b, out⟩
  have hspec := @commodityRegions_spec F w.owners fallback version w.now a w.commodity
  rw [hres] at hspec
  rcases hspec with ⟨staged, rfl, -, hall, -⟩ | ⟨⟨note, rfl⟩, -⟩
  · cases hrealm : realmRegions w.perRealm with
    | ok _ => exact absurd ⟨hall, realmRegions_ok_iff.mp hrealm⟩ hnot
    | error note => exact ⟨note, by simp [publish, hfallback, hnone, hopened, hres, hrealm]⟩
  · exact ⟨note, by simp [publish, hfallback, hnone, hopened, hres]⟩

/-- A published run is sound exactly when every partition of every region came back. -/
theorem sound_published_iff {w : Conditions} {failed : Option Text}
    (hfallback : w.fallback = some fallback) (hmap : staged.map Prod.fst = w.commodity)
    (hrows : ∀ s ∈ staged, Staged F w.owners fallback version w.now s) :
    (Ending.published version staged failed).Sound F w ↔
      ∀ p ∈ w.commodity, p.Supplied F w.owners fallback version w.now := by
  have hwhole : (∀ s ∈ staged, s.1.WholeWith F w.owners fallback w.now s.2) ↔
      ∀ p ∈ w.commodity, p.Supplied F w.owners fallback version w.now := by
    rw [← hmap, List.forall_mem_map]
    exact forall₂_congr fun s hs => wholeWith_iff (hrows s hs)
  rw [← hwhole]
  constructor
  · exact fun hsound => hsound.2 fallback hfallback
  · intro hall
    refine ⟨hmap, fun other hother => ?_⟩
    obtain rfl := Option.some.inj (hfallback.symm.trans hother)
    exact hall

/-- A run keeps its promise exactly when, in case nothing it asks for fails, every partition of every
commodity region comes back: from the cluster, or from the local materialiser. -/
theorem publish_sound_iff (F : Floating) (a : Artifacts) (w : Conditions) :
    (publish F a w).2.Sound F w ↔
      ∀ fallback version, w.fallback = some fallback → w.opened = .ok version →
        (∀ p ∈ w.commodity, p.Answered) → (∀ r ∈ w.perRealm, r.2 = .ok ()) →
          ∀ p ∈ w.commodity, p.Supplied F w.owners fallback version w.now := by
  cases hfallback : w.fallback with
  | none => simp [publish, hfallback, Ending.Sound]
  | some fallback =>
      by_cases hnone : (w.commodity.isEmpty && w.perRealm.isEmpty) = true
      · have hboth : w.commodity = [] ∧ w.perRealm = [] := by simpa using hnone
        simp [publish, hfallback, Ending.Sound, hboth]
      · cases hopened : w.opened with
        | error e => simp [publish, hfallback, hnone, hopened, Ending.Sound]
        | ok version =>
            by_cases hgood : (∀ p ∈ w.commodity, p.Answered) ∧ ∀ r ∈ w.perRealm, r.2 = .ok ()
            · obtain ⟨staged, failed, hend, hmap, hrows⟩ :=
                @publish_published F a fallback version w hfallback hnone hopened hgood.1 hgood.2
              rw [hend, sound_published_iff hfallback hmap hrows]
              constructor
              · rintro hall _ _ ⟨rfl⟩ ⟨rfl⟩ - -
                exact hall
              · intro hall
                exact hall fallback version rfl rfl hgood.1 hgood.2
            · obtain ⟨note, hend⟩ :=
                @publish_abandoned F a fallback version w hfallback hnone hopened hgood
              rw [hend]
              refine iff_of_true trivial ?_
              intro _ _ _ _ hall hrealms
              exact absurd ⟨hall, hrealms⟩ hgood

/-- A region with one flask on sale and nobody to take the work. -/
def alone (attempt : Nat → Attempt) : Pass :=
  ⟨.eu, .ok [hundred 7 hourMs], .ok ∅, false, true, [], attempt, [], .ok ()⟩

/-- A run over that region. -/
def aloneRun (attempt : Nat → Attempt) : Conditions :=
  ⟨[(7, flasks)], some flasks, .ok 1, 2 * hourMs, [alone attempt], [], .ok ()⟩

/-- The local materialiser stops on the only partition, and the empty region is published. -/
theorem publish_incomplete :
    ¬ (publish ⟨fun _ _ => 0, fun _ _ => none⟩ Artifacts.new (aloneRun fun _ => .panicked)).2.Sound
      ⟨fun _ _ => 0, fun _ _ => none⟩ (aloneRun fun _ => .panicked) := by
  have hall : ∀ p ∈ (aloneRun fun _ => .panicked).commodity, p.Answered := by
    intro p hp
    obtain rfl := List.mem_singleton.mp hp
    exact ⟨⟨_, rfl⟩, ⟨_, rfl⟩, rfl⟩
  obtain ⟨staged, failed, hend, hmap, hrows⟩ :=
    publish_published (a := Artifacts.new) rfl (by decide) rfl hall (by simp [aloneRun])
  rw [hend, sound_published_iff rfl hmap hrows]
  intro hsupplied
  have hpart := hsupplied _ List.mem_cons_self 0 (by decide)
  simp [Pass.Supplies, alone] at hpart

end Run

end Gavel.Server
