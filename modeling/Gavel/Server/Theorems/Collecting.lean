import Gavel.Lib.Run
import Gavel.Server.Theorems.Partition
import Mathlib.Data.List.Induction

/-!
# Only genuine results are collected

Whatever is handed to the store, and in whatever order results are checked and recorded, the rows it
collects are those its registered inputs reduce to.
-/

namespace Gavel.Server

open Gavel.Cluster (TaskSpec)
open Gavel.Market

variable {F : Floating} {decode : List UInt8 → Option (List Materialised)}

/-! ## What a candidate registers -/

section Registering

variable {inputs : List Input} {input : Input} {fresh k : Nat} {held : Held}

/-- The inputs under their positions, as 32-bit numbers. -/
def positioned (inputs : List Input) : Table Input :=
  inputs.zipIdx.foldl (fun m i => m.insert (i.2 % 2 ^ 32) i.1) ∅

/-- The registered inputs in partition order. -/
def partitionsOf (inputs : List Input) : List Input := (positioned inputs).rows

theorem positioned_concat : positioned (inputs ++ [input]) =
    (positioned inputs).insert (inputs.length % 2 ^ 32) input := by
  simp [positioned, List.zipIdx_append]

theorem enumerated_concat : Artifacts.enumerated fresh (inputs ++ [input]) =
    (Artifacts.enumerated fresh inputs).insert (inputs.length % 2 ^ 32)
      ⟨fresh + inputs.length, input⟩ := by
  simp [Artifacts.enumerated, List.zipIdx_append]

/-- Up to as many inputs as there are partition numbers, all of them are registered, in order. -/
theorem partitionsOf_eq (h : inputs.length ≤ 2 ^ 32) : partitionsOf inputs = inputs := by
  apply Table.rows_eq_of_get
  intro k
  induction inputs using List.reverseRecOn with
  | nil => simp [positioned]
  | append_singleton inputs input ih =>
      have hlen : inputs.length < 2 ^ 32 := by
        simp only [List.length_append, List.length_singleton] at h
        omega
      rw [positioned_concat, Table.get_insert, ih (Nat.le_of_lt hlen), Nat.mod_eq_of_lt hlen,
        List.getElem?_append]
      grind

theorem enumerated_positioned (fresh : Nat) (inputs : List Input) :
    (Artifacts.enumerated fresh inputs).size = (positioned inputs).size ∧
      ∀ k : Nat, (Artifacts.enumerated fresh inputs)[k]?.map Held.input = (positioned inputs)[k]? := by
  induction inputs using List.reverseRecOn with
  | nil => simp [positioned, Artifacts.enumerated]
  | append_singleton inputs input ih =>
      obtain ⟨hsize, hget⟩ := ih
      rw [positioned_concat, enumerated_concat]
      constructor
      · have hmem : (Artifacts.enumerated fresh inputs).contains (inputs.length % 2 ^ 32) =
            (positioned inputs).contains (inputs.length % 2 ^ 32) := by
          rw [Table.contains_eq_isSome, Table.contains_eq_isSome, ← hget, Option.isSome_map]
        simp only [Std.TreeMap.size_insert, Std.TreeMap.contains_iff_mem, hmem, hsize]
      · intro k
        rw [Table.get_insert, Table.get_insert, ← hget]
        split <;> rfl

theorem rows_enumerated (fresh : Nat) (inputs : List Input) :
    (Artifacts.enumerated fresh inputs).rows.map Held.input = partitionsOf inputs := by
  obtain ⟨hsize, hget⟩ := enumerated_positioned fresh inputs
  symm
  apply Table.rows_eq_map
  · intro k w hw
    rw [← hget, Option.map_eq_some_iff] at hw
    obtain ⟨held, hheld, rfl⟩ := hw
    exact ⟨held, hheld, rfl⟩
  · exact hsize.symm

/-- A shared input carries a pointer of its registration, and the pointer says which input it is. -/
theorem get_enumerated (h : (Artifacts.enumerated fresh inputs)[k]? = some held) :
    fresh ≤ held.ptr ∧ held.ptr < fresh + inputs.length ∧
      inputs[held.ptr - fresh]? = some held.input := by
  induction inputs using List.reverseRecOn generalizing held with
  | nil => simp [Artifacts.enumerated] at h
  | append_singleton inputs input ih =>
      rw [enumerated_concat, Table.get_insert] at h
      split at h
      · obtain rfl := Option.some.inj h
        simp
      · obtain ⟨hle, hlt, hin⟩ := ih h
        refine ⟨hle, ?_, ?_⟩
        · simp only [List.length_append, List.length_singleton]
          omega
        · rw [List.getElem?_append_left (by omega)]
          exact hin

end Registering

/-! ## What the store keeps -/

/-- Every recorded result is what its registered input reduces to; every checked one is what the
input it was checked against reduces to, and no other registered input has that input's pointer. -/
structure Desk.Genuine (F : Floating) (d : Desk) : Prop where
  recorded : ∀ (k : Nat) rows, d.store.results[k]? = some rows →
    ∃ held, d.store.inputs[k]? = some held ∧ rows = held.input.rows F
  checked : ∀ c ∈ d.pending, c.rows = c.held.input.rows F ∧ c.held.ptr < d.store.fresh
  pointed : ∀ c ∈ d.pending, ∀ (k : Nat) held, d.store.inputs[k]? = some held →
    held.ptr = c.held.ptr → held.input = c.held.input
  shared : ∀ (k : Nat) held, d.store.inputs[k]? = some held → held.ptr < d.store.fresh ∧
    ∀ (j : Nat) held', d.store.inputs[j]? = some held' → held'.ptr = held.ptr →
      held'.input = held.input

namespace Desk.Genuine

variable {d : Desk}

theorem new : Genuine F Desk.new :=
  ⟨by simp [Desk.new, Artifacts.new], by simp [Desk.new], by simp [Desk.new],
    by simp [Desk.new, Artifacts.new]⟩

/-- A new candidate has no results, and its pointers are none of those checked before. -/
theorem begin' (h : Genuine F d) (version algorithm : Nat) (inputs : List Input) :
    Genuine F { d with store := d.store.begin' version algorithm inputs } := by
  constructor
  · intro k rows hk
    simp [Artifacts.begin'] at hk
  · intro c hc
    obtain ⟨hrows, hlt⟩ := h.checked c hc
    refine ⟨hrows, ?_⟩
    simp only [Artifacts.begin']
    omega
  · intro c hc k held hk hptr
    obtain ⟨hle, -, -⟩ := get_enumerated hk
    have hlt := (h.checked c hc).2
    omega
  · intro k held hk
    obtain ⟨hle, hlt, hin⟩ := get_enumerated hk
    refine ⟨by simpa [Artifacts.begin'] using hlt, ?_⟩
    intro j held' hj hptr
    obtain ⟨-, -, hin'⟩ := get_enumerated hj
    rw [hptr, hin] at hin'
    exact (Option.some.inj hin').symm

/-- A checked result was checked against a registered input. -/
theorem check_eq {version algorithm part : Nat} {rows : List Materialised} {c : Checked}
    (h : d.store.check F version algorithm part rows = some c) :
    c.rows = c.held.input.rows F ∧ c.part = part ∧ d.store.inputs[part]? = some c.held := by
  simp only [Artifacts.check, Artifacts.registered, Option.bind_eq_bind, Option.bind_eq_some_iff] at h
  obtain ⟨held, hheld, hc⟩ := h
  split at hheld
  · cases hheld
  · split at hc
    · cases hc
    · rename_i hrows
      obtain rfl := Option.some.inj hc
      exact ⟨not_not.mp hrows, rfl, hheld⟩

theorem push (h : Genuine F d) {version algorithm part : Nat} {rows : List Materialised}
    {c : Checked} (hc : d.store.check F version algorithm part rows = some c) :
    Genuine F { d with pending := d.pending ++ [c] } := by
  obtain ⟨hrows, -, hheld⟩ := check_eq hc
  constructor
  · exact h.recorded
  · intro c' hc'
    rcases List.mem_append.mp hc' with hc' | hc'
    · exact h.checked c' hc'
    · rw [List.mem_singleton.mp hc']
      exact ⟨hrows, (h.shared part c.held hheld).1⟩
  · intro c' hc'
    rcases List.mem_append.mp hc' with hc' | hc'
    · exact h.pointed c' hc'
    · rw [List.mem_singleton.mp hc']
      exact (h.shared part c.held hheld).2
  · exact h.shared

theorem produced (h : Genuine F d) (spec : TaskSpec) (bytes : List UInt8) :
    Genuine F (d.produced F decode spec bytes) := by
  unfold Desk.produced
  split
  · split
    · rename_i rows _
      rename_i version algorithm part _ _
      cases hc : d.store.check F version algorithm part rows with
      | none => simpa using h
      | some c => exact h.push hc
    · exact h
  · exact h

/-- Recording a checked result keeps every result genuine: the input under its number is the one it
was checked against, because it has the same pointer. -/
theorem record (h : Genuine F d) (i : Nat) : Genuine F (d.record i) := by
  unfold Desk.record
  split
  · rename_i c hc
    have hmem : c ∈ d.pending := List.mem_of_getElem? hc
    have hsub : ∀ c' ∈ d.pending.eraseIdx i, c' ∈ d.pending :=
      fun c' hc' => List.mem_of_mem_eraseIdx hc'
    simp only [Artifacts.record]
    split
    · exact ⟨h.recorded, fun c' hc' => h.checked c' (hsub c' hc'),
        fun c' hc' => h.pointed c' (hsub c' hc'), h.shared⟩
    · rename_i hsame
      refine ⟨?_, fun c' hc' => h.checked c' (hsub c' hc'),
        fun c' hc' => h.pointed c' (hsub c' hc'), h.shared⟩
      intro k rows hk
      rw [Table.get_insert] at hk
      split at hk
      · rename_i heq
        subst heq
        obtain rfl := Option.some.inj hk
        simp only [not_or, Bool.not_eq_true', Bool.not_eq_false, Option.any_eq_true,
          decide_eq_true_eq] at hsame
        obtain ⟨-, -, held, hheld, hptr⟩ := hsame
        refine ⟨held, hheld, ?_⟩
        rw [h.pointed c hmem _ held hheld hptr]
        exact (h.checked c hmem).1
      · exact h.recorded k rows hk
  · exact h

theorem step (h : Genuine F d) (call : Call) : Genuine F (d.step F decode call) := by
  cases call with
  | begin' version algorithm inputs => exact h.begin' version algorithm inputs
  | input spec => exact h
  | produced spec bytes => exact h.produced spec bytes
  | record i => exact h.record i
  | collect version => exact h

/-- A complete store collects what its registered inputs reduce to, in partition order. -/
theorem collect_eq (h : Genuine F d) {v : Nat} {rows : List Materialised}
    (hc : d.store.collect v = some rows) :
    d.store.version = v ∧ rows = (d.store.inputs.rows.map Held.input).flatMap (Input.rows F) := by
  simp only [Artifacts.collect] at hc
  split at hc
  · cases hc
  · rename_i hv
    split at hc
    · cases hc
    · rename_i hsize
      obtain rfl := Option.some.inj hc
      have hrows : d.store.results.rows =
          d.store.inputs.rows.map fun held => held.input.rows F :=
        Table.rows_eq_map h.recorded (not_not.mp hsize)
      refine ⟨not_not.mp hv, ?_⟩
      rw [hrows, List.flatMap_map, List.flatMap]

end Desk.Genuine

/-! ## The last candidate -/

/-- The version and the inputs of the last candidate begun, if any was. -/
def lastBegin (calls : List Call) : Option (Nat × List Input) :=
  calls.foldl (fun last call =>
    match call with
    | .begin' version _ inputs => some (version, inputs)
    | _ => last) none

/-- The store after some calls, from the empty one. -/
def Desk.after (F : Floating) (decode : List UInt8 → Option (List Materialised))
    (calls : List Call) : Desk :=
  Run.final (Desk.step F decode) Desk.new calls

/-- The store holds the version and the inputs of the last candidate. -/
def Desk.Holds (d : Desk) : Option (Nat × List Input) → Prop
  | none => d.store.version = 0 ∧ d.store.inputs.rows = []
  | some (version, inputs) =>
      d.store.version = version ∧ d.store.inputs.rows.map Held.input = partitionsOf inputs

/-- Only a new candidate changes the version and the registered inputs. -/
theorem Desk.record_frame (d : Desk) (i : Nat) :
    (d.record i).store.version = d.store.version ∧ (d.record i).store.inputs = d.store.inputs := by
  unfold Desk.record
  split
  · simp only [Artifacts.record]
    split <;> exact ⟨rfl, rfl⟩
  · exact ⟨rfl, rfl⟩

theorem Desk.produced_frame (d : Desk) (spec : TaskSpec) (bytes : List UInt8) :
    (d.produced F decode spec bytes).store = d.store := by
  unfold Desk.produced
  split
  · split <;> rfl
  · rfl

theorem Desk.Holds.frame {d d' : Desk} {last : Option (Nat × List Input)} (h : d.Holds last)
    (hv : d'.store.version = d.store.version) (hi : d'.store.inputs = d.store.inputs) :
    d'.Holds last := by
  cases last with
  | none => exact ⟨hv.trans h.1, by rw [hi]; exact h.2⟩
  | some last => exact ⟨hv.trans h.1, by rw [hi]; exact h.2⟩

theorem Desk.holds_last (calls : List Call) :
    (Desk.after F decode calls).Holds (lastBegin calls) := by
  induction calls using List.reverseRecOn with
  | nil => exact ⟨rfl, rfl⟩
  | append_singleton calls call ih =>
      have hafter : Desk.after F decode (calls ++ [call]) =
          (Desk.after F decode calls).step F decode call := by
        simp [Desk.after, Run.final]
      rw [hafter, lastBegin, List.foldl_append]
      cases call with
      | begin' version algorithm inputs => exact ⟨rfl, rows_enumerated _ inputs⟩
      | input spec => exact ih
      | produced spec bytes =>
          have hstore := @Desk.produced_frame F decode (Desk.after F decode calls) spec bytes
          exact ih.frame (congrArg Artifacts.version hstore) (congrArg Artifacts.inputs hstore)
      | record i =>
          obtain ⟨hv, hi⟩ := (Desk.after F decode calls).record_frame i
          exact ih.frame hv hi
      | collect version => exact ih

/-- Whenever rows are collected under a version, either no candidate was ever begun, the version is
the initial one and there are no rows; or it is the version of the last candidate, and the rows are
what each of its registered inputs reduces to, one after the other in partition order, every
partition once. Up to `2 ^ 32` inputs all are registered. -/
theorem Artifacts.collect_genuine (F : Floating)
    (decode : List UInt8 → Option (List Materialised)) (calls : List Call) (v : Nat)
    (rows : List Materialised) (h : (Desk.after F decode calls).store.collect v = some rows) :
    match lastBegin calls with
    | none => v = 0 ∧ rows = []
    | some (version, inputs) =>
        v = version ∧ rows = (partitionsOf inputs).flatMap (Input.rows F) ∧
          (inputs.length ≤ 2 ^ 32 → rows = inputs.flatMap (Input.rows F)) := by
  have hgenuine : (Desk.after F decode calls).Genuine F :=
    Run.invariant_final (fun _ call hd => hd.step call) calls Desk.Genuine.new
  obtain ⟨hv, hrows⟩ := hgenuine.collect_eq h
  have hlast := @Desk.holds_last F decode calls
  cases hbegin : lastBegin calls with
  | none =>
      rw [hbegin] at hlast
      obtain ⟨hzero, hnil⟩ := hlast
      exact ⟨hv.symm.trans hzero, by rw [hrows, hnil]; rfl⟩
  | some last =>
      obtain ⟨version, inputs⟩ := last
      rw [hbegin] at hlast
      obtain ⟨hversion, hinputs⟩ := hlast
      rw [hinputs] at hrows
      refine ⟨hv.symm.trans hversion, hrows, ?_⟩
      intro hlen
      rw [hrows, partitionsOf_eq hlen]

/-- A store that nothing was registered in collects no rows under version 0, though no candidate was
begun under it. -/
theorem Artifacts.collect_before_begin :
    (Desk.after ⟨fun _ _ => 0, fun _ _ => none⟩ (fun _ => none) []).store.collect 0 = some [] ∧
      ¬ ∃ version inputs, lastBegin [] = some (version, inputs) ∧ version = 0 := by
  constructor
  · rfl
  · rintro ⟨version, inputs, hlast, -⟩
    cases hlast

/-- One market as a partition. -/
def oneMarket (item : ItemId) : Input :=
  ⟨.eu, [(.ofCommodity .eu item 1, [hundred item hourMs], Ladder.empty)], [.all], flasks, 2 * hourMs⟩

/-- Bytes that read as the rows of item 7, as those of item 8, and as no rows at all. -/
def readRows (F : Floating) : List UInt8 → Option (List Materialised)
  | [7] => some ((oneMarket 7).rows F)
  | [8] => some ((oneMarket 8).rows F)
  | [0] => some []
  | _ => none

/-- Of two partitions the second comes back first, and then the other: a forged result, without its rows,
and at last its own. -/
def twoMarketCalls : List Call :=
  [.begin' 9 2 [oneMarket 7, oneMarket 8], .produced (.analysis 9 2 1) [8], .produced (.analysis 9 2 0) [0],
    .record 0, .produced (.analysis 9 2 0) [7], .record 0]

theorem Artifacts.collect_two_markets :
    let F : Floating := ⟨fun _ _ => 0, fun _ _ => none⟩
    ∃ rows, (Desk.after F (readRows F) twoMarketCalls).store.collect 9 = some rows ∧
      rows = [oneMarket 7, oneMarket 8].flatMap (Input.rows F) ∧ rows.length = 2 := by
  intro F
  have h : (Desk.after F (readRows F) twoMarketCalls).store.collect 9 =
      some ((oneMarket 7).rows F ++ ((oneMarket 8).rows F ++ [])) := by
    have hsome : Input.rows F (oneMarket 7) ≠ [] := List.ne_nil_of_length_pos (by decide)
    simp [Std.TreeMap.getElem_insert, hsome, Desk.after, Run.final, Desk.new, Desk.step, Desk.produced,
      Desk.record, Artifacts.new, Artifacts.begin', Artifacts.enumerated, Artifacts.check,
      Artifacts.registered, Artifacts.record, Artifacts.collect, twoMarketCalls, readRows]
    exact ⟨rfl, congrArg ((oneMarket 7).rows F ++ ·) (List.append_nil _)⟩
  have hgenuine := Artifacts.collect_genuine F (readRows F) twoMarketCalls 9 _ h
  exact ⟨_, h, hgenuine.2.2 (by decide), rfl⟩

end Gavel.Server
