import Mathlib.Algebra.BigOperators.Group.List.Basic
import Mathlib.Algebra.Order.Ring.Nat
import Mathlib.Data.List.Dedup
import Mathlib.Data.List.Sort
import Mathlib.Data.List.SplitBy

/-!
# Grouping by key

Elements collected under their keys, the groups in the order of the keys and each group in the order
its elements came.
-/

namespace Gavel.Groups

variable {α κ : Type} [DecidableEq κ] (le : κ → κ → Prop) [DecidableRel le] (key : α → κ)

/-- The keys that occur, in order. -/
def keys (l : List α) : List κ := (l.map key).dedup.insertionSort le

/-- The elements under a key. -/
def group (l : List α) (k : κ) : List α := l.filter (key · = k)

/-- The groups, in the order of their keys. -/
def grouped (l : List α) : List (κ × List α) := (keys le key l).map fun k => (k, group key l k)

variable {le key} {l : List α} {a : α} {k : κ} {g : List α}

@[simp] theorem mem_keys : k ∈ keys le key l ↔ ∃ a ∈ l, key a = k := by
  simp [keys, (List.perm_insertionSort le _).mem_iff]

theorem keys_nodup : (keys le key l).Nodup :=
  (List.perm_insertionSort le _).nodup_iff.mpr (List.nodup_dedup _)

@[simp] theorem mem_group : a ∈ group key l k ↔ a ∈ l ∧ key a = k := by simp [group]

theorem mem_grouped : (k, g) ∈ grouped le key l ↔ k ∈ keys le key l ∧ g = group key l k := by
  simp only [grouped, List.mem_map, Prod.mk.injEq]
  constructor
  · rintro ⟨k, hk, rfl, rfl⟩
    exact ⟨hk, rfl⟩
  · rintro ⟨hk, rfl⟩
    exact ⟨k, hk, rfl, rfl⟩

/-- The groups of all keys make up the list. -/
theorem flatMap_group_perm {ks : List κ} (hnodup : ks.Nodup) (hks : ∀ a ∈ l, key a ∈ ks) :
    (ks.flatMap (group key l)).Perm l := by
  induction ks generalizing l with
  | nil =>
      have hnil : l = [] := List.eq_nil_iff_forall_not_mem.mpr fun a ha => List.not_mem_nil (hks a ha)
      rw [hnil]
      exact .nil
  | cons k ks ih =>
      obtain ⟨hk, hrest⟩ := List.nodup_cons.mp hnodup
      have hother : ks.flatMap (group key l) = ks.flatMap (group key (l.filter fun a => !decide (key a = k))) := by
        refine List.flatMap_congr fun j hj => ?_
        simp only [group, List.filter_filter]
        refine List.filter_congr fun a _ => ?_
        by_cases haj : key a = j
        · have hjk : ¬ j = k := fun heq => hk (heq ▸ hj)
          simp [haj, hjk]
        · simp [haj]
      rw [List.flatMap_cons, hother]
      refine (List.Perm.append_left _ (ih hrest fun a ha => ?_)).trans (List.filter_append_perm _ l)
      obtain ⟨hmem, hne⟩ := List.mem_filter.mp ha
      exact (List.mem_cons.mp (hks a hmem)).resolve_left (by simpa using hne)

/-! ## Elements in another order -/

section Order

variable {ω : Type} [LinearOrder ω] {φ : κ → ω} {l l' : List α}

/-- The keys are the same wherever the same ones occur, if their order tells every two apart. -/
theorem keys_congr (hle : ∀ a b, le a b ↔ φ a ≤ φ b) (hφ : Function.Injective φ)
    (h : ∀ k, (∃ a ∈ l, key a = k) ↔ ∃ a ∈ l', key a = k) : keys le key l = keys le key l' := by
  have : Std.Total le := ⟨fun a b => by simpa only [hle] using le_total (φ a) (φ b)⟩
  have : IsTrans κ le := ⟨fun a b c hab hbc =>
    (hle a c).mpr (le_trans ((hle a b).mp hab) ((hle b c).mp hbc))⟩
  have : Std.Antisymm le := ⟨fun a b hab hba => hφ (le_antisymm ((hle a b).mp hab) ((hle b a).mp hba))⟩
  have hperm : (keys le key l).Perm (keys le key l') := by
    refine (List.perm_ext_iff_of_nodup keys_nodup keys_nodup).mpr fun k => ?_
    rw [mem_keys, mem_keys, h k]
  exact hperm.eq_of_pairwise' (List.pairwise_insertionSort le _) (List.pairwise_insertionSort le _)

/-- What is made of each group alone comes out the same, in the same order, whatever the order of the
elements. -/
theorem map_grouped_congr {δ : Type} {f : κ × List α → δ} (hle : ∀ a b, le a b ↔ φ a ≤ φ b)
    (hφ : Function.Injective φ) (h : l.Perm l')
    (hf : ∀ k, f (k, group key l k) = f (k, group key l' k)) :
    (grouped le key l).map f = (grouped le key l').map f := by
  have hkeys : keys le key l = keys le key l' :=
    keys_congr hle hφ fun k => by simp only [h.mem_iff]
  simp only [grouped, List.map_map, hkeys]
  exact List.map_congr_left fun k _ => hf k

theorem group_perm (key : α → κ) (h : l.Perm l') (k : κ) : (group key l k).Perm (group key l' k) :=
  h.filter _

end Order

/-! ## Sums -/

/-- The sum over a list is that of the sums over its groups. -/
theorem sum_group (f : α → Nat) {ks : List κ} (hnodup : ks.Nodup) (hks : ∀ a ∈ l, key a ∈ ks) :
    (l.map f).sum = (ks.map fun k => ((group key l k).map f).sum).sum := by
  induction l with
  | nil => simp [group]
  | cons a l ih =>
      obtain ⟨ha, hl⟩ := List.forall_mem_cons.mp hks
      obtain ⟨before, after, rfl⟩ := List.append_of_mem ha
      have hout : key a ∉ before ++ after := (List.nodup_cons.mp (List.nodup_middle.mp hnodup)).1
      -- only the group of the element's own key has it
      have hsame : ∀ k ∈ before ++ after, group key (a :: l) k = group key l k := by
        intro k hk
        have hne : key a ≠ k := fun heq => hout (heq ▸ hk)
        simp [group, hne]
      have hown : group key (a :: l) (key a) = a :: group key l (key a) := by simp [group]
      have hsum : ∀ ks' ⊆ before ++ after,
          (ks'.map fun k => ((group key (a :: l) k).map f).sum) =
            ks'.map fun k => ((group key l k).map f).sum :=
        fun ks' hks' => List.map_congr_left fun k hk => by rw [hsame k (hks' hk)]
      rw [List.map_cons, List.sum_cons, ih hl]
      simp only [List.map_append, List.map_cons, List.sum_append, List.sum_cons, hown,
        hsum before (List.subset_append_left _ _), hsum after (List.subset_append_right _ _)]
      omega

/-- No entry is of a key that entries were not made for. -/
theorem filter_key_eq_nil {δ : Type} {f : κ → List δ} {name : δ → κ}
    (hname : ∀ k, ∀ d ∈ f k, name d = k) {ks : List κ} (hk : k ∉ ks) :
    (ks.flatMap f).filter (name · = k) = [] := by
  refine List.filter_eq_nil_iff.mpr fun d hd heq => ?_
  obtain ⟨i, hi, hdi⟩ := List.mem_flatMap.mp hd
  have hik : i = k := (hname i d hdi).symm.trans (by simpa using heq)
  exact hk (hik ▸ hi)

/-- Of entries made for each key, those of one key. -/
theorem filter_key {δ : Type} {f : κ → List δ} {name : δ → κ} (hname : ∀ k, ∀ d ∈ f k, name d = k)
    {ks : List κ} (hnodup : ks.Nodup) (hk : k ∈ ks) : (ks.flatMap f).filter (name · = k) = f k := by
  obtain ⟨before, after, rfl⟩ := List.append_of_mem hk
  have hout : k ∉ before ++ after := (List.nodup_cons.mp (List.nodup_middle.mp hnodup)).1
  have hown : (f k).filter (name · = k) = f k :=
    List.filter_eq_self.mpr fun d hd => by simp [hname k d hd]
  rw [List.flatMap_append, List.filter_append, List.flatMap_cons, List.filter_append, hown,
    filter_key_eq_nil hname fun h => hout (List.mem_append_left _ h),
    filter_key_eq_nil hname fun h => hout (List.mem_append_right _ h), List.nil_append,
    List.append_nil]

/-- What entries, one for each key, come to under a key, where one that was not made would count zero. -/
theorem sum_filter_key {δ : Type} {f : κ → δ} {name : δ → κ} (count : δ → Nat)
    (hname : ∀ k, name (f k) = k) {ks : List κ} (hnodup : ks.Nodup) (hzero : k ∉ ks → count (f k) = 0) :
    (((ks.map f).filter (name · = k)).map count).sum = count (f k) := by
  have hname' : ∀ k, ∀ d ∈ [f k], name d = k := by simpa using hname
  have hmap : ks.map f = ks.flatMap fun k => [f k] := List.map_eq_flatMap
  rw [hmap]
  by_cases hk : k ∈ ks
  · simp [filter_key hname' hnodup hk]
  · simp [filter_key_eq_nil hname' hk, hzero hk]

/-! ## Extremes -/

/-- Picks from numbers the one that comes before all of them. -/
structure Extreme (select : List Nat → Option Nat) (before : Nat → Nat → Prop) : Prop where
  iff : ∀ l i, select l = some i ↔ i ∈ l ∧ ∀ j ∈ l, before i j
  some : ∀ l, l ≠ [] → ∃ i, select l = some i
  trans : ∀ i j k, before i j → before j k → before i k

theorem extreme_min : Extreme List.min? (· ≤ ·) where
  iff _ _ := List.min?_eq_some_iff
  some _ hl := Option.isSome_iff_exists.mp (List.isSome_min?_of_ne_nil hl)
  trans _ _ _ := Nat.le_trans

theorem extreme_max : Extreme List.max? (fun i j => j ≤ i) where
  iff _ _ := List.max?_eq_some_iff
  some _ hl := Option.isSome_iff_exists.mp (List.isSome_max?_of_ne_nil hl)
  trans _ _ _ hij hjk := Nat.le_trans hjk hij

/-- The extreme depends on nothing but which numbers there are. -/
theorem Extreme.congr {select : List Nat → Option Nat} {before : Nat → Nat → Prop}
    (hsel : Extreme select before) {l l' : List Nat} (h : ∀ i, i ∈ l ↔ i ∈ l') : select l = select l' := by
  ext i
  simp only [hsel.iff, h]

/-- The extreme over several lists is that of their extremes. -/
theorem extreme_flatMap {select : List Nat → Option Nat} {before : Nat → Nat → Prop}
    (hsel : Extreme select before) (l : List α) (f : α → List Nat) :
    select (l.flatMap f) = select (l.filterMap fun a => select (f a)) := by
  have hextreme : ∀ a, ∀ j ∈ f a, ∃ i, select (f a) = some i ∧ before i j := by
    intro a j hj
    obtain ⟨i, hi⟩ := hsel.some _ (List.ne_nil_of_mem hj)
    exact ⟨i, hi, ((hsel.iff _ _).mp hi).2 j hj⟩
  ext i
  simp only [hsel.iff (l.flatMap f), hsel.iff (l.filterMap _), List.mem_flatMap, List.mem_filterMap]
  constructor
  · rintro ⟨⟨a, ha, hi⟩, hall⟩
    refine ⟨⟨a, ha, (hsel.iff _ _).mpr ⟨hi, fun j hj => hall j ⟨a, ha, hj⟩⟩⟩, ?_⟩
    rintro j ⟨b, hb, hj⟩
    exact hall j ⟨b, hb, ((hsel.iff _ _).mp hj).1⟩
  · rintro ⟨⟨a, ha, hi⟩, hall⟩
    refine ⟨⟨a, ha, ((hsel.iff _ _).mp hi).1⟩, ?_⟩
    rintro j ⟨b, hb, hj⟩
    obtain ⟨k, hk, hkj⟩ := hextreme b j hj
    exact hsel.trans _ _ _ (hall k ⟨b, hb, hk⟩) hkj

/-- The extreme over a list is that of the extremes of its groups. -/
theorem extreme_group {select : List Nat → Option Nat} {before : Nat → Nat → Prop}
    (hsel : Extreme select before) (f : α → Nat) {ks : List κ} (hks : ∀ a ∈ l, key a ∈ ks) :
    select (l.map f) = select (ks.filterMap fun k => select ((group key l k).map f)) := by
  rw [← extreme_flatMap hsel]
  refine hsel.congr fun i => ?_
  simp only [List.mem_map, List.mem_flatMap, mem_group]
  constructor
  · rintro ⟨a, ha, rfl⟩
    exact ⟨key a, hks a ha, a, ⟨ha, rfl⟩, rfl⟩
  · rintro ⟨k, -, a, ⟨ha, -⟩, rfl⟩
    exact ⟨a, ha, rfl⟩

/-! ## Runs of a sorted list -/

section Runs

variable {key : α → Nat} {l : List α} {gs : List (List α)}

/-- The key of a group's first element. -/
def headKey (key : α → Nat) (g : List α) : Nat := (g.head?.map key).getD 0

/-- Groups of one key each, in strictly ascending order, are those of their concatenation. -/
theorem eq_groups_flatten (hkey : ∀ g ∈ gs, ∀ a ∈ g, key a = headKey key g)
    (hlt : gs.Pairwise fun a b => headKey key a < headKey key b) :
    gs = (gs.map (headKey key)).map (group key gs.flatten) := by
  induction gs with
  | nil => rfl
  | cons g gs ih =>
      obtain ⟨hg, hrest⟩ := List.pairwise_cons.mp hlt
      have hkey' : ∀ g' ∈ gs, ∀ a ∈ g', key a = headKey key g' :=
        fun g' hg' => hkey g' (List.mem_cons_of_mem _ hg')
      have hhead : group key (g :: gs).flatten (headKey key g) = g := by
        have hown : g.filter (key · = headKey key g) = g :=
          List.filter_eq_self.mpr fun a ha => by simp [hkey g List.mem_cons_self a ha]
        have hnone : gs.flatten.filter (key · = headKey key g) = [] := by
          rw [List.filter_eq_nil_iff]
          intro a ha
          obtain ⟨g', hg', hag⟩ := List.mem_flatten.mp ha
          have hne := hg g' hg'
          simp only [hkey' g' hg' a hag, decide_eq_true_eq]
          omega
        rw [group, List.flatten_cons, List.filter_append, hown, hnone, List.append_nil]
      have htail : ∀ g' ∈ gs, group key (g :: gs).flatten (headKey key g') =
          group key gs.flatten (headKey key g') := by
        intro g' hg'
        have hnone : g.filter (key · = headKey key g') = [] := by
          rw [List.filter_eq_nil_iff]
          intro a ha
          have hne := hg g' hg'
          simp only [hkey g List.mem_cons_self a ha, decide_eq_true_eq]
          omega
        rw [group, List.flatten_cons, List.filter_append, hnone, List.nil_append, group]
      rw [List.map_cons, List.map_cons, hhead]
      congr 1
      calc gs = (gs.map (headKey key)).map (group key gs.flatten) := ih hkey' hrest
        _ = (gs.map (headKey key)).map (group key (g :: gs).flatten) := by
            simp only [List.map_map]
            exact List.map_congr_left fun g' hg' => (htail g' hg').symm

/-- The runs of elements of one key. -/
def runs (key : α → Nat) (l : List α) : List (List α) := l.splitBy fun a b => key a == key b

theorem flatten_runs (key : α → Nat) (l : List α) : (runs key l).flatten = l := List.flatten_splitBy _ _

/-- A run has one key. -/
theorem key_of_mem_run {g : List α} (hg : g ∈ runs key l) : ∀ a ∈ g, key a = headKey key g := by
  intro a ha
  have hchain := List.isChain_of_mem_splitBy hg
  cases g with
  | nil => cases ha
  | cons b g =>
      have hrel : (b :: g).IsChain (fun x y => key x = key y) :=
        hchain.imp fun x y h => by simpa using h
      have : IsTrans α (fun x y => key x = key y) := ⟨fun _ _ _ h h' => h.trans h'⟩
      obtain ⟨hb, -⟩ := List.pairwise_cons.mp hrel.pairwise
      rcases List.mem_cons.mp ha with rfl | ha
      · rfl
      · exact (hb a ha).symm

/-- The keys of the runs of a sorted list ascend strictly. -/
theorem runs_ascend (hsorted : l.Pairwise fun a b => key a ≤ key b) :
    (runs key l).Pairwise fun a b => headKey key a < headKey key b := by
  have hle : (runs key l).Pairwise fun g g' => ∀ x ∈ g, ∀ y ∈ g', key x ≤ key y := by
    rw [← flatten_runs key l] at hsorted
    exact (List.pairwise_flatten.mp hsorted).2
  have : IsTrans (List α) (fun a b => headKey key a < headKey key b) :=
    ⟨fun _ _ _ h h' => Nat.lt_trans h h'⟩
  apply List.IsChain.pairwise
  have hadj := List.isChain_getLast_head_splitBy (fun a b => key a == key b) l
  rw [List.isChain_iff_forall_rel_of_append_cons_cons] at hadj ⊢
  intro a b before after heq
  obtain ⟨hna, hnb, hne⟩ := hadj heq
  have ha : a ∈ runs key l := by rw [heq]; simp
  have hb : b ∈ runs key l := by rw [heq]; simp
  have hla := List.getLast_mem hna
  have hhb := List.head_mem hnb
  have hle' : key (a.getLast hna) ≤ key (b.head hnb) := by
    rw [heq] at hle
    have hab := (List.pairwise_append.mp hle).2.1
    exact (List.pairwise_cons.mp hab).1 b List.mem_cons_self _ hla _ hhb
  rw [key_of_mem_run ha _ hla, key_of_mem_run hb _ hhb] at hle'
  simp only [beq_eq_false_iff_ne, key_of_mem_run ha _ hla, key_of_mem_run hb _ hhb] at hne
  omega

theorem headKeys_runs (hsorted : l.Pairwise fun a b => key a ≤ key b) :
    (runs key l).map (headKey key) = keys (· ≤ ·) key l := by
  have hmem : ∀ k, k ∈ (runs key l).map (headKey key) ↔ k ∈ keys (· ≤ ·) key l := by
    intro k
    rw [mem_keys, List.mem_map]
    constructor
    · rintro ⟨g, hg, rfl⟩
      obtain ⟨a, ha⟩ := List.exists_mem_of_ne_nil g (List.ne_nil_of_mem_splitBy hg)
      refine ⟨a, ?_, key_of_mem_run hg a ha⟩
      rw [← flatten_runs key l]
      exact List.mem_flatten.mpr ⟨g, hg, ha⟩
    · rintro ⟨a, ha, rfl⟩
      rw [← flatten_runs key l] at ha
      obtain ⟨g, hg, hag⟩ := List.mem_flatten.mp ha
      exact ⟨g, hg, (key_of_mem_run hg a hag).symm⟩
  have hsort : ((runs key l).map (headKey key)).Pairwise (· < ·) :=
    List.pairwise_map.mpr (runs_ascend hsorted)
  have hnodup : ((runs key l).map (headKey key)).Nodup := hsort.imp fun h => Nat.ne_of_lt h
  have hperm := (List.perm_ext_iff_of_nodup hnodup keys_nodup).mpr hmem
  exact hperm.eq_of_pairwise' (hsort.imp Nat.le_of_lt) (List.pairwise_insertionSort _ _)

/-- The runs of a list sorted by key are its groups. -/
theorem splitBy_eq_groups (hsorted : l.Pairwise fun a b => key a ≤ key b) :
    l.splitBy (fun a b => key a == key b) =
      (keys (· ≤ ·) key l).map (group key l) := by
  calc runs key l = ((runs key l).map (headKey key)).map (group key (runs key l).flatten) :=
        eq_groups_flatten (fun _ hg => key_of_mem_run hg) (runs_ascend hsorted)
    _ = (keys (· ≤ ·) key l).map (group key l) := by rw [headKeys_runs hsorted, flatten_runs]

end Runs

end Gavel.Groups
