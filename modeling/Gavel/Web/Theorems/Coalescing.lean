import Gavel.Web.Coalescing
import Gavel.Web.FragmentCache

/-!
# Concurrent calls share their builds

A cell is one residency of its key: it is made when the key is entered and its entry never comes back once
it is dropped. Whoever found it keeps it, so what a cell holds is what all its callers get, and what the one
build for it that succeeded made.
-/

namespace Gavel.Web.FragmentCache

/-!
## Fragment cache

The entries and the order list the same keys, and what each operation does to the value and the builder of
every cell.
-/

variable {α : Type} {cache : FragmentCache α} {key : FragmentKey} {i j n : Nat}
  {entries : List (FragmentKey × Nat)} {order : List FragmentKey}

/-! ## The order of the entries -/

/-- The order lists the keys of the entries, each once, and is within the capacity. -/
structure Ordered (cache : FragmentCache α) : Prop where
  perm : (cache.entries.map Prod.fst).Perm cache.order
  nodup : cache.order.Nodup
  bounded : cache.order.length ≤ capacity

theorem capacity_pos : 0 < capacity := by decide

theorem evict_perm (hperm : (entries.map Prod.fst).Perm order) (hnodup : order.Nodup) :
    ((evict entries order).1.map Prod.fst).Perm (evict entries order).2 := by
  induction order generalizing entries with
  | nil => exact hperm
  | cons oldest order ih =>
      obtain ⟨hnew, hrest⟩ := List.nodup_cons.mp hnodup
      unfold evict
      split
      · refine ih ?_ hrest
        have hfilter := hperm.filter (· ≠ oldest)
        rw [List.filter_map] at hfilter
        have hkept : (oldest :: order).filter (fun k => decide (k ≠ oldest)) = order := by
          rw [List.filter_cons_of_neg (by simp)]
          refine List.filter_eq_self.mpr fun k hk => ?_
          simpa using ne_of_mem_of_not_mem hk hnew
        rwa [hkept] at hfilter
      · exact hperm

theorem evict_suffix (entries : List (FragmentKey × Nat)) (order : List FragmentKey) :
    (evict entries order).2 <:+ order := by
  induction order generalizing entries with
  | nil => exact List.suffix_rfl
  | cons oldest order ih =>
      unfold evict
      split
      · exact (ih _).trans (List.suffix_cons oldest order)
      · exact List.suffix_rfl

theorem length_evict (entries : List (FragmentKey × Nat)) (order : List FragmentKey) :
    (evict entries order).2.length ≤ capacity := by
  induction order generalizing entries with
  | nil => exact Nat.zero_le _
  | cons oldest order ih =>
      unfold evict
      split
      · exact ih _
      · exact Nat.le_of_not_lt ‹_›

theorem evict_ne_nil (entries : List (FragmentKey × Nat)) (h : order ≠ []) : (evict entries order).2 ≠ [] := by
  induction order generalizing entries with
  | nil => exact absurd rfl h
  | cons oldest order ih =>
      unfold evict
      split
      · rename_i hlong
        refine ih _ fun hnil => ?_
        rw [hnil] at hlong
        exact absurd hlong (Nat.not_lt.mpr capacity_pos)
      · exact h

theorem mem_evict_concat (entries : List (FragmentKey × Nat)) (order : List FragmentKey) (key : FragmentKey) :
    key ∈ (evict entries (order ++ [key])).2 := by
  obtain ⟨before, hbefore⟩ := evict_suffix entries (order ++ [key])
  have hlast := congrArg List.getLast? hbefore
  rw [List.getLast?_append_of_ne_nil _ (evict_ne_nil entries (by simp)), List.getLast?_concat] at hlast
  exact List.mem_of_getLast? hlast

/-- A lookup keeps the order, and leaves the cell it found under its key. -/
theorem Ordered.lookup (h : cache.Ordered) (key : FragmentKey) :
    (cache.cellOf key).1.Ordered ∧ (key, (cache.cellOf key).2) ∈ (cache.cellOf key).1.entries := by
  unfold cellOf
  split
  · rename_i found i hfind
    have hkey : found = key := by simpa using List.find?_some hfind
    exact ⟨h, hkey ▸ List.mem_of_find?_eq_some hfind⟩
  · rename_i hnone
    have hfresh : key ∉ cache.entries.map Prod.fst := by
      intro hmem
      obtain ⟨e, he, hkey⟩ := List.mem_map.mp hmem
      simpa [hkey] using List.find?_eq_none.mp hnone e he
    have hperm : (((key, cache.cells.length) :: cache.entries).map Prod.fst).Perm (cache.order ++ [key]) :=
      (h.perm.cons key).trans (List.perm_append_singleton key cache.order).symm
    have hnodup : (cache.order ++ [key]).Nodup := by
      rw [← hperm.nodup_iff, List.map_cons, List.nodup_cons]
      exact ⟨hfresh, h.perm.nodup_iff.mpr h.nodup⟩
    have hkept := evict_perm hperm hnodup
    refine ⟨⟨hkept, hnodup.sublist (evict_suffix _ _).sublist, length_evict _ _⟩, ?_⟩
    obtain ⟨e, he, hkey⟩ := List.mem_map.mp (hkept.mem_iff.mpr (mem_evict_concat _ cache.order key))
    rcases List.mem_cons.mp (mem_of_mem_evict he) with heq | hold
    · rwa [heq] at he
    · exact absurd (hkey ▸ List.mem_map_of_mem hold) hfresh

/-! ## Cells -/

/-- The call that builds for a cell. -/
def builder (cache : FragmentCache α) (i : Nat) : Option Nat := cache.cells[i]?.bind Cell.builder

theorem isFree_of_builder (h : i < cache.cells.length) (hnone : cache.builder i = none) :
    cache.isFree i = true := by
  rw [builder, List.getElem?_eq_getElem h, Option.bind_some] at hnone
  simp [isFree, h, hnone]

theorem builder_of_isFree (h : cache.isFree i = true) : i < cache.cells.length ∧ cache.builder i = none := by
  obtain ⟨cell, hcell, hnone⟩ : ∃ cell, cache.cells[i]? = some cell ∧ cell.builder = none := by
    simpa [isFree, Option.any_eq_true] using h
  exact ⟨(List.getElem?_eq_some_iff.mp hcell).1, by simp [builder, hcell, hnone]⟩

/-- A lookup changes no cell, and one it makes is empty and free. -/
theorem bind_cellOf {β : Type} (f : Cell α → Option β) (hf : f ⟨key, none, none⟩ = none) (j : Nat) :
    (cache.cellOf key).1.cells[j]?.bind f = cache.cells[j]?.bind f := by
  rcases cellOf_cases cache key with ⟨i, -, heq⟩ | ⟨-, hcells, -⟩
  · rw [heq]
  · rw [hcells]
    rcases Nat.lt_trichotomy j cache.cells.length with hlt | rfl | hgt
    · rw [List.getElem?_append_left hlt]
    · simp [hf]
    · rw [List.getElem?_eq_none (by simp; omega), List.getElem?_eq_none (Nat.le_of_lt hgt)]

@[simp] theorem value_cellOf : (cache.cellOf key).1.value j = cache.value j := bind_cellOf Cell.value rfl j

@[simp] theorem builder_cellOf : (cache.cellOf key).1.builder j = cache.builder j :=
  bind_cellOf Cell.builder rfl j

theorem bind_modify {β : Type} {f : Cell α → Cell α} {g : Cell α → Option β} (cells : List (Cell α))
    (i j : Nat) : (cells.modify i f)[j]?.bind g =
      if i = j then cells[j]?.bind fun cell => g (f cell) else cells[j]?.bind g := by
  rw [List.getElem?_modify]
  cases cells[j]? with
  | none => simp
  | some cell => by_cases h : i = j <;> simp [h]

@[simp] theorem value_start : (cache.start i n).value j = cache.value j := by
  simp [value, start, bind_modify]

theorem builder_start (h : i < cache.cells.length) :
    (cache.start i n).builder j = if i = j then some n else cache.builder j := by
  rw [builder, start, bind_modify]
  split
  · rename_i hij
    rw [← hij, List.getElem?_eq_getElem h]
    rfl
  · rfl

theorem value_finish (h : i < cache.cells.length) (made : Option α) :
    (cache.finish i made).value j = if i = j then (cache.value i).or made else cache.value j := by
  rw [value, finish, bind_modify]
  split
  · rename_i hij
    rw [← hij, value, List.getElem?_eq_getElem h]
    rfl
  · rfl

theorem builder_finish (made : Option α) :
    (cache.finish i made).builder j = if i = j then none else cache.builder j := by
  rw [builder, finish, bind_modify]
  split
  · cases cache.cells[j]? <;> rfl
  · rfl

end Gavel.Web.FragmentCache

namespace Gavel.Web.Coalescing

variable {α : Type} {s : Coalescing α} {call : GetOrBuild α} {phase : GetPhase α}
  {cache cache' : FragmentCache α} {builds : List (Ended α)} {key : FragmentKey} {i j c n : Nat} {v : α}

/-- The values of the builds for a cell, those that succeeded. -/
def madeFor (builds : List (Ended α)) (c : Nat) : List α :=
  (builds.filter (·.cell = c)).filterMap Ended.made

/-- What holds between any two steps. -/
structure Coherent (s : Coalescing α) : Prop where
  filed : s.cache.Filed
  ordered : s.cache.Ordered
  keyed : ∀ (i : Nat) call c, s.calls[i]? = some call → call.phase.cell = some c →
    s.cache.cells[c]?.map Cell.key = some call.key
  building : ∀ i c, s.cache.builder c = some i ↔ ∃ call, s.calls[i]? = some call ∧ call.phase = .building c
  empty : ∀ i c, s.cache.builder c = some i → s.cache.value c = none
  returned : ∀ (i : Nat) call c v, s.calls[i]? = some call → call.phase = .returned c v → s.cache.value c = some v
  ended : ∀ b ∈ s.builds, ∃ call, s.calls[b.call]? = some call ∧ call.phase = b.outcome
  made : ∀ c, madeFor s.builds c = (s.cache.value c).toList

/-- A whole call with no other step between its own, its build running if it is let. -/
def alone (s : Coalescing α) (key : FragmentKey) (made : Option α) : Coalescing α :=
  let n := s.calls.length
  Run.final step s [.getOrBuild key, .proceed n, .proceed n, .finish n made]

/-- What the calls of one cache rely on. -/
structure Coalesced (s : Coalescing α) : Prop where
  /-- A returned value was made by a build of a call for the same key. -/
  built : ∀ call ∈ s.calls, ∀ c v, call.phase = .returned c v → ∃ b ∈ s.builds, b.made = some v ∧
    ∃ builder, s.calls[b.call]? = some builder ∧ builder.key = call.key
  order : s.cache.Ordered
  /-- The cell a call finds is the one its key is entered with; the call keeps it, and the key is never
  entered with it again once its entry is gone. -/
  found : ∀ (i : Nat) call, s.calls[i]? = some call → call.phase = .arrived →
    ∃ c, (s.step (.proceed i)).calls[i]? = some { call with phase := .holding c } ∧
      (call.key, c) ∈ (s.step (.proceed i)).cache.entries
  kept : ∀ (steps : List (CoalescingStep α)) (i : Nat) call c, s.calls[i]? = some call →
    call.phase.cell = some c → ∃ later, (Run.final step s steps).calls[i]? = some later ∧
      later.key = call.key ∧ (later.phase.cell = some c ∨ later.phase = .dropped)
  gone : ∀ (steps : List (CoalescingStep α)) key c, c < s.cache.cells.length → (key, c) ∉ s.cache.entries →
    (key, c) ∉ (Run.final step s steps).cache.entries
  /-- Of the builds of the calls with one cell at most one succeeds, and these calls return what it made. -/
  ended : ∀ b ∈ s.builds, ∃ call, s.calls[b.call]? = some call ∧ call.phase = b.outcome
  once : ∀ c, (madeFor s.builds c).length ≤ 1
  shared : ∀ call ∈ s.calls, ∀ c v, call.phase = .returned c v → madeFor s.builds c = [v]
  /-- A build that fails leaves its cell empty, and free. Whoever waits there may build, and so may a call
  that comes later and finds no other. -/
  emptied : ∀ (i : Nat) call c, s.calls[i]? = some call → call.phase = .building c →
    (s.step (.finish i none)).cache.value c = none ∧
      ∀ other ∈ (s.step (.finish i none)).calls, other.phase ≠ .building c
  retried : ∀ (i : Nat) call c, s.calls[i]? = some call → call.phase = .holding c → s.cache.value c = none →
    (∀ other ∈ s.calls, other.phase ≠ .building c) →
    (s.step (.proceed i)).calls[i]? = some { call with phase := .building c }
  later : ∀ key v, (∀ c, (key, c) ∈ s.cache.entries → s.cache.value c = none ∧
      ∀ other ∈ s.calls, other.phase ≠ .building c) →
    ∃ c, (s.alone key (some v)).calls = s.calls ++ [⟨key, .returned c v⟩]

/-! ## What becomes of a cache -/

/-- The cells keep their keys and the values they have. -/
structure Grows (cache cache' : FragmentCache α) : Prop where
  filed : cache.Filed → cache'.Filed
  ordered : cache.Ordered → cache'.Ordered
  keys : ∀ (c : Nat) k, cache.cells[c]?.map Cell.key = some k → cache'.cells[c]?.map Cell.key = some k
  values : ∀ c v, cache.value c = some v → cache'.value c = some v

theorem Grows.refl (cache : FragmentCache α) : Grows cache cache := ⟨id, id, fun _ _ => id, fun _ _ => id⟩

theorem Grows.lookup (cache : FragmentCache α) (key : FragmentKey) : Grows cache (cache.cellOf key).1 where
  filed h := h.cellOf
  ordered h := (h.lookup key).1
  keys _ _ := FragmentCache.key_cellOf
  values c v h := by rwa [FragmentCache.value_cellOf]

theorem Grows.start (cache : FragmentCache α) (c i : Nat) : Grows cache (cache.start c i) where
  filed h := h.of_keys rfl (FragmentCache.key_start cache c i)
  ordered h := ⟨h.perm, h.nodup, h.bounded⟩
  keys j k h := by rwa [FragmentCache.key_start]
  values j v h := by rwa [FragmentCache.value_start]

theorem Grows.finish (h : c < cache.cells.length) (made : Option α) : Grows cache (cache.finish c made) where
  filed h := h.of_keys rfl (FragmentCache.key_finish cache c made)
  ordered h := ⟨h.perm, h.nodup, h.bounded⟩
  keys j k h := by rwa [FragmentCache.key_finish]
  values j v hv := by
    rw [FragmentCache.value_finish h]
    split
    · rename_i hcj
      rw [hcj, hv]
      rfl
    · exact hv

/-! ## The steps -/

theorem Coherent.start : (start : Coalescing α).Coherent where
  filed _ he := by cases he
  ordered := ⟨.nil, .nil, Nat.zero_le _⟩
  keyed _ _ _ h := by cases h
  building i c := by simp [Coalescing.start, FragmentCache.new, FragmentCache.builder]
  empty _ _ h := by cases h
  returned _ _ _ _ h := by cases h
  ended _ h := by cases h
  made _ := rfl

theorem Coherent.getOrBuild (h : s.Coherent) (key : FragmentKey) : (s.step (.getOrBuild key)).Coherent := by
  have hcalls {j : Nat} {other : GetOrBuild α} (hj : (s.calls ++ [⟨key, .arrived⟩])[j]? = some other) :
      s.calls[j]? = some other ∨ other = ⟨key, .arrived⟩ := by
    rcases Nat.lt_or_ge j s.calls.length with hlt | hge
    · rw [List.getElem?_append_left hlt] at hj
      exact .inl hj
    · rw [List.getElem?_append_right hge] at hj
      exact .inr (List.mem_singleton.mp (List.mem_of_getElem? hj))
  have hkept {j : Nat} {other : GetOrBuild α} (hj : s.calls[j]? = some other) :
      (s.calls ++ [⟨key, .arrived⟩])[j]? = some other := by
    rwa [List.getElem?_append_left (List.getElem?_eq_some_iff.mp hj).1]
  constructor
  case filed => exact h.filed
  case ordered => exact h.ordered
  case keyed =>
    intro j other c hj hcell
    rcases hcalls hj with hj | rfl
    · exact h.keyed j other c hj hcell
    · cases hcell
  case building =>
    intro j c
    refine (h.building j c).trans ⟨fun ⟨other, hj, hphase⟩ => ⟨other, hkept hj, hphase⟩, ?_⟩
    rintro ⟨other, hj, hphase⟩
    rcases hcalls hj with hj | rfl
    · exact ⟨other, hj, hphase⟩
    · cases hphase
  case empty => exact h.empty
  case returned =>
    intro j other c v hj hphase
    rcases hcalls hj with hj | rfl
    · exact h.returned j other c v hj hphase
    · cases hphase
  case ended =>
    intro b hb
    obtain ⟨other, hj, hphase⟩ := h.ended b hb
    exact ⟨other, hkept hj, hphase⟩
  case made => exact h.made

/-- A call that is not at its end moves, and the cache and the builds with it. -/
theorem Coherent.move (h : s.Coherent) (hcall : s.calls[i]? = some call)
    (hlive : ∀ b : Ended α, call.phase ≠ b.outcome) (hgrows : Grows s.cache cache)
    (hkeyed : ∀ c, phase.cell = some c → cache.cells[c]?.map Cell.key = some call.key)
    (hbuilder : ∀ c j, cache.builder c = some j ↔
      if j = i then phase = .building c else s.cache.builder c = some j)
    (hempty : ∀ j c, cache.builder c = some j → cache.value c = none)
    (hreturned : ∀ c v, phase = .returned c v → cache.value c = some v)
    (hended : ∀ b ∈ builds, b ∈ s.builds ∨ b.call = i ∧ phase = b.outcome)
    (hmade : ∀ c, madeFor builds c = (cache.value c).toList) :
    Coherent { s.advance i call phase with cache, builds } := by
  have hi : i < s.calls.length := (List.getElem?_eq_some_iff.mp hcall).1
  have hself : (s.calls.set i { call with phase })[i]? = some { call with phase } := List.getElem?_set_self hi
  have hother {j : Nat} (hj : i ≠ j) : (s.calls.set i { call with phase })[j]? = s.calls[j]? :=
    List.getElem?_set_ne hj
  constructor
  case filed => exact hgrows.filed h.filed
  case ordered => exact hgrows.ordered h.ordered
  case keyed =>
    intro j other c hj hcell
    by_cases hij : i = j
    · rw [advance, ← hij, hself] at hj
      cases hj
      exact hkeyed c hcell
    · rw [advance, hother hij] at hj
      exact hgrows.keys c _ (h.keyed j other c hj hcell)
  case building =>
    intro j c
    rw [hbuilder c j]
    by_cases hij : i = j
    · rw [if_pos hij.symm, advance, ← hij, hself]
      simp
    · rw [if_neg (Ne.symm hij), advance, hother hij]
      exact h.building j c
  case empty => exact hempty
  case returned =>
    intro j other c v hj hphase
    by_cases hij : i = j
    · rw [advance, ← hij, hself] at hj
      cases hj
      exact hreturned c v hphase
    · rw [advance, hother hij] at hj
      exact hgrows.values c v (h.returned j other c v hj hphase)
  case ended =>
    intro b hb
    rcases hended b hb with hold | ⟨hnew, hphase⟩
    · obtain ⟨other, hj, hphase⟩ := h.ended b hold
      have hij : i ≠ b.call := by
        intro hij
        rw [← hij, hcall] at hj
        cases hj
        exact hlive b hphase
      exact ⟨other, by rwa [advance, hother hij], hphase⟩
    · exact ⟨{ call with phase }, by rwa [advance, hnew], hphase⟩
  case made => exact hmade

/-- Of the builders none changes while the call that moves is none of them, before and after. -/
theorem Coherent.not_builder (h : s.Coherent) (hcall : s.calls[i]? = some call)
    (hbefore : ∀ c, call.phase ≠ .building c) (hafter : ∀ c, phase ≠ .building c) (c j : Nat) :
    s.cache.builder c = some j ↔ if j = i then phase = .building c else s.cache.builder c = some j := by
  by_cases hji : j = i
  · rw [if_pos hji, hji]
    refine iff_of_false (fun hb => ?_) (hafter c)
    obtain ⟨other, hj, hphase⟩ := (h.building i c).mp hb
    rw [hcall] at hj
    cases hj
    exact hbefore c hphase
  · rw [if_neg hji]

theorem outcome_cases (b : Ended α) :
    (b.made = none ∧ b.outcome = .failed b.cell) ∨ ∃ v, b.made = some v ∧ b.outcome = .returned b.cell v := by
  rcases b with ⟨call, cell, _ | v⟩
  · exact .inl ⟨rfl, rfl⟩
  · exact .inr ⟨v, rfl, rfl⟩

/-- A call that has arrived, holds a cell or builds has not ended. -/
theorem ne_outcome (h : phase = .arrived ∨ (∃ c, phase = .holding c) ∨ ∃ c, phase = .building c)
    (b : Ended α) : phase ≠ b.outcome := by
  intro heq
  rcases outcome_cases b with ⟨-, hb⟩ | ⟨v, -, hb⟩
  all_goals
    rw [hb] at heq
    rcases h with rfl | ⟨c, rfl⟩ | ⟨c, rfl⟩ <;> cases heq

theorem proceed_arrived (hphase : call.phase = .arrived) : s.proceed i call =
    { s.advance i call (.holding (s.cache.cellOf call.key).2) with cache := (s.cache.cellOf call.key).1 } := by
  rw [Coalescing.proceed, hphase]

theorem Coherent.lookup (h : s.Coherent) (hcall : s.calls[i]? = some call) (hphase : call.phase = .arrived) :
    (s.proceed i call).Coherent := by
  rw [proceed_arrived hphase]
  refine h.move hcall (ne_outcome (.inl hphase)) (.lookup s.cache call.key) ?_ (fun c j => ?_) (fun j c hb => ?_)
    ?_ (fun b hb => .inl hb) fun c => ?_
  · rintro c ⟨⟩
    exact h.filed.found call.key
  · rw [FragmentCache.builder_cellOf]
    exact h.not_builder hcall (by simp [hphase]) (by simp) c j
  · rw [FragmentCache.builder_cellOf] at hb
    rw [FragmentCache.value_cellOf]
    exact h.empty j c hb
  · rintro c v ⟨⟩
  · rw [FragmentCache.value_cellOf]
    exact h.made c

theorem Coherent.build (h : s.Coherent) (hcall : s.calls[i]? = some call) (hphase : call.phase = .holding n)
    (hvalue : s.cache.value n = none) (hfree : s.cache.isFree n = true) :
    Coherent { s.advance i call (.building n) with cache := s.cache.start n i } := by
  obtain ⟨hlt, hnone⟩ := FragmentCache.builder_of_isFree hfree
  refine h.move hcall (ne_outcome (.inr (.inl ⟨n, hphase⟩))) (.start s.cache n i) ?_ (fun c j => ?_)
    (fun j c hb => ?_) ?_ (fun b hb => .inl hb) fun c => ?_
  · rintro c ⟨⟩
    rw [FragmentCache.key_start]
    exact h.keyed i call n hcall (by rw [hphase]; rfl)
  · rw [FragmentCache.builder_start hlt]
    have hsame : s.cache.builder c = some j ↔
        if j = i then GetPhase.holding n = .building c else s.cache.builder c = some j :=
      h.not_builder hcall (by simp [hphase]) (by simp) c j
    by_cases hc : n = c
    · subst hc
      simp [hnone, eq_comm]
    · rw [if_neg hc, hsame]
      simp [hc]
  · rw [FragmentCache.builder_start hlt] at hb
    rw [FragmentCache.value_start]
    split at hb
    · rwa [← ‹n = c›]
    · exact h.empty j c hb
  · rintro c v ⟨⟩
  · rw [FragmentCache.value_start]
    exact h.made c

theorem Coherent.proceed (h : s.Coherent) (hcall : s.calls[i]? = some call) : (s.proceed i call).Coherent := by
  cases hphase : call.phase with
  | arrived => exact h.lookup hcall hphase
  | holding cell =>
      simp only [Coalescing.proceed, hphase]
      split
      · rename_i value hvalue
        refine h.move hcall (ne_outcome (.inr (.inl ⟨cell, hphase⟩))) (.refl s.cache) ?_
          (h.not_builder hcall (by simp [hphase]) (by simp)) h.empty ?_ (fun b hb => .inl hb) h.made
        · rintro c ⟨⟩
          exact h.keyed i call cell hcall (by rw [hphase]; rfl)
        · rintro c v ⟨⟩
          exact hvalue
      · split
        · exact h.build hcall hphase ‹_› ‹_›
        · exact h
  | building cell => simpa only [Coalescing.proceed, hphase] using h
  | returned cell value => simpa only [Coalescing.proceed, hphase] using h
  | failed cell => simpa only [Coalescing.proceed, hphase] using h
  | dropped => simpa only [Coalescing.proceed, hphase] using h

theorem Coherent.builder_of_phase (h : s.Coherent) (hcall : s.calls[i]? = some call)
    (hphase : call.phase = .building c) : c < s.cache.cells.length ∧ s.cache.builder c = some i ∧
      s.cache.value c = none := by
  have hb : s.cache.builder c = some i := (h.building i c).mpr ⟨call, hcall, hphase⟩
  refine ⟨Nat.lt_of_not_le fun hle => ?_, hb, h.empty i c hb⟩
  rw [FragmentCache.builder, List.getElem?_eq_none hle] at hb
  cases hb

/-- A call that builds stops, whether its build ended or it was dropped. -/
theorem Coherent.builder_finish (h : s.Coherent) (hcall : s.calls[i]? = some call)
    (hphase : call.phase = .building n) (hafter : ∀ c, phase ≠ .building c) (made : Option α) (c j : Nat) :
    (s.cache.finish n made).builder c = some j ↔
      if j = i then phase = .building c else s.cache.builder c = some j := by
  obtain ⟨-, hb, -⟩ := h.builder_of_phase hcall hphase
  rw [FragmentCache.builder_finish]
  by_cases hji : j = i
  · rw [if_pos hji, hji]
    refine iff_of_false ?_ (hafter c)
    split
    · exact fun hnone => by cases hnone
    · rename_i hnc
      intro hc
      obtain ⟨other, hi, hother⟩ := (h.building i c).mp hc
      rw [hcall] at hi
      cases hi
      rw [hphase] at hother
      cases hother
      exact hnc rfl
  · rw [if_neg hji]
    split
    · rename_i hnc
      subst hnc
      simp [hb, Ne.symm hji]
    · exact Iff.rfl

theorem Coherent.empty_finish (h : s.Coherent) (hn : n < s.cache.cells.length) (made : Option α) (j c : Nat)
    (hb : (s.cache.finish n made).builder c = some j) : (s.cache.finish n made).value c = none := by
  rw [FragmentCache.builder_finish] at hb
  rw [FragmentCache.value_finish hn]
  split at hb
  · cases hb
  · rw [if_neg ‹_›]
    exact h.empty j c hb

theorem Coherent.finish (h : s.Coherent) (hcall : s.calls[i]? = some call) (made : Option α) :
    (s.finish i call made).Coherent := by
  unfold Coalescing.finish
  split
  · rename_i cell hphase
    obtain ⟨hlt, hb, hvalue⟩ := h.builder_of_phase hcall hphase
    have hkey := h.keyed i call cell hcall (by rw [hphase]; rfl)
    let build : Ended α := ⟨i, cell, made⟩
    have hcell : build.outcome.cell = some cell := by cases made <;> rfl
    refine h.move hcall (ne_outcome (.inr (.inr ⟨cell, hphase⟩))) (.finish hlt made) ?_ ?_
      (h.empty_finish hlt made) ?_ ?_ ?_
    · intro c hc
      rw [FragmentCache.key_finish]
      cases hcell.symm.trans hc
      exact hkey
    · refine h.builder_finish hcall hphase (fun c => ?_) made
      cases made <;> simp [Ended.outcome]
    · intro c v hc
      rw [FragmentCache.value_finish hlt, hvalue]
      cases made with
      | none => cases hc
      | some value =>
          cases hc
          simp
    · intro b hmem
      rcases List.mem_append.mp hmem with hold | hnew
      · exact .inl hold
      · rw [List.mem_singleton.mp hnew]
        exact .inr ⟨rfl, rfl⟩
    · intro c
      rw [FragmentCache.value_finish hlt, madeFor, List.filter_append, List.filterMap_append]
      have hmade := h.made c
      rw [madeFor] at hmade
      rw [hmade]
      by_cases hc : cell = c
      · subst hc
        cases made <;> simp [hvalue]
      · simp [hc]
  all_goals exact h

theorem Coherent.cancel (h : s.Coherent) (hcall : s.calls[i]? = some call) : (s.cancel i call).Coherent := by
  unfold Coalescing.cancel
  have hstill (hphase : call.phase = .arrived ∨ ∃ c, call.phase = .holding c) :
      (s.advance i call .dropped).Coherent := by
    have hbefore (c : Nat) : call.phase ≠ .building c := by
      rcases hphase with hp | ⟨d, hp⟩ <;> simp [hp]
    refine h.move hcall (ne_outcome (hphase.imp_right .inl)) (.refl s.cache) ?_
      (h.not_builder hcall hbefore (by simp)) h.empty ?_ (fun b hb => .inl hb) h.made
    · rintro c ⟨⟩
    · rintro c v ⟨⟩
  split
  · exact hstill (.inl ‹_›)
  · exact hstill (.inr ⟨_, ‹_›⟩)
  · rename_i cell hphase
    obtain ⟨hlt, hb, hvalue⟩ := h.builder_of_phase hcall hphase
    refine h.move hcall (ne_outcome (.inr (.inr ⟨cell, hphase⟩))) (.finish hlt none) ?_
      (h.builder_finish hcall hphase (by simp) none) (h.empty_finish hlt none) ?_ (fun b hb => .inl hb) ?_
    · rintro c ⟨⟩
    · rintro c v ⟨⟩
    · intro c
      refine (h.made c).trans ?_
      rw [FragmentCache.value_finish hlt]
      split
      · rename_i hc
        simp [hc]
      · rfl
  all_goals exact h

/-- One step keeps the invariant. -/
theorem Coherent.next (h : s.Coherent) (a : CoalescingStep α) : (s.step a).Coherent := by
  have helim (i : Nat) {f : GetOrBuild α → Coalescing α}
      (hf : ∀ call, s.calls[i]? = some call → (f call).Coherent) : (s.calls[i]?.elim s f).Coherent := by
    cases hcall : s.calls[i]? with
    | none => exact h
    | some call => exact hf call hcall
  cases a with
  | getOrBuild key => exact h.getOrBuild key
  | proceed i => exact helim i fun _ hcall => h.proceed hcall
  | finish i made => exact helim i fun _ hcall => h.finish hcall made
  | cancel i => exact helim i fun _ hcall => h.cancel hcall

/-! ## Residencies -/

/-- From one phase to a later one a call keeps the cell it has, unless it is dropped. -/
inductive Leads : GetPhase α → GetPhase α → Prop
  | arrived (q) : Leads .arrived q
  | cell {p q c} (hp : p.cell = some c) (hq : q.cell = some c) : Leads p q
  | dropped (p) : Leads p .dropped

theorem Leads.refl : ∀ p : GetPhase α, Leads p p
  | .arrived => .arrived _
  | .holding _ | .building _ | .returned _ _ | .failed _ => .cell rfl rfl
  | .dropped => .dropped _

theorem Leads.trans {p q r : GetPhase α} (hpq : Leads p q) (hqr : Leads q r) : Leads p r := by
  cases hpq with
  | arrived => exact .arrived r
  | cell hp hq =>
      cases hqr with
      | arrived => cases hq
      | cell hq' hr =>
          cases hq.symm.trans hq'
          exact .cell hp hr
      | dropped => exact .dropped p
  | dropped =>
      cases hqr with
      | cell hq => cases hq
      | dropped => exact .dropped p

/-- What stays from one state to a later one: calls keep their cells, and an entry that is gone does not
come back. -/
structure Resides (s t : Coalescing α) : Prop where
  length : s.cache.cells.length ≤ t.cache.cells.length
  gone : ∀ key c, c < s.cache.cells.length → (key, c) ∉ s.cache.entries → (key, c) ∉ t.cache.entries
  kept : ∀ (i : Nat) call, s.calls[i]? = some call →
    ∃ later, t.calls[i]? = some later ∧ later.key = call.key ∧ Leads call.phase later.phase

theorem Resides.refl (s : Coalescing α) : Resides s s :=
  ⟨Nat.le_refl _, fun _ _ _ => id, fun _ call h => ⟨call, h, rfl, .refl call.phase⟩⟩

theorem Resides.trans {t u : Coalescing α} (hst : Resides s t) (htu : Resides t u) : Resides s u where
  length := Nat.le_trans hst.length htu.length
  gone key c hc h := htu.gone key c (Nat.lt_of_lt_of_le hc hst.length) (hst.gone key c hc h)
  kept i call hcall := by
    obtain ⟨mid, hmid, hkey, hleads⟩ := hst.kept i call hcall
    obtain ⟨later, hlater, hkey', hleads'⟩ := htu.kept i mid hmid
    exact ⟨later, hlater, hkey'.trans hkey, hleads.trans hleads'⟩

/-- A call moves while the cells stay as many and the entries as they are. -/
theorem Resides.advance (cache : FragmentCache α) (builds : List (Ended α)) (hcall : s.calls[i]? = some call)
    (hleads : Leads call.phase phase) (hlength : s.cache.cells.length ≤ cache.cells.length)
    (hgone : ∀ key c, c < s.cache.cells.length → (key, c) ∉ s.cache.entries → (key, c) ∉ cache.entries) :
    Resides s { s.advance i call phase with cache, builds } where
  length := hlength
  gone := hgone
  kept j other hj := by
    by_cases hij : i = j
    · subst hij
      rw [hcall] at hj
      cases hj
      exact ⟨{ call with phase }, List.getElem?_set_self (List.getElem?_eq_some_iff.mp hcall).1, rfl, hleads⟩
    · exact ⟨other, (List.getElem?_set_ne hij).trans hj, rfl, .refl other.phase⟩

theorem Resides.lookup (hcall : s.calls[i]? = some call) (hphase : call.phase = .arrived) :
    Resides s (s.proceed i call) := by
  rw [proceed_arrived hphase]
  refine .advance _ s.builds hcall (by rw [hphase]; exact .arrived _) ?_ fun key c hc h => ?_
  all_goals
    rcases FragmentCache.cellOf_cases s.cache call.key with ⟨cell, -, heq⟩ | ⟨-, hcells, hentries⟩
  · rw [heq]
  · rw [hcells, List.length_append]
    exact Nat.le_add_right _ _
  · rwa [heq]
  · intro hmem
    rcases hentries _ hmem with hnew | hold
    · cases hnew
      exact Nat.lt_irrefl _ hc
    · exact h hold

theorem step_resides (s : Coalescing α) (a : CoalescingStep α) : Resides s (s.step a) := by
  have helim (i : Nat) {f : GetOrBuild α → Coalescing α}
      (hf : ∀ call, s.calls[i]? = some call → Resides s (f call)) : Resides s (s.calls[i]?.elim s f) := by
    cases hcall : s.calls[i]? with
    | none => exact .refl s
    | some call => exact hf call hcall
  have hlength (f : Cell α → Cell α) (c : Nat) :
      s.cache.cells.length ≤ (s.cache.cells.modify c f).length := by rw [List.length_modify]
  cases a with
  | getOrBuild key =>
      refine ⟨Nat.le_refl _, fun _ _ _ => id, fun i call hi => ⟨call, ?_, rfl, .refl call.phase⟩⟩
      rwa [step, List.getElem?_append_left (List.getElem?_eq_some_iff.mp hi).1]
  | proceed i =>
      refine helim i fun call hcall => ?_
      cases hphase : call.phase with
      | arrived => exact .lookup hcall hphase
      | holding cell =>
          have hcell : call.phase.cell = some cell := by rw [hphase]; rfl
          simp only [Coalescing.proceed, hphase]
          split
          · exact .advance s.cache s.builds hcall (.cell hcell rfl) (Nat.le_refl _) fun _ _ _ => id
          · split
            · exact .advance (s.cache.start cell i) s.builds hcall (.cell hcell rfl) (hlength _ cell)
                fun _ _ _ => id
            · exact .refl s
      | building cell => simpa only [Coalescing.proceed, hphase] using .refl s
      | returned cell value => simpa only [Coalescing.proceed, hphase] using .refl s
      | failed cell => simpa only [Coalescing.proceed, hphase] using .refl s
      | dropped => simpa only [Coalescing.proceed, hphase] using .refl s
  | finish i made =>
      refine helim i fun call hcall => ?_
      unfold Coalescing.finish
      split
      · rename_i cell hphase
        refine .advance (s.cache.finish cell made) _ hcall (.cell (c := cell) (by rw [hphase]; rfl) ?_)
          (hlength _ cell) fun _ _ _ => id
        cases made <;> rfl
      all_goals exact .refl s
  | cancel i =>
      refine helim i fun call hcall => ?_
      unfold Coalescing.cancel
      split
      · exact .advance s.cache s.builds hcall (.dropped _) (Nat.le_refl _) fun _ _ _ => id
      · exact .advance s.cache s.builds hcall (.dropped _) (Nat.le_refl _) fun _ _ _ => id
      · exact .advance (s.cache.finish _ none) s.builds hcall (.dropped _) (hlength _ _) fun _ _ _ => id
      all_goals exact .refl s

theorem run_resides (s : Coalescing α) (steps : List (CoalescingStep α)) :
    Resides s (Run.final step s steps) :=
  Run.related (I := fun _ => True) Resides.refl (fun _ _ _ _ => Resides.trans)
    (fun s a _ => ⟨trivial, step_resides s a⟩) steps trivial

/-! ## Every interleaving -/

theorem step_proceed (hcall : s.calls[i]? = some call) : s.step (.proceed i) = s.proceed i call := by
  rw [step, hcall]
  rfl

theorem step_finish (hcall : s.calls[i]? = some call) (made : Option α) :
    s.step (.finish i made) = s.finish i call made := by
  rw [step, hcall]
  rfl

theorem finish_building (hphase : call.phase = .building c) (made : Option α) : s.finish i call made =
    { s.advance i call (Ended.outcome ⟨i, c, made⟩) with
      cache := s.cache.finish c made
      builds := s.builds ++ [⟨i, c, made⟩] } := by
  rw [Coalescing.finish, hphase]

theorem Coherent.built (h : s.Coherent) (hmem : call ∈ s.calls) (hphase : call.phase = .returned c v) :
    madeFor s.builds c = [v] ∧ ∃ b ∈ s.builds, b.made = some v ∧
      ∃ builder, s.calls[b.call]? = some builder ∧ builder.key = call.key := by
  obtain ⟨i, hi⟩ := List.mem_iff_getElem?.mp hmem
  have hvalue := h.returned i call c v hi hphase
  have hmade := h.made c
  rw [hvalue, Option.toList_some] at hmade
  refine ⟨hmade, ?_⟩
  have hv : v ∈ madeFor s.builds c := by
    rw [hmade]
    exact List.mem_singleton_self v
  obtain ⟨b, hb, hbv⟩ := List.mem_filterMap.mp hv
  obtain ⟨hb, hcell⟩ := List.mem_filter.mp hb
  have hcell : b.cell = c := by simpa using hcell
  obtain ⟨builder, hbuilder, houtcome⟩ := h.ended b hb
  refine ⟨b, hb, hbv, builder, hbuilder, ?_⟩
  have hkey := h.keyed i call c hi (by rw [hphase]; rfl)
  have hkey' := h.keyed b.call builder c hbuilder (by rw [houtcome, Ended.outcome, hbv, ← hcell]; rfl)
  exact Option.some.inj (hkey'.symm.trans hkey)

theorem Coherent.no_builder (h : s.Coherent) (hnone : ∀ other ∈ s.calls, other.phase ≠ .building c) :
    s.cache.builder c = none := by
  cases hb : s.cache.builder c with
  | none => rfl
  | some i =>
      obtain ⟨call, hcall, hphase⟩ := (h.building i c).mp hb
      exact absurd hphase (hnone call (List.mem_of_getElem? hcall))

theorem lt_of_key (h : cache.cells[c]?.map Cell.key = some key) : c < cache.cells.length := by
  refine Nat.lt_of_not_le fun hle => ?_
  rw [List.getElem?_eq_none hle] at h
  cases h

theorem Coherent.emptied (h : s.Coherent) (hcall : s.calls[i]? = some call) (hphase : call.phase = .building c) :
    (s.step (.finish i none)).cache.value c = none ∧
      ∀ other ∈ (s.step (.finish i none)).calls, other.phase ≠ .building c := by
  have hnext := h.next (.finish i none)
  have hcache : (s.step (.finish i none)).cache = s.cache.finish c none := by
    rw [step_finish hcall, finish_building hphase]
  obtain ⟨hlt, -, hvalue⟩ := h.builder_of_phase hcall hphase
  constructor
  · rw [hcache, FragmentCache.value_finish hlt, if_pos rfl, hvalue]
    rfl
  · intro other hother hbuilding
    obtain ⟨j, hj⟩ := List.mem_iff_getElem?.mp hother
    have hb := (hnext.building j c).mpr ⟨other, hj, hbuilding⟩
    rw [hcache, FragmentCache.builder_finish, if_pos rfl] at hb
    cases hb

/-- A call at an empty cell that no one builds for builds. -/
theorem proceed_free (hphase : call.phase = .holding c) (hvalue : s.cache.value c = none)
    (hfree : s.cache.isFree c = true) : s.proceed i call =
      { s.advance i call (.building c) with cache := s.cache.start c i } := by
  simp only [Coalescing.proceed, hphase, hvalue, hfree, if_true]

theorem Coherent.retried (h : s.Coherent) (hcall : s.calls[i]? = some call) (hphase : call.phase = .holding c)
    (hvalue : s.cache.value c = none) (hnone : ∀ other ∈ s.calls, other.phase ≠ .building c) :
    (s.step (.proceed i)).calls[i]? = some { call with phase := .building c } := by
  have hlt := lt_of_key (h.keyed i call c hcall (by rw [hphase]; rfl))
  have hfree := FragmentCache.isFree_of_builder hlt (h.no_builder hnone)
  rw [step_proceed hcall, proceed_free hphase hvalue hfree]
  exact List.getElem?_set_self (List.getElem?_eq_some_iff.mp hcall).1

/-- What a lookup finds is empty and free if what is entered for the key is. -/
theorem Coherent.fresh (h : s.Coherent) (hentry : ∀ c, (key, c) ∈ s.cache.entries → s.cache.value c = none ∧
      ∀ other ∈ s.calls, other.phase ≠ .building c) :
    (s.cache.cellOf key).1.value (s.cache.cellOf key).2 = none ∧
      (s.cache.cellOf key).1.isFree (s.cache.cellOf key).2 = true := by
  have hlt := lt_of_key (h.filed.found key)
  have hboth : s.cache.value (s.cache.cellOf key).2 = none ∧ s.cache.builder (s.cache.cellOf key).2 = none := by
    rcases FragmentCache.cellOf_cases s.cache key with ⟨cell, hmem, heq⟩ | ⟨hlast, -, -⟩
    · rw [heq]
      exact ⟨(hentry cell hmem).1, h.no_builder (hentry cell hmem).2⟩
    · simp [hlast, FragmentCache.value, FragmentCache.builder]
  refine ⟨by rw [FragmentCache.value_cellOf]; exact hboth.1, FragmentCache.isFree_of_builder hlt ?_⟩
  rw [FragmentCache.builder_cellOf]
  exact hboth.2

theorem Coherent.later (h : s.Coherent) (hentry : ∀ c, (key, c) ∈ s.cache.entries → s.cache.value c = none ∧
      ∀ other ∈ s.calls, other.phase ≠ .building c) (v : α) :
    ∃ c, (s.alone key (some v)).calls = s.calls ++ [⟨key, .returned c v⟩] := by
  obtain ⟨hvalue, hfree⟩ := h.fresh hentry
  have hlast (phase : GetPhase α) : (s.calls ++ [⟨key, phase⟩])[s.calls.length]? = some ⟨key, phase⟩ := by simp
  have hset (p q : GetPhase α) :
      (s.calls ++ [(⟨key, p⟩ : GetOrBuild α)]).set s.calls.length ⟨key, q⟩ = s.calls ++ [⟨key, q⟩] := by simp
  have hcame : s.step (.getOrBuild key) = { s with calls := s.calls ++ [⟨key, .arrived⟩] } := rfl
  have hfound : Coalescing.step { s with calls := s.calls ++ [⟨key, .arrived⟩] } (.proceed s.calls.length) =
      ⟨(s.cache.cellOf key).1, s.calls ++ [⟨key, .holding (s.cache.cellOf key).2⟩], s.builds⟩ := by
    rw [step_proceed (hlast _), proceed_arrived rfl, advance, hset]
  have hbuilds : Coalescing.step
      ⟨(s.cache.cellOf key).1, s.calls ++ [⟨key, .holding (s.cache.cellOf key).2⟩], s.builds⟩
        (.proceed s.calls.length) = ⟨(s.cache.cellOf key).1.start (s.cache.cellOf key).2 s.calls.length,
          s.calls ++ [⟨key, .building (s.cache.cellOf key).2⟩], s.builds⟩ := by
    rw [step_proceed (hlast _), proceed_free rfl hvalue hfree, advance, hset]
  refine ⟨(s.cache.cellOf key).2, ?_⟩
  rw [alone, Run.final, List.foldl_cons, List.foldl_cons, List.foldl_cons, List.foldl_cons, List.foldl_nil,
    hcame, hfound, hbuilds, step_finish (hlast _), finish_building rfl, advance]
  exact hset _ _

theorem Coherent.coalesced (h : s.Coherent) : s.Coalesced where
  built _ hmem _ _ hphase := (h.built hmem hphase).2
  order := h.ordered
  found i call hcall hphase := by
    refine ⟨(s.cache.cellOf call.key).2, ?_⟩
    rw [step_proceed hcall, proceed_arrived hphase]
    exact ⟨List.getElem?_set_self (List.getElem?_eq_some_iff.mp hcall).1, (h.ordered.lookup call.key).2⟩
  kept steps i call c hcall hcell := by
    obtain ⟨later, hlater, hkey, hleads⟩ := (run_resides s steps).kept i call hcall
    refine ⟨later, hlater, hkey, ?_⟩
    generalize call.phase = p, later.phase = q at hleads hcell ⊢
    cases hleads with
    | arrived => cases hcell
    | cell hp hq =>
        cases hcell.symm.trans hp
        exact .inl hq
    | dropped => exact .inr rfl
  gone steps := (run_resides s steps).gone
  ended := h.ended
  once c := by
    rw [h.made c]
    cases s.cache.value c <;> simp
  shared _ hmem _ _ hphase := (h.built hmem hphase).1
  emptied _ _ _ := h.emptied
  retried _ _ _ := h.retried
  later _ v hentry := h.later hentry v

/-- Whatever the keys and the builds of the calls and however their steps interleave, the builds are
shared. -/
theorem builds_coalesce (steps : List (CoalescingStep α)) :
    ∀ s ∈ Run.visited step (start : Coalescing α) steps, s.Coalesced := by
  intro s hs
  have hinv : ∀ x ∈ Run.visited step (start : Coalescing α) steps, x.Coherent :=
    Run.invariant_always (fun _ a hx => Coherent.next hx a) steps Coherent.start
  exact (hinv s hs).coalesced

/-- The first of three calls fails, the second builds in its place, the third gets what that one made. -/
theorem three_calls_coalesce :
    let steps : List (CoalescingStep Nat) := [.getOrBuild ⟨[]⟩, .getOrBuild ⟨[]⟩, .proceed 0, .proceed 1,
      .proceed 0, .proceed 1, .finish 0 none, .proceed 1, .getOrBuild ⟨[]⟩, .proceed 2, .finish 1 (some 7),
      .proceed 2]
    (Run.final step start steps).Coalesced ∧
      (Run.final step start steps).calls.map GetOrBuild.phase = [.failed 0, .returned 0 7, .returned 0 7] :=
  ⟨builds_coalesce _ _ (Run.final_mem_visited _ _), by decide⟩

end Gavel.Web.Coalescing
