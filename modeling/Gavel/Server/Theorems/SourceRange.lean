import Gavel.Lib.Extremes
import Gavel.Server.SourceRange
import Gavel.Server.Theorems.Publishing

/-!
# The published range covers what was read

The last end is the greatest instant there is. The first end is the least of those a pass reports, and a
commodity pass reports its first row, which is of its first item and not of its first instant.
-/

namespace Gavel.Server

open Gavel.Cluster (Millis)
open Gavel.Market
open Gavel.Storage (Prices RealmPrices stored)
open Gavel.Storage.Prices (precedes)

/-! ## The order of a history -/

instance precedes_total : Std.Total precedes where
  total a b := by
    rcases Nat.lt_trichotomy a.item b.item with h | h | h
    · exact .inl (.inl h)
    · rcases Int.le_total (stored a.observedAt) (stored b.observedAt) with ht | ht
      · exact .inl (.inr ⟨h, ht⟩)
      · exact .inr (.inr ⟨h.symm, ht⟩)
    · exact .inr (.inl h)

instance precedes_trans : IsTrans PriceSample precedes where
  trans a b c := by
    rintro (hab | ⟨hab, htab⟩) (hbc | ⟨hbc, htbc⟩)
    · exact .inl (Nat.lt_trans hab hbc)
    · exact .inl (hbc ▸ hab)
    · exact .inl (hab ▸ hbc)
    · exact .inr ⟨hab.trans hbc, Int.le_trans htab htbc⟩

/-- Instants of 64 bits are told apart as they are stored. -/
theorem stored_inj {at' other : Millis} (ha : at' < 2 ^ 64) (ho : other < 2 ^ 64)
    (h : stored at' = stored other) : at' = other := by
  have hmod := congrArg (· % (2 ^ 64 : Int)) h
  simp only [stored, asI64] at hmod
  have hleft : Int.bmod (at' : Nat) (2 ^ 64) % (2 ^ 64 : Int) = ((at' : Nat) : Int) := by
    rw [show (2 ^ 64 : Int) = ((2 ^ 64 : Nat) : Int) from rfl, Int.bmod_emod]
    exact Int.emod_eq_of_lt (Int.natCast_nonneg _) (Int.ofNat_lt.mpr ha)
  have hright : Int.bmod (other : Nat) (2 ^ 64) % (2 ^ 64 : Int) = ((other : Nat) : Int) := by
    rw [show (2 ^ 64 : Int) = ((2 ^ 64 : Nat) : Int) from rfl, Int.bmod_emod]
    exact Int.emod_eq_of_lt (Int.natCast_nonneg _) (Int.ofNat_lt.mpr ho)
  rw [hleft, hright] at hmod
  exact Int.ofNat_inj.mp hmod

namespace CommodityRead

variable {p : CommodityRead} {s : PriceSample}

theorem sorted (p : CommodityRead) : p.history.Pairwise precedes := by
  rw [history]
  split
  · rename_i history hhistory
    rw [p.answered history hhistory]
    exact List.pairwise_insertionSort precedes _
  · exact .nil

theorem head_precedes (h : p.history.head? = some s) : ∀ r ∈ p.history, precedes s r := by
  obtain ⟨rest, hrest⟩ := List.head?_eq_some_iff.mp h
  have hsorted := p.sorted
  rw [hrest] at hsorted ⊢
  intro r hr
  rcases List.mem_cons.mp hr with rfl | hr
  · exact .inr ⟨rfl, Int.le_refl _⟩
  · exact (List.pairwise_cons.mp hsorted).1 r hr

/-- What stands before all others is of the first row's instant. -/
theorem head_of_precedes (h64 : ∀ r ∈ p.history, r.observedAt < 2 ^ 64) (hs : s ∈ p.history)
    (hfirst : ∀ r ∈ p.history, precedes s r) :
    ∃ first, p.history.head? = some first ∧ first.observedAt = s.observedAt := by
  cases hhead : p.history.head? with
  | none =>
      rw [List.head?_eq_none_iff] at hhead
      rw [hhead] at hs
      cases hs
  | some first =>
      have hmem := List.mem_of_mem_head? hhead
      refine ⟨first, rfl, stored_inj (h64 _ hmem) (h64 _ hs) ?_⟩
      rcases hfirst first hmem with hlt | ⟨hitem, hle⟩
      · rcases head_precedes hhead s hs with hlt' | ⟨hitem', -⟩
        · exact absurd hlt (Nat.lt_asymm hlt')
        · exact absurd hitem' (Nat.ne_of_gt hlt)
      · rcases head_precedes hhead s hs with hlt' | ⟨-, hle'⟩
        · exact absurd hitem (Nat.ne_of_gt hlt')
        · exact Int.le_antisymm hle' hle

end CommodityRead

namespace SourceRun

variable {w : SourceRun} {fallback : Catalog} {range : Option Millis × Option Millis} {at' : Millis}

/-- The range covers all that the passes read, and its ends were read. -/
structure Honest (w : SourceRun) (fallback : Catalog) (range : Option Millis × Option Millis) : Prop where
  covers : ∀ at' ∈ w.read fallback, (∃ lo ∈ range.1, lo ≤ at') ∧ ∃ hi ∈ range.2, at' ≤ hi
  observed : (∀ lo ∈ range.1, lo ∈ w.read fallback) ∧ ∀ hi ∈ range.2, hi ∈ w.read fallback

/-- The earliest instant that was read was read by a per-realm pass, or is the first of the first item
of a commodity pass. -/
def EarliestLeads (w : SourceRun) (fallback : Catalog) : Prop :=
  ∀ at' ∈ w.read fallback, (∀ other ∈ w.read fallback, at' ≤ other) →
    (∃ p ∈ w.perRealm, ∃ s ∈ p.history fallback w.now, s.observedAt = at') ∨
      ∃ p ∈ w.commodity, ∃ s ∈ p.history, s.observedAt = at' ∧ ∀ r ∈ p.history, precedes s r

/-! ## The ends -/

theorem minOption_eq : minOption = Option.merge min := by
  funext a b
  cases a <;> cases b <;> rfl

theorem maxOption_eq : maxOption = Option.merge max := by
  funext a b
  cases a <;> cases b <;> rfl

/-- The ends are the least and the greatest of those that are reported. -/
theorem source_eq (w : SourceRun) (fallback : Catalog) : w.source fallback =
    (((w.reports fallback).filterMap RegionReport.oldest).min?,
      ((w.reports fallback).filterMap RegionReport.newest).max?) := by
  have hfold (l : List RegionReport) (a b : Option Millis) :
      l.foldl (fun ends report => (minOption ends.1 report.oldest, maxOption ends.2 report.newest)) (a, b) =
        ((l.map RegionReport.oldest).foldl (Option.merge min) a,
          (l.map RegionReport.newest).foldl (Option.merge max) b) := by
    induction l generalizing a b with
    | nil => rfl
    | cons report l ih =>
        rw [List.foldl_cons, ih, minOption_eq, maxOption_eq]
        rfl
  rw [source, hfold, Extremes.foldl_merge_min, Extremes.foldl_merge_max, List.filterMap_map,
    List.filterMap_map]
  rfl

theorem mem_read : at' ∈ w.read fallback ↔
    (∃ p ∈ w.commodity, ∃ s ∈ p.history, s.observedAt = at') ∨
      ∃ p ∈ w.perRealm, ∃ s ∈ p.history fallback w.now, s.observedAt = at' := by
  simp only [read, List.mem_append, List.mem_flatMap, List.mem_map]

theorem mem_reported (end' : RegionReport → Option Millis) :
    at' ∈ (w.reports fallback).filterMap end' ↔
      (∃ p ∈ w.commodity, end' p.report = some at') ∨
        ∃ p ∈ w.perRealm, end' (p.report fallback w.now) = some at' := by
  simp only [reports, List.mem_filterMap, List.mem_append, List.mem_map, or_and_right, exists_or]
  constructor
  · rintro (⟨_, ⟨p, hp, rfl⟩, h⟩ | ⟨_, ⟨p, hp, rfl⟩, h⟩)
    · exact .inl ⟨p, hp, h⟩
    · exact .inr ⟨p, hp, h⟩
  · rintro (⟨p, hp, h⟩ | ⟨p, hp, h⟩)
    · exact .inl ⟨_, ⟨p, hp, rfl⟩, h⟩
    · exact .inr ⟨_, ⟨p, hp, rfl⟩, h⟩

theorem oldest_read (h : at' ∈ (w.reports fallback).filterMap RegionReport.oldest) :
    at' ∈ w.read fallback := by
  rw [mem_read]
  rcases (mem_reported _).mp h with ⟨p, hp, hold⟩ | ⟨p, hp, hold⟩
  · obtain ⟨s, hs, hat⟩ := Option.map_eq_some_iff.mp hold
    exact .inl ⟨p, hp, s, List.mem_of_mem_head? hs, hat⟩
  · obtain ⟨s, hs, hat⟩ := List.mem_map.mp (List.min?_eq_some_iff.mp hold).1
    exact .inr ⟨p, hp, s, hs, hat⟩

theorem newest_read (h : at' ∈ (w.reports fallback).filterMap RegionReport.newest) :
    at' ∈ w.read fallback := by
  rw [mem_read]
  rcases (mem_reported _).mp h with ⟨p, hp, hnew⟩ | ⟨p, hp, hnew⟩
  · obtain ⟨s, hs, hat⟩ := List.mem_map.mp (List.max?_eq_some_iff.mp hnew).1
    exact .inl ⟨p, hp, s, hs, hat⟩
  · obtain ⟨s, hs, hat⟩ := List.mem_map.mp (List.max?_eq_some_iff.mp hnew).1
    exact .inr ⟨p, hp, s, hs, hat⟩

theorem exists_max {l : List Millis} (h : at' ∈ l) : ∃ hi, l.max? = some hi ∧ at' ≤ hi := by
  cases hmax : l.max? with
  | none =>
      rw [List.max?_eq_none_iff.mp hmax] at h
      cases h
  | some hi => exact ⟨hi, rfl, (List.max?_eq_some_iff.mp hmax).2 at' h⟩

theorem exists_min {l : List Millis} (h : at' ∈ l) : ∃ lo, l.min? = some lo ∧ lo ≤ at' := by
  cases hmin : l.min? with
  | none =>
      rw [List.min?_eq_none_iff.mp hmin] at h
      cases h
  | some lo => exact ⟨lo, rfl, (List.min?_eq_some_iff.mp hmin).2 at' h⟩

theorem newest_covers (h : at' ∈ w.read fallback) : ∃ hi ∈ (w.source fallback).2, at' ≤ hi := by
  have hreported : ∃ hi ∈ (w.reports fallback).filterMap RegionReport.newest, at' ≤ hi := by
    rcases mem_read.mp h with ⟨p, hp, s, hs, rfl⟩ | ⟨p, hp, s, hs, rfl⟩
    · obtain ⟨hi, hmax, hle⟩ := exists_max (List.mem_map_of_mem (f := PriceSample.observedAt) hs)
      exact ⟨hi, (mem_reported _).mpr (.inl ⟨p, hp, hmax⟩), hle⟩
    · obtain ⟨hi, hmax, hle⟩ := exists_max (List.mem_map_of_mem (f := RealmSample.observedAt) hs)
      exact ⟨hi, (mem_reported _).mpr (.inr ⟨p, hp, hmax⟩), hle⟩
  obtain ⟨hi, hhi, hle⟩ := hreported
  obtain ⟨top, htop, hle'⟩ := exists_max hhi
  rw [source_eq]
  exact ⟨top, htop, Nat.le_trans hle hle'⟩

theorem oldest_of_leads (h64 : ∀ at' ∈ w.read fallback, at' < 2 ^ 64) (hleads : w.EarliestLeads fallback)
    (hread : at' ∈ w.read fallback) (hleast : ∀ other ∈ w.read fallback, at' ≤ other) :
    at' ∈ (w.reports fallback).filterMap RegionReport.oldest := by
  rcases hleads at' hread hleast with ⟨p, hp, s, hs, rfl⟩ | ⟨p, hp, s, hs, rfl, hfirst⟩
  · obtain ⟨lo, hmin, hle⟩ := exists_min (List.mem_map_of_mem (f := RealmSample.observedAt) hs)
    have hlo : lo ∈ (w.reports fallback).filterMap RegionReport.oldest :=
      (mem_reported _).mpr (.inr ⟨p, hp, hmin⟩)
    obtain rfl : lo = s.observedAt := Nat.le_antisymm hle (hleast lo (oldest_read hlo))
    exact hlo
  · have hbound : ∀ r ∈ p.history, r.observedAt < 2 ^ 64 := fun r hr =>
      h64 _ (mem_read.mpr (.inl ⟨p, hp, r, hr, rfl⟩))
    obtain ⟨first, hhead, hsame⟩ := CommodityRead.head_of_precedes hbound hs hfirst
    refine (mem_reported _).mpr (.inl ⟨p, hp, ?_⟩)
    rw [CommodityRead.report, hhead, ← hsame]
    rfl

theorem source_honest_iff (h64 : ∀ at' ∈ w.read fallback, at' < 2 ^ 64) :
    w.Honest fallback (w.source fallback) ↔ w.EarliestLeads fallback := by
  constructor
  · intro hhonest at' hread hleast
    obtain ⟨lo, hlo, hle⟩ := (hhonest.covers at' hread).1
    obtain rfl : lo = at' := Nat.le_antisymm hle (hleast lo (hhonest.observed.1 lo hlo))
    rw [source_eq] at hlo
    rcases (mem_reported _).mp (List.min?_eq_some_iff.mp hlo).1 with ⟨p, hp, hold⟩ | ⟨p, hp, hold⟩
    · obtain ⟨s, hs, hat⟩ := Option.map_eq_some_iff.mp hold
      exact .inr ⟨p, hp, s, List.mem_of_mem_head? hs, hat, CommodityRead.head_precedes hs⟩
    · obtain ⟨s, hs, hat⟩ := List.mem_map.mp (List.min?_eq_some_iff.mp hold).1
      exact .inl ⟨p, hp, s, hs, hat⟩
  · intro hleads
    refine ⟨fun at' hread => ⟨?_, newest_covers hread⟩, ?_, ?_⟩
    · obtain ⟨least, hmin, hle⟩ := exists_min hread
      obtain ⟨hmem, hall⟩ := List.min?_eq_some_iff.mp hmin
      have hreported := oldest_of_leads h64 hleads hmem hall
      obtain ⟨lo, hlo, hle'⟩ := exists_min hreported
      rw [source_eq]
      exact ⟨lo, hlo, Nat.le_trans hle' hle⟩
    · intro lo hlo
      rw [source_eq] at hlo
      exact oldest_read (List.min?_eq_some_iff.mp hlo).1
    · intro hi hhi
      rw [source_eq] at hhi
      exact newest_read (List.max?_eq_some_iff.mp hhi).1

/-- A run none of whose passes fails publishes the ends. -/
theorem publishedSource_eq {F : Floating} {a : Artifacts} {version : Nat} (hfallback : w.fallback = some fallback)
    (hregions : ¬ (w.conditions.commodity.isEmpty && w.conditions.perRealm.isEmpty) = true)
    (hopened : w.opened = .ok version) (hall : ∀ p ∈ w.conditions.commodity, p.Answered)
    (hrealms : ∀ r ∈ w.conditions.perRealm, r.2 = .ok ()) :
    w.publishedSource F a = some (w.source fallback) := by
  obtain ⟨staged, failed, hend, -⟩ :=
    publish_published (F := F) (a := a) (w := w.conditions) hfallback hregions hopened hall hrealms
  rw [publishedSource, hfallback, hend]

/-- The range a run publishes covers what its passes read, with ends that were read, exactly when the
earliest instant leads. -/
theorem published_range_iff (F : Floating) (a : Artifacts) (hfallback : w.fallback = some fallback)
    (h64 : ∀ at' ∈ w.read fallback, at' < 2 ^ 64) (hpublished : w.publishedSource F a = some range) :
    w.Honest fallback range ↔ w.EarliestLeads fallback := by
  have hrange : range = w.source fallback := by
    rw [publishedSource, hfallback] at hpublished
    split at hpublished
    · rename_i hsame _
      cases hsame
      exact (Option.some.inj hpublished).symm
    · cases hpublished
  rw [hrange]
  exact source_honest_iff h64

/-! ## Two runs -/

/-- A run over one region with these observations. -/
def regionRun (samples : List PriceSample) : SourceRun :=
  let prices : Prices := { Prices.empty with samples := samples.foldl Keyed.add .empty }
  { owners := [(7, flasks)]
    fallback := some flasks
    opened := .ok 1
    now := 3 * hourMs
    commodity := [
      { pass := { alone fun _ => .produced with history := .ok (prices.historyInRegion .eu) }
        prices
        answered := by rintro _ ⟨⟩; rfl }]
    perRealm := []
    publishing := .ok () }

theorem regionRun_published (F : Floating) (samples : List PriceSample) :
    (regionRun samples).publishedSource F .new = some ((regionRun samples).source flasks) := by
  refine publishedSource_eq rfl Bool.false_ne_true rfl (fun p hp => ?_) (by simp [conditions, regionRun])
  obtain rfl := List.mem_singleton.mp hp
  exact ⟨⟨_, rfl⟩, ⟨_, rfl⟩, rfl⟩

/-- One item, seen twice. -/
theorem published_range_one_item :
    (regionRun [hundred 7 (2 * hourMs), hundred 7 hourMs]).Honest flasks (some hourMs, some (2 * hourMs)) := by
  have hleads : (regionRun [hundred 7 (2 * hourMs), hundred 7 hourMs]).EarliestLeads flasks := by
    intro at' hread hleast
    refine .inr ⟨_, List.mem_cons_self, hundred 7 hourMs, by decide, ?_, by decide⟩
    exact Nat.le_antisymm (by revert at'; decide) (hleast hourMs (by decide))
  exact (published_range_iff ⟨fun _ _ => 0, fun _ _ => none⟩ .new rfl (by decide)
    (regionRun_published _ _)).mpr hleads

/-- The item with the greater number was seen first. -/
theorem later_item_is_older :
    (regionRun [hundred 7 (2 * hourMs), hundred 8 hourMs]).publishedSource ⟨fun _ _ => 0, fun _ _ => none⟩ .new =
        some (some (2 * hourMs), some (2 * hourMs)) ∧
      ¬ (regionRun [hundred 7 (2 * hourMs), hundred 8 hourMs]).Honest flasks
        (some (2 * hourMs), some (2 * hourMs)) := by
  constructor
  · rw [regionRun_published]
    decide
  · intro hhonest
    obtain ⟨lo, hlo, hle⟩ := (hhonest.covers hourMs (by decide)).1
    obtain rfl := Option.some.inj hlo
    exact absurd hle (by decide)

end SourceRun

end Gavel.Server
