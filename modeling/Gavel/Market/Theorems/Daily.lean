import Gavel.Lib.Extremes
import Gavel.Market.Daily
import Gavel.Market.Theorems.WindowRows
import Mathlib.Order.Interval.Finset.Nat

/-!
# The evidence behind the row of a day

A row counts the observations with listings and their hours, has figures unless it is refused, and its
figures are those of the first hour, the last hour and the extremes. The gate asks for twelve hours and a
refusal says eight, and an extreme no price passes keeps the instant zero.
-/

namespace Gavel.Market

open Gavel.Cluster (Millis)

variable {F : Floating} {mean : Nat → Nat → Nat} {observations l : List DayObservation}
  {o : DayObservation} {figure : DayObservation → Nat} {v : Nat}

/-- The observations that say anything of the price. -/
def listed (observations : List DayObservation) : List DayObservation :=
  observations.filter fun o => 0 < o.listings

def DayObservation.hour (o : DayObservation) : Nat := o.at' / hourMs

/-- How many hours have an observation. -/
def hoursListed (observations : List DayObservation) : Nat :=
  ((listed observations).map DayObservation.hour).toFinset.card

namespace DailyRollup

/-- The numbers a page shows of a day. -/
def figures (r : DailyRollup) : List Nat :=
  [r.openPrice, r.closePrice, r.lowPrice, r.lowAt, r.highPrice, r.highAt, r.meanPrice, r.p05Price, r.p25Price,
    r.medianPrice, r.p75Price, r.p95Price, r.openQuantity, r.closeQuantity, r.meanQuantity, r.openListings,
    r.closeListings, r.meanListings]

/-- Some figure is filled in. -/
def Carries (r : DailyRollup) : Prop := ∃ n ∈ r.figures, n ≠ 0

/-- The figures are those of the observations. -/
structure Figures (r : DailyRollup) (l : List DayObservation) : Prop where
  low : IsLeast {p | ∃ o ∈ l, o.price = p} r.lowPrice
  high : IsGreatest {p | ∃ o ∈ l, o.price = p} r.highPrice
  opens : r.lowPrice ≤ r.openPrice ∧ r.openPrice ≤ r.highPrice
  closes : r.lowPrice ≤ r.closePrice ∧ r.closePrice ≤ r.highPrice
  lowAt : IsLeast {t | ∃ o ∈ l, o.price = r.lowPrice ∧ o.at' = t} r.lowAt
  highAt : IsLeast {t | ∃ o ∈ l, o.price = r.highPrice ∧ o.at' = t} r.highAt
  first : ∃ h, IsLeast {k | ∃ o ∈ l, o.hour = k} h ∧
    (l.filter (·.hour = h)).getLast?.map DayObservation.price = some r.openPrice
  last : ∃ h, IsGreatest {k | ∃ o ∈ l, o.hour = k} h ∧
    (l.filter (·.hour = h)).getLast?.map DayObservation.price = some r.closePrice

/-- The evidence of a row is that of the observations. -/
structure Honest (r : DailyRollup) (observations : List DayObservation) : Prop where
  samples : r.samples = (listed observations).length
  buckets : r.observedBuckets = hoursListed observations
  carries : r.Carries ↔ r.insufficient = none
  refused : r.insufficient = some "not enough history" →
    ∃ have' need, r.insufficientHave = some have' ∧ r.insufficientNeed = some need ∧ have' < need
  figures : r.Carries → r.Figures (listed observations)

end DailyRollup

theorem pos_of_mem_listed : ∀ o ∈ listed observations, 0 < o.listings := fun o ho => by
  simpa using (List.mem_filter.mp ho).2

/-! ## The last of each hour -/

theorem hourlyLast_eq (figure : DayObservation → Nat) (observations : List DayObservation) :
    hourlyLast figure observations =
      (Assoc.collect DayObservation.hour (fun o _ => figure o) (listed observations)).map Prod.snd := by
  rw [hourlyLast, Assoc.collect, listed, List.foldl_filter]
  simp only [decide_eq_true_eq]
  rfl

theorem length_hourlyLast (figure : DayObservation → Nat) (observations : List DayObservation) :
    (hourlyLast figure observations).length = hoursListed observations := by
  rw [hourlyLast_eq, List.length_map, Assoc.length_collect]
  rfl

theorem hourlyLast_ne_nil (h : listed observations ≠ []) : hourlyLast figure observations ≠ [] := by
  rw [hourlyLast_eq]
  intro hnil
  exact Assoc.collect_ne_nil h (List.map_eq_nil_iff.mp hnil)

theorem head_hourlyLast (figure : DayObservation → Nat) (h : listed observations ≠ []) :
    ∃ k, IsLeast {k | ∃ o ∈ listed observations, o.hour = k} k ∧
      ((listed observations).filter (·.hour = k)).getLast?.map figure =
        some ((hourlyLast figure observations).headD 0) := by
  obtain ⟨e, he⟩ : ∃ e, (Assoc.collect DayObservation.hour (fun o _ => figure o)
      (listed observations)).head? = some e :=
    Option.isSome_iff_exists.mp (by simpa using Assoc.collect_ne_nil h)
  obtain ⟨hleast, hlast⟩ := Assoc.head_collect he
  refine ⟨e.1, hleast, ?_⟩
  rw [← Assoc.combine_last, hlast, hourlyLast_eq, List.headD_eq_head?_getD, List.head?_map, he]
  rfl

theorem last_hourlyLast (figure : DayObservation → Nat) (h : listed observations ≠ []) :
    ∃ k, IsGreatest {k | ∃ o ∈ listed observations, o.hour = k} k ∧
      ((listed observations).filter (·.hour = k)).getLast?.map figure =
        some ((hourlyLast figure observations).getLastD 0) := by
  obtain ⟨e, he⟩ : ∃ e, (Assoc.collect DayObservation.hour (fun o _ => figure o)
      (listed observations)).getLast? = some e :=
    Option.isSome_iff_exists.mp (by simpa using Assoc.collect_ne_nil h)
  obtain ⟨hgreatest, hlast⟩ := Assoc.last_collect he
  refine ⟨e.1, hgreatest, ?_⟩
  rw [← Assoc.combine_last, hlast, hourlyLast_eq, List.getLastD_eq_getLast?, List.getLast?_map, he]
  rfl

theorem exists_of_last {k : Nat}
    (h : ((listed observations).filter (·.hour = k)).getLast?.map figure = some v) :
    ∃ o ∈ listed observations, figure o = v := by
  obtain ⟨o, ho, rfl⟩ := Option.map_eq_some_iff.mp h
  exact ⟨o, (List.mem_filter.mp (List.mem_of_getLast? ho)).1, rfl⟩

/-! ## The extremes -/

namespace DayExtremes

/-- The pass over the day is one over the listed observations. -/
theorem foldl_note (observations : List DayObservation) :
    observations.foldl note start = (listed observations).foldl note start := by
  rw [listed, List.foldl_filter]
  congr 1
  funext held o
  by_cases h : 0 < o.listings
  · simp [h]
  · simp [note, h]

/-- Its four figures are two running extremes, its count is the length. -/
theorem foldl_note_eq (h : ∀ o ∈ l, 0 < o.listings) :
    (l.foldl note start).samplesCount = l.length % 2 ^ 32 ∧
      ((l.foldl note start).minPrice, (l.foldl note start).minAt) =
        l.foldl (Extremes.lower DayObservation.price DayObservation.at') (maxU64, 0) ∧
      ((l.foldl note start).maxPrice, (l.foldl note start).maxAt) =
        l.foldl (Extremes.raise DayObservation.price DayObservation.at') (0, 0) := by
  induction l using List.reverseRecOn with
  | nil => exact ⟨rfl, rfl, rfl⟩
  | append_singleton l o ih =>
      simp only [List.forall_mem_append, List.forall_mem_singleton] at h
      obtain ⟨hl, ho⟩ := h
      obtain ⟨hcount, hmin, hmax⟩ := ih hl
      simp only [List.foldl_append, List.foldl_cons, List.foldl_nil, List.length_append, List.length_singleton]
      rw [← hmin, ← hmax]
      generalize l.foldl note start = held at hcount ⊢
      rw [note, if_pos ho]
      refine ⟨?_, ?_, ?_⟩
      · simp only
        split
        · split
          all_goals simp only [hcount, Nat.mod_add_mod]
        · split
          all_goals simp only [hcount, Nat.mod_add_mod]
      · rw [Extremes.lower]
        by_cases hlow : o.price < held.minPrice
        · simp only [hlow, if_true]
          split <;> rfl
        · simp only [hlow, if_false]
          split <;> rfl
      · rw [Extremes.raise]
        by_cases hlow : o.price < held.minPrice
        · simp only [hlow, if_true]
          split <;> rfl
        · simp only [hlow, if_false]
          split <;> rfl

/-- The lowest price is the least, and its instant the earliest unless every price is the greatest there
is. -/
theorem min_spec (h : ∀ o ∈ l, 0 < o.listings) (hne : l ≠ []) (hu : ∀ o ∈ l, o.price ≤ maxU64)
    (hsorted : l.Pairwise fun a b => a.at' ≤ b.at') :
    IsLeast {p | ∃ o ∈ l, o.price = p} (l.foldl note start).minPrice ∧
      (IsLeast {t | ∃ o ∈ l, o.price = (l.foldl note start).minPrice ∧ o.at' = t}
          (l.foldl note start).minAt ↔
        (∃ o ∈ l, o.price < maxU64) ∨ ∃ o ∈ l, o.at' = 0) := by
  obtain ⟨-, hmin, -⟩ := foldl_note_eq h
  obtain ⟨hle, hcases⟩ :=
    Extremes.foldl_lower DayObservation.price DayObservation.at' l (maxU64, 0)
  rw [← hmin] at hle hcases
  have hlower : (l.foldl note start).minPrice ∈ lowerBounds {p | ∃ o ∈ l, o.price = p} := by
    rintro p ⟨o, ho, rfl⟩
    exact hle o ho
  rcases hcases with ⟨heq, hall⟩ | ⟨hlt, o, hfind, htag⟩
  · obtain ⟨hprice, hat⟩ := Prod.mk.inj heq
    have hmax : ∀ o ∈ l, o.price = maxU64 := fun o ho => Nat.le_antisymm (hu o ho) (hall o ho)
    obtain ⟨o, ho⟩ := List.exists_mem_of_ne_nil l hne
    refine ⟨⟨⟨o, ho, (hmax o ho).trans hprice.symm⟩, hlower⟩, ?_⟩
    rw [hprice, hat]
    constructor
    · rintro ⟨⟨o, ho, -, hzero⟩, -⟩
      exact .inr ⟨o, ho, hzero⟩
    · rintro (⟨o, ho, hlt⟩ | ⟨o, ho, hzero⟩)
      · exact absurd (hmax o ho) (Nat.ne_of_lt hlt)
      · exact ⟨⟨o, ho, hmax o ho, hzero⟩, fun t _ => Nat.zero_le t⟩
  · have ho : o ∈ l := List.mem_of_find?_eq_some hfind
    have hprice : o.price = (l.foldl note start).minPrice := by simpa using List.find?_some hfind
    have hleast := isLeast_find hsorted hfind
    simp only [decide_eq_true_eq] at hleast
    refine ⟨⟨⟨o, ho, hprice⟩, hlower⟩, iff_of_true ?_ (.inl ⟨o, ho, hprice ▸ hlt⟩)⟩
    rw [htag] at hleast
    exact hleast

/-- The highest price is the greatest, and its instant the earliest unless every price is zero. -/
theorem max_spec (h : ∀ o ∈ l, 0 < o.listings) (hne : l ≠ [])
    (hsorted : l.Pairwise fun a b => a.at' ≤ b.at') :
    IsGreatest {p | ∃ o ∈ l, o.price = p} (l.foldl note start).maxPrice ∧
      (IsLeast {t | ∃ o ∈ l, o.price = (l.foldl note start).maxPrice ∧ o.at' = t}
          (l.foldl note start).maxAt ↔
        (∃ o ∈ l, 0 < o.price) ∨ ∃ o ∈ l, o.at' = 0) := by
  obtain ⟨-, -, hmax⟩ := foldl_note_eq h
  obtain ⟨hle, hcases⟩ :=
    Extremes.foldl_raise DayObservation.price DayObservation.at' l (0, 0)
  rw [← hmax] at hle hcases
  have hupper : (l.foldl note start).maxPrice ∈ upperBounds {p | ∃ o ∈ l, o.price = p} := by
    rintro p ⟨o, ho, rfl⟩
    exact hle o ho
  rcases hcases with ⟨heq, hall⟩ | ⟨hlt, o, hfind, htag⟩
  · obtain ⟨hprice, hat⟩ := Prod.mk.inj heq
    have hzero : ∀ o ∈ l, o.price = 0 := fun o ho => Nat.le_zero.mp (hall o ho)
    obtain ⟨o, ho⟩ := List.exists_mem_of_ne_nil l hne
    refine ⟨⟨⟨o, ho, (hzero o ho).trans hprice.symm⟩, hupper⟩, ?_⟩
    rw [hprice, hat]
    constructor
    · rintro ⟨⟨o, ho, -, hinstant⟩, -⟩
      exact .inr ⟨o, ho, hinstant⟩
    · rintro (⟨o, ho, hlt⟩ | ⟨o, ho, hinstant⟩)
      · exact absurd (hzero o ho) (Nat.ne_of_gt hlt)
      · exact ⟨⟨o, ho, hzero o ho, hinstant⟩, fun t _ => Nat.zero_le t⟩
  · have ho : o ∈ l := List.mem_of_find?_eq_some hfind
    have hprice : o.price = (l.foldl note start).maxPrice := by simpa using List.find?_some hfind
    have hleast := isLeast_find hsorted hfind
    simp only [decide_eq_true_eq] at hleast
    refine ⟨⟨⟨o, ho, hprice⟩, hupper⟩, iff_of_true ?_ (.inl ⟨o, ho, hprice ▸ hlt⟩)⟩
    rw [htag] at hleast
    exact hleast

end DayExtremes

/-! ## The row -/

theorem hour_bounds {day : Nat} (h : o.at' / dayMs = day) : 24 * day ≤ o.hour ∧ o.hour < 24 * day + 24 := by
  have hall : ∀ t : Nat, t / dayMs = day → 24 * day ≤ t / hourMs ∧ t / hourMs < 24 * day + 24 := by
    intro t ht
    unfold dayMs hourMs at *
    omega
  exact hall o.at' h

theorem hoursListed_le {day : Nat} (h : ∀ o ∈ observations, o.at' / dayMs = day) :
    hoursListed observations ≤ 24 := by
  have hsub : ((listed observations).map DayObservation.hour).toFinset ⊆
      Finset.Ico (24 * day) (24 * day + 24) := by
    intro k hk
    obtain ⟨o, ho, rfl⟩ := List.mem_map.mp (List.mem_toFinset.mp hk)
    exact Finset.mem_Ico.mpr (hour_bounds (h o (List.mem_filter.mp ho).1))
  have hcard := Finset.card_le_card hsub
  rwa [Nat.card_Ico, Nat.add_sub_cancel_left] at hcard

namespace DailyRollup

theorem compute_unlisted (F : Floating) (mean : Nat → Nat → Nat) (h : listed observations = []) :
    ∃ why, why ≠ "not enough history" ∧
      compute F mean observations = { default with insufficient := some why } := by
  have hprices : hourlyLast DayObservation.price observations = [] := by
    rw [hourlyLast_eq, h]
    rfl
  unfold compute
  split
  · exact ⟨_, by decide, rfl⟩
  · simp only [hprices]
    exact ⟨_, by decide, rfl⟩

theorem compute_refused (F : Floating) (mean : Nat → Nat → Nat) (h : listed observations ≠ []) (hfew : hoursListed observations < 12) :
    compute F mean observations = { default with
      samples := (listed observations).length % 2 ^ 32
      observedBuckets := hoursListed observations
      insufficient := some "not enough history"
      insufficientHave := some (hoursListed observations)
      insufficientNeed := some 8 } := by
  have hne : observations ≠ [] := by
    rintro rfl
    exact h rfl
  have hprices : hourlyLast DayObservation.price observations ≠ [] := hourlyLast_ne_nil h
  have hlt : hoursListed observations % 2 ^ 32 = hoursListed observations :=
    Nat.mod_eq_of_lt (Nat.lt_trans hfew (by decide))
  have hadmit (coverage : Option Nat) : gates.admitBand (hoursListed observations) coverage =
      .error (.notEnoughHistory (hoursListed observations) 12) := if_pos hfew
  have hextremes := DayExtremes.foldl_note observations
  unfold compute
  rw [if_neg (by simpa using hne)]
  simp only [List.isEmpty_iff, hprices, if_false, length_hourlyLast, hlt, hadmit, hextremes,
    (DayExtremes.foldl_note_eq pos_of_mem_listed).1]
  rfl

/-- A day of enough hours, up to its means and quantiles. -/
theorem compute_admitted (h : listed observations ≠ []) (hmany : 12 ≤ hoursListed observations)
    (hday : hoursListed observations ≤ 24) {r : DailyRollup} (hr : compute F mean observations = r) :
    r.samples = (listed observations).length % 2 ^ 32 ∧ r.observedBuckets = hoursListed observations ∧
      r.insufficient = none ∧
      r.openPrice = (hourlyLast DayObservation.price observations).headD 0 ∧
      r.closePrice = (hourlyLast DayObservation.price observations).getLastD 0 ∧
      r.openListings = (hourlyLast DayObservation.listings observations).headD 0 ∧
      r.lowPrice = ((listed observations).foldl DayExtremes.note DayExtremes.start).minPrice ∧
      r.lowAt = ((listed observations).foldl DayExtremes.note DayExtremes.start).minAt ∧
      r.highPrice = ((listed observations).foldl DayExtremes.note DayExtremes.start).maxPrice ∧
      r.highAt = ((listed observations).foldl DayExtremes.note DayExtremes.start).maxAt := by
  have hne : observations ≠ [] := by
    rintro rfl
    exact h rfl
  have hprices : hourlyLast DayObservation.price observations ≠ [] := hourlyLast_ne_nil h
  have hlt : hoursListed observations % 2 ^ 32 = hoursListed observations :=
    Nat.mod_eq_of_lt (Nat.lt_of_le_of_lt hday (by decide))
  -- Twelve hours are half of the day.
  have hcoverage : ¬ hoursListed observations * 100 % 2 ^ 32 / 24 < 25 := by
    rw [Nat.mod_eq_of_lt (by omega)]
    omega
  have hadmit : gates.admitBand (hoursListed observations)
      (some (hoursListed observations * 100 % 2 ^ 32 / 24)) = .ok () := by
    have htails : ¬ hoursListed observations < gates.tails := Nat.not_lt.mpr hmany
    unfold Gates.admitBand
    rw [if_neg htails]
    exact if_neg hcoverage
  have hextremes := DayExtremes.foldl_note observations
  unfold compute at hr
  rw [if_neg (by simpa using hne)] at hr
  simp only [List.isEmpty_iff, hprices, if_false, length_hourlyLast, hlt, hadmit, hextremes,
    (DayExtremes.foldl_note_eq pos_of_mem_listed).1] at hr
  split at hr
  all_goals
    subst hr
    exact ⟨rfl, rfl, rfl, rfl, rfl, rfl, rfl, rfl, rfl, rfl⟩

/-! ## Honesty -/

/-- The days on which the row says what the observations do: not so many of them that the count wraps, no
eight to eleven hours, and of twelve hours or more some price above zero and some below the greatest there
is, if the day is not the first. -/
structure Evident (observations : List DayObservation) : Prop where
  few : (listed observations).length < 2 ^ 32
  gate : ¬ (8 ≤ hoursListed observations ∧ hoursListed observations < 12)
  extremes : 12 ≤ hoursListed observations → (∀ o ∈ listed observations, o.at' ≠ 0) →
    (∃ o ∈ listed observations, o.price < maxU64) ∧ ∃ o ∈ listed observations, 0 < o.price

theorem lt_of_mod_eq {m n : Nat} (hn : 0 < n) (h : m % n = m) : m < n := h ▸ Nat.mod_lt m hn

theorem honest_unlisted (h : listed observations = []) : (compute F mean observations).Honest observations := by
  obtain ⟨why, hwhy, hr⟩ := compute_unlisted F mean h
  have hnot : ¬ ({ default with insufficient := some why } : DailyRollup).Carries := by
    rintro ⟨n, hn, hpos⟩
    revert hn
    simp [figures, default, hpos]
  rw [hr]
  exact {
    samples := by rw [h]; rfl
    buckets := by rw [hoursListed, h]; rfl
    carries := iff_of_false hnot (by simp)
    refused := fun hrefused => absurd (Option.some.inj hrefused) hwhy
    figures := fun hcarries => absurd hcarries hnot }

theorem honest_refused_iff (h : listed observations ≠ []) (hfew : hoursListed observations < 12) :
    (compute F mean observations).Honest observations ↔
      (listed observations).length < 2 ^ 32 ∧ hoursListed observations < 8 := by
  have hr := compute_refused F mean h hfew
  have hnot : ¬ (compute F mean observations).Carries := by
    rintro ⟨n, hn, hpos⟩
    revert hn
    simp [hr, figures, default, hpos]
  constructor
  · intro hhonest
    obtain ⟨have', need, hhave, hneed, hlt⟩ := hhonest.refused (by rw [hr])
    have hsamples := hhonest.samples
    rw [hr] at hsamples hhave hneed
    cases hhave
    cases hneed
    exact ⟨lt_of_mod_eq (by decide) hsamples, hlt⟩
  · rintro ⟨hlen, hlt⟩
    exact {
      samples := by rw [hr]; exact Nat.mod_eq_of_lt hlen
      buckets := by rw [hr]
      carries := iff_of_false hnot (by simp [hr])
      refused := fun _ => ⟨_, _, by rw [hr], by rw [hr], hlt⟩
      figures := fun hcarries => absurd hcarries hnot }

theorem honest_admitted_iff (hsorted : observations.Pairwise fun a b => a.at' ≤ b.at')
    (hu : ∀ o ∈ observations, o.price ≤ maxU64) (hmany : 12 ≤ hoursListed observations)
    (hday : hoursListed observations ≤ 24) :
    (compute F mean observations).Honest observations ↔ (listed observations).length < 2 ^ 32 ∧
      ((∃ o ∈ listed observations, o.price < maxU64) ∨ ∃ o ∈ listed observations, o.at' = 0) ∧
      ((∃ o ∈ listed observations, 0 < o.price) ∨ ∃ o ∈ listed observations, o.at' = 0) := by
  have h : listed observations ≠ [] := by
    intro hnil
    rw [hoursListed, hnil] at hmany
    cases hmany
  obtain ⟨hsamples, hbuckets, hinsufficient, hopen, hclose, hlistings, hlow, hlowAt, hhigh, hhighAt⟩ :=
    compute_admitted h hmany hday (rfl : compute F mean observations = _)
  have hbounded : ∀ o ∈ listed observations, o.price ≤ maxU64 := fun o ho => hu o (List.mem_filter.mp ho).1
  obtain ⟨hmin, hminAt⟩ :=
    DayExtremes.min_spec pos_of_mem_listed h hbounded (hsorted.sublist List.filter_sublist)
  obtain ⟨hmax, hmaxAt⟩ := DayExtremes.max_spec pos_of_mem_listed h (hsorted.sublist List.filter_sublist)
  rw [← hlow] at hmin hminAt
  rw [← hhigh] at hmax hmaxAt
  rw [← hlowAt] at hminAt
  rw [← hhighAt] at hmaxAt
  have hcarries : (compute F mean observations).Carries := by
    obtain ⟨k, -, hfirst⟩ := head_hourlyLast DayObservation.listings h
    obtain ⟨o, ho, heq⟩ := exists_of_last hfirst
    have hpos := pos_of_mem_listed o ho
    refine ⟨(compute F mean observations).openListings, by simp [figures], ?_⟩
    rw [hlistings, ← heq]
    exact Nat.ne_of_gt hpos
  constructor
  · intro hhonest
    have hfigures := hhonest.figures hcarries
    have hlen := hhonest.samples
    rw [hsamples] at hlen
    exact ⟨lt_of_mod_eq (by decide) hlen, hminAt.mp hfigures.lowAt, hmaxAt.mp hfigures.highAt⟩
  · rintro ⟨hlen, hbelow, habove⟩
    obtain ⟨first, hfirst, hfirstPrice⟩ := head_hourlyLast DayObservation.price h
    obtain ⟨last, hlast, hlastPrice⟩ := last_hourlyLast DayObservation.price h
    rw [← hopen] at hfirstPrice
    rw [← hclose] at hlastPrice
    have hopened := exists_of_last hfirstPrice
    have hclosed := exists_of_last hlastPrice
    exact {
      samples := by rw [hsamples, Nat.mod_eq_of_lt hlen]
      buckets := hbuckets
      carries := iff_of_true hcarries hinsufficient
      refused := fun hrefused => by rw [hinsufficient] at hrefused; cases hrefused
      figures := fun _ => {
        low := hmin
        high := hmax
        opens := ⟨hmin.2 hopened, hmax.2 hopened⟩
        closes := ⟨hmin.2 hclosed, hmax.2 hclosed⟩
        lowAt := hminAt.mpr hbelow
        highAt := hmaxAt.mpr habove
        first := ⟨first, hfirst, hfirstPrice⟩
        last := ⟨last, hlast, hlastPrice⟩ } }

/-- The row of a day is honest exactly on the days that are evident. -/
theorem daily_honest_iff (F : Floating) (mean : Nat → Nat → Nat) {d : Nat}
    (hsorted : observations.Pairwise fun a b => a.at' ≤ b.at')
    (hday : ∀ o ∈ observations, o.at' / dayMs = d) (hu : ∀ o ∈ observations, o.price ≤ maxU64) :
    (compute F mean observations).Honest observations ↔ Evident observations := by
  have hhours := hoursListed_le hday
  by_cases h : listed observations = []
  · have hzero : hoursListed observations = 0 := by rw [hoursListed, h]; rfl
    refine iff_of_true (honest_unlisted h) ⟨?_, ?_, ?_⟩
    · rw [h]
      decide
    · omega
    · omega
  · by_cases hmany : 12 ≤ hoursListed observations
    · rw [honest_admitted_iff hsorted hu hmany hhours]
      constructor
      · rintro ⟨hlen, hbelow, habove⟩
        refine ⟨hlen, by omega, fun _ hlater => ?_⟩
        have hnone : ¬ ∃ o ∈ listed observations, o.at' = 0 := fun ⟨o, ho, hzero⟩ => hlater o ho hzero
        exact ⟨hbelow.resolve_right hnone, habove.resolve_right hnone⟩
      · rintro ⟨hlen, -, hextremes⟩
        refine ⟨hlen, ?_⟩
        by_cases hfirst : ∃ o ∈ listed observations, o.at' = 0
        · exact ⟨.inr hfirst, .inr hfirst⟩
        · obtain ⟨hbelow, habove⟩ := hextremes hmany fun o ho hzero => hfirst ⟨o, ho, hzero⟩
          exact ⟨.inl hbelow, .inl habove⟩
    · rw [honest_refused_iff h (Nat.not_le.mp hmany)]
      constructor
      · rintro ⟨hlen, hlt⟩
        exact ⟨hlen, by omega, fun hmore => absurd hmore hmany⟩
      · rintro ⟨hlen, hgate, -⟩
        exact ⟨hlen, by omega⟩

section Witness

/-- So many hours of a day, one observation each. -/
def hoursFrom (start count : Nat) : List DayObservation :=
  (List.range count).map fun i => ⟨start + i * hourMs, 100 + i, 5, 2⟩

theorem daily_honest_twelve :
    (compute ⟨fun prices _ => prices.headD 0, fun _ _ => none⟩ (· / ·) (hoursFrom dayMs 12)).Honest
      (hoursFrom dayMs 12) ↔ Evident (hoursFrom dayMs 12) :=
  daily_honest_iff (d := 1) _ _ (by decide) (by decide) (by decide)

/-- Eight hours are refused for having eight of the eight they need. -/
theorem eight_of_eight :
    let r := compute ⟨fun prices _ => prices.headD 0, fun _ _ => none⟩ (· / ·) (hoursFrom dayMs 8)
    r.insufficient = some "not enough history" ∧ r.insufficientHave = some 8 ∧ r.insufficientNeed = some 8 ∧
      ¬ r.Honest (hoursFrom dayMs 8) := by
  have hr := @compute_refused (hoursFrom dayMs 8) ⟨fun prices _ => prices.headD 0, fun _ _ => none⟩ (· / ·)
    (by decide) (by decide)
  have hhours : hoursListed (hoursFrom dayMs 8) = 8 := by decide
  rw [hhours] at hr
  refine ⟨by rw [hr], by rw [hr], by rw [hr], fun hhonest => ?_⟩
  rw [honest_refused_iff (by decide) (by decide), hhours] at hhonest
  exact absurd hhonest.2 (by decide)

end Witness

end DailyRollup

end Gavel.Market
