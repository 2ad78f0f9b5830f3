import Gavel.Lib.Arithmetic
import Gavel.Market.Event

/-!
# Weekly resets are complete

The resets between two instants are found from the first one by adding weeks. They are all of the instants
between that fall on the weekday of the rule at its hour, since two of these are whole weeks apart.
-/

namespace Gavel.Market

open Gavel.Cluster (Millis)
open Gavel.Sorting

namespace ResetRule

variable {rule : ResetRule} {since until' at' t u a b c : Nat} {es es' es'' : List MarketEvent}

/-- An instant is on the weekday of the rule, at exactly its hour. -/
def Falls (rule : ResetRule) (t : Millis) : Prop :=
  Market.weekday t = rule.weekday ∧ t % dayMs = rule.hourUtc * hourMs

/-- The loop ends within as many rounds as there are milliseconds, and has listed these. -/
def Yields (rule : ResetRule) (since until' : Millis) (es : List MarketEvent) : Prop :=
  ∀ fuel, until' - since < fuel → rule.events fuel since until' = some es

/-- The resets between two instants, each once and in order. -/
structure Lists (rule : ResetRule) (since until' : Millis) (es : List MarketEvent) : Prop where
  instants : ∀ t, t ∈ es.map MarketEvent.startsAt ↔ since ≤ t ∧ t < until' ∧ rule.Falls t
  increasing : (es.map MarketEvent.startsAt).Pairwise (· < ·)
  events : ∀ e ∈ es, e = rule.event e.startsAt

/-- The resets of all of the regions between two instants, merged. -/
structure Merges (since until' : Millis) (es : List MarketEvent) : Prop where
  regions : (resetRules.map ResetRule.region).Perm Region.all
  merged : ∃ resets : ResetRule → List MarketEvent,
    (∀ rule ∈ resetRules, rule.Yields since until' (resets rule) ∧ rule.Lists since until' (resets rule)) ∧
      es.Perm (resetRules.flatMap resets)
  sorted : es.Pairwise fun e e' => (MarketEvent.order e e').isLE = true
  distinct : (es.map MarketEvent.id).Nodup

/-! ## Weeks -/

theorem dayMs_eq : dayMs = 86400000 := rfl

theorem weekMs_eq : weekMs = 604800000 := rfl

theorem falls_iff (rule : ResetRule) (t : Nat) : rule.Falls t ↔
    (t / 86400000 + 3) % 7 = rule.weekday ∧ t % 86400000 = rule.hourUtc * 3600000 := Iff.rfl

theorem Falls.eq_of_lt (ht : rule.Falls t) (hu : rule.Falls u) (hle : t ≤ u) (hlt : u < t + weekMs) :
    t = u := by
  rw [falls_iff] at ht hu
  rw [weekMs_eq] at hlt
  omega

theorem Falls.add_week (h : rule.Falls t) : rule.Falls (t + weekMs) := by
  rw [falls_iff] at h
  rw [weekMs_eq]
  refine (falls_iff rule (t + 604800000)).mpr ?_
  omega

theorem Falls.add_week_le (ht : rule.Falls t) (hu : rule.Falls u) (hlt : t < u) : t + weekMs ≤ u := by
  by_contra hnot
  have := ht.eq_of_lt hu hlt.le (by omega)
  omega

/-- The first instant of the week from a day on that falls on the rule. -/
theorem candidate_spec (hweekday : rule.weekday < 7) (hhour : rule.hourUtc < 24) (since : Nat) :
    let day := since / dayMs * dayMs
    let candidate : Nat := day + (7 + rule.weekday - Market.weekday day) % 7 * dayMs + rule.hourUtc * hourMs
    rule.Falls candidate ∧ day ≤ candidate ∧ candidate < day + weekMs := by
  intro day candidate
  obtain ⟨n, hn⟩ : ∃ n, n = since / 86400000 := ⟨_, rfl⟩
  have hday : day = n * 86400000 := by rw [hn]; rfl
  have hcandidate : candidate =
      day + (7 + rule.weekday - (day / 86400000 + 3) % 7) % 7 * 86400000 + rule.hourUtc * 3600000 := rfl
  rw [falls_iff, weekMs_eq]
  omega

theorem firstAtOrAfter_spec (hweekday : rule.weekday < 7) (hhour : rule.hourUtc < 24)
    (hsince : since < 2 ^ 62) :
    rule.Falls (rule.firstAtOrAfter since) ∧ since ≤ rule.firstAtOrAfter since ∧
      rule.firstAtOrAfter since < since + weekMs := by
  obtain ⟨hfalls, hlow, hhigh⟩ := candidate_spec hweekday hhour since
  unfold firstAtOrAfter
  dsimp only
  generalize since / dayMs * dayMs + (7 + rule.weekday - Market.weekday (since / dayMs * dayMs)) % 7 * dayMs +
    rule.hourUtc * hourMs = candidate at *
  have hday : since / dayMs * dayMs ≤ since := Nat.div_mul_le_self since dayMs
  have hweek := hfalls.add_week
  rw [dayMs_eq] at *
  rw [weekMs_eq] at *
  rw [@Nat.mod_eq_of_lt candidate _ (by omega)]
  by_cases hle : (since : Nat) ≤ candidate
  · rw [if_pos hle]
    exact ⟨hfalls, hle, Nat.lt_of_lt_of_le hhigh (Nat.add_le_add_right hday _)⟩
  · have hlow' : since ≤ candidate + 604800000 := by omega
    have hhigh' : candidate + 604800000 < since + 604800000 := by omega
    rw [if_neg hle, Nat.mod_eq_of_lt (by omega)]
    exact ⟨hweek, hlow', hhigh'⟩

/-! ## The loop -/

/-- The loop takes a round for each reset, and lists all of them. -/
theorem walk_spec (huntil : until' < 2 ^ 62) (hat : rule.Falls at') (hbound : at' < 2 ^ 63) :
    ∃ times, (∀ fuel, until' - at' < fuel → walk until' fuel at' = some times) ∧
      (∀ t, t ∈ times ↔ at' ≤ t ∧ t < until' ∧ rule.Falls t) ∧ times.Pairwise (· < ·) := by
  induction hleft : until' - at' using Nat.strong_induction_on generalizing at' with
  | _ left ih =>
      by_cases hlt : at' < until'
      · have hweek := weekMs_eq
        have hnext : (at' + weekMs) % 2 ^ 64 = at' + weekMs := Nat.mod_eq_of_lt (by omega)
        obtain ⟨times, hwalk, hmem, hsorted⟩ :=
          ih (until' - (at' + weekMs)) (by omega) hat.add_week (by omega) rfl
        have hlater : ∀ t ∈ times, at' < t := fun t ht => by
          have : at' + weekMs ≤ t := ((hmem t).mp ht).1
          omega
        refine ⟨at' :: times, fun fuel hfuel => ?_, fun t => ?_, List.pairwise_cons.mpr ⟨hlater, hsorted⟩⟩
        · obtain ⟨fuel, rfl⟩ := Nat.exists_eq_succ_of_ne_zero (Nat.ne_of_gt (Nat.zero_lt_of_lt hfuel))
          rw [walk, if_pos hlt, hnext, hwalk fuel (by omega)]
          rfl
        · rw [List.mem_cons, hmem]
          constructor
          · rintro (rfl | ⟨hle, hrest⟩)
            · exact ⟨Nat.le_refl _, hlt, hat⟩
            · exact ⟨Nat.le_trans (Nat.le_add_right at' weekMs) hle, hrest⟩
          · rintro ⟨hle, hbefore, hfalls⟩
            rcases Nat.eq_or_lt_of_le hle with heq | hlate
            · exact .inl heq.symm
            · exact .inr ⟨hat.add_week_le hfalls hlate, hbefore, hfalls⟩
      · refine ⟨[], fun fuel hfuel => ?_, fun t => ?_, List.Pairwise.nil⟩
        · obtain ⟨fuel, rfl⟩ := Nat.exists_eq_succ_of_ne_zero (Nat.ne_of_gt (Nat.zero_lt_of_lt hfuel))
          rw [walk, if_neg hlt]
        · constructor
          · exact fun h => nomatch h
          · exact fun ⟨hle, hbefore, _⟩ => absurd (Nat.lt_of_le_of_lt hle hbefore) hlt

/-! ## The events of a rule -/

theorem events_spec (hweekday : rule.weekday < 7) (hhour : rule.hourUtc < 24) (hsince : since < 2 ^ 62)
    (huntil : until' < 2 ^ 62) : ∃ es, rule.Yields since until' es ∧ rule.Lists since until' es := by
  obtain ⟨hfalls, hlow, hhigh⟩ := firstAtOrAfter_spec hweekday hhour hsince
  obtain ⟨first, hfirst⟩ : ∃ n : Nat, n = rule.firstAtOrAfter since := ⟨_, rfl⟩
  rw [← hfirst] at hfalls hlow hhigh
  have hfar : since + 604800000 ≤ 2 ^ 63 := by omega
  have hbound : first < 2 ^ 63 := Nat.lt_of_lt_of_le hhigh hfar
  obtain ⟨times, hwalk, hmem, hsorted⟩ := walk_spec huntil hfalls hbound
  have hinstants : (times.map rule.event).map MarketEvent.startsAt = times := by
    rw [List.map_map]
    exact List.map_id times
  refine ⟨times.map rule.event, fun fuel hfuel => ?_, ⟨fun t => ?_, hinstants.symm ▸ hsorted, ?_⟩⟩
  · have hle : until' - first ≤ until' - since := Nat.sub_le_sub_left hlow until'
    rw [events, ← hfirst, hwalk fuel (Nat.lt_of_le_of_lt hle hfuel)]
    rfl
  · rw [hinstants, hmem]
    constructor
    · exact fun ⟨hle, hrest⟩ => ⟨Nat.le_trans hlow hle, hrest⟩
    · rintro ⟨hle, hbefore, ht⟩
      refine ⟨?_, hbefore, ht⟩
      -- A reset before the first one would be less than a week from it.
      by_contra hnot
      have hearly : t < first := Nat.lt_of_not_le hnot
      have hweek := ht.add_week_le hfalls hearly
      exact absurd (Nat.le_trans (Nat.add_le_add_right hle weekMs) hweek) (Nat.not_le_of_lt hhigh)
  · intro e he
    obtain ⟨t, -, rfl⟩ := List.mem_map.mp he
    rfl

theorem Lists.eq_map (h : rule.Lists since until' es) :
    es = (es.map MarketEvent.startsAt).map rule.event := by
  rw [List.map_map]
  exact (List.map_id es).symm.trans (List.map_congr_left h.events)

theorem Lists.unique (h : rule.Lists since until' es) (h' : rule.Lists since until' es') : es = es' := by
  have hinstants : es.map MarketEvent.startsAt = es'.map MarketEvent.startsAt :=
    h.increasing.eq_of_mem_iff h'.increasing fun t => (h.instants t).trans (h'.instants t).symm
  rw [h.eq_map, hinstants, ← h'.eq_map]

/-- The resets up to an instant and those from it on are the resets of the two windows together. -/
theorem Lists.append (hab : a ≤ b) (hbc : b ≤ c) (h : rule.Lists a b es) (h' : rule.Lists b c es') :
    rule.Lists a c (es ++ es') where
  instants t := by
    rw [List.map_append, List.mem_append, h.instants, h'.instants]
    constructor
    · rintro (⟨hle, hlt, hfalls⟩ | ⟨hle, hlt, hfalls⟩)
      · exact ⟨hle, Nat.lt_of_lt_of_le hlt hbc, hfalls⟩
      · exact ⟨Nat.le_trans hab hle, hlt, hfalls⟩
    · rintro ⟨hle, hlt, hfalls⟩
      rcases Nat.lt_or_ge t b with hearly | hlate
      · exact .inl ⟨hle, hearly, hfalls⟩
      · exact .inr ⟨hlate, hlt, hfalls⟩
  increasing := by
    rw [List.map_append]
    refine List.pairwise_append.mpr ⟨h.increasing, h'.increasing, fun t ht u hu => ?_⟩
    exact Nat.lt_of_lt_of_le ((h.instants t).mp ht).2.1 ((h'.instants u).mp hu).1
  events e he := (List.mem_append.mp he).elim (h.events e) (h'.events e)

/-! ## Every region's resets -/

/-- The id of a reset tells its region and its instant. -/
theorem event_id_inj {rule' : ResetRule} (h : (rule.event t).id = (rule'.event u).id) :
    rule.region = rule'.region ∧ t = u := by
  have hids : "calendar:reset:".toList ++ rule.region.asStr ++ ':' :: Text.decimal t =
      "calendar:reset:".toList ++ rule'.region.asStr ++ ':' :: Text.decimal u := h
  rw [List.append_assoc, List.append_assoc] at hids
  have hrest := List.append_cancel_left hids
  obtain ⟨hregion, hinstant⟩ :=
    List.append_inj hrest ((Region.length_asStr rule.region).trans (Region.length_asStr rule'.region).symm)
  exact ⟨Region.asStr_inj hregion, Text.decimal_inj (List.cons.inj hinstant).2⟩

theorem Lists.nodup_ids (h : rule.Lists since until' es) : (es.map MarketEvent.id).Nodup := by
  rw [h.eq_map, List.map_map, List.Nodup, List.pairwise_map]
  refine h.increasing.imp fun {t u} hlt heq => ?_
  have hid : (rule.event t).id = (rule.event u).id := heq
  exact absurd (event_id_inj hid).2 (Nat.ne_of_lt hlt)

instance : Std.TransCmp MarketEvent.order :=
  inferInstanceAs (Std.TransCmp (compareLex (compareOn MarketEvent.startsAt) (compareOn MarketEvent.id)))

theorem resetRules_valid : ∀ rule ∈ resetRules, rule.weekday < 7 ∧ rule.hourUtc < 24 := by decide

theorem resetRules_distinct : resetRules.Pairwise fun rule rule' => rule.region ≠ rule'.region := by decide

theorem weeklyResets_spec (hsince : since < 2 ^ 62) (huntil : until' < 2 ^ 62) :
    ∃ es, (∀ fuel, until' - since < fuel → weeklyResets fuel since until' = some es) ∧
      Merges since until' es := by
  choose! resets hyields hlists using fun rule (hrule : rule ∈ resetRules) =>
    events_spec (resetRules_valid rule hrule).1 (resetRules_valid rule hrule).2 hsince huntil
  refine ⟨sortWith MarketEvent.order (resetRules.flatMap resets), fun fuel hfuel => ?_, ?_⟩
  · rw [weeklyResets, mapM_eq_map fun rule hrule => hyields rule hrule fuel hfuel]
    rfl
  · have hperm := perm_sortWith MarketEvent.order (resetRules.flatMap resets)
    refine ⟨by decide, ⟨resets, fun rule hrule => ⟨hyields rule hrule, hlists rule hrule⟩, hperm⟩,
      pairwise_sortWith _, (hperm.map _).nodup_iff.mpr ?_⟩
    rw [List.map_flatMap, List.nodup_flatMap]
    refine ⟨fun rule hrule => (hlists rule hrule).nodup_ids, ?_⟩
    refine resetRules_distinct.imp_of_mem fun {rule rule'} hrule hrule' hne id hid hid' => ?_
    obtain ⟨e, he, rfl⟩ := List.mem_map.mp hid
    obtain ⟨e', he', heq⟩ := List.mem_map.mp hid'
    rw [(hlists rule hrule).events e he, (hlists rule' hrule').events e' he'] at heq
    exact hne (event_id_inj heq).1.symm

end ResetRule

/-- The resets of a rule in a window are listed completely, and those of two adjoining windows are those
of both together; the resets of all regions are merged by when they start, under ids of their own. -/
theorem resets_complete {rule : ResetRule} {a b c : Millis} (hweekday : rule.weekday < 7)
    (hhour : rule.hourUtc < 24) (ha : a < 2 ^ 62) (hb : b < 2 ^ 62) (hc : c < 2 ^ 62) :
    (∃ es, rule.Yields a b es ∧ rule.Lists a b es) ∧
      (a ≤ b → b ≤ c → ∃ es es', rule.Yields a b es ∧ rule.Yields b c es' ∧ rule.Yields a c (es ++ es')) ∧
      ∃ es, (∀ fuel, b - a < fuel → weeklyResets fuel a b = some es) ∧ ResetRule.Merges a b es := by
  obtain ⟨es, hyields, hlists⟩ := ResetRule.events_spec hweekday hhour ha hb
  refine ⟨⟨es, hyields, hlists⟩, fun hab hbc => ?_, ResetRule.weeklyResets_spec ha hb⟩
  obtain ⟨es', hyields', hlists'⟩ := ResetRule.events_spec hweekday hhour hb hc
  obtain ⟨whole, hwhole, hlisted⟩ := ResetRule.events_spec hweekday hhour ha hc
  refine ⟨es, es', hyields, hyields', ?_⟩
  rwa [(hlists.append hab hbc hlists').unique hlisted]

/-- Two adjoining weeks of the resets on Wednesdays at three. -/
theorem resets_complete_eu : ∃ es es', (ResetRule.mk .eu 2 3).Yields 0 weekMs es ∧
    (ResetRule.mk .eu 2 3).Yields weekMs (2 * weekMs) es' ∧
      (ResetRule.mk .eu 2 3).Yields 0 (2 * weekMs) (es ++ es') :=
  (@resets_complete ⟨.eu, 2, 3⟩ 0 weekMs (2 * weekMs) (by decide) (by decide) (by decide) (by decide)
    (by decide)).2.1 (by decide) (by decide)

end Gavel.Market
