import Gavel.Lib.Run
import Gavel.Market.Cadence

/-!
# Polling stays within bounds

A cadence does not say when its realm was last checked; new settings are applied to an instant told by
the next check and the interval. It is never later than the last check, so under any settings in turn no
realm waits longer than the maximum of now.
-/

namespace Gavel.Market

open Gavel.Cluster (Millis)

variable {c : RealmCadence} {now last : Millis} {minimumMs maximumMs : Nat}

/-- A change of a realm's cadence, with the settings it is made under. -/
inductive CadenceUpdate where
  | withinBounds (minimumMs maximumMs : Nat)
  | afterUnchanged (now : Millis) (minimumMs maximumMs : Nat)
  | afterActivity (now : Millis) (minimumMs maximumMs : Nat)
  | afterFailure (now : Millis) (minimumMs maximumMs : Nat)

/-- A cadence, and when the realm was last checked, or the cadence began. -/
structure Polled where
  cadence : RealmCadence
  lastCheck : Millis

namespace CadenceUpdate

/-- The settings of an update as they are used. -/
def settings : CadenceUpdate → Nat × Nat
  | withinBounds lo hi | afterUnchanged _ lo hi | afterActivity _ lo hi | afterFailure _ lo hi => bounds lo hi

def apply (s : Polled) : CadenceUpdate → Polled
  | withinBounds lo hi => ⟨s.cadence.withinBounds lo hi, s.lastCheck⟩
  | afterUnchanged now lo hi => ⟨s.cadence.afterUnchanged now lo hi, now⟩
  | afterActivity now lo hi => ⟨.afterActivity now lo hi, now⟩
  | afterFailure now lo hi => ⟨s.cadence.afterFailure now lo hi, now⟩

/-- Nothing was learnt of the realm, or the request failed. -/
def backsOff : CadenceUpdate → Bool
  | afterUnchanged .. | afterFailure .. => true
  | withinBounds .. | afterActivity .. => false

end CadenceUpdate

/-- The interval lies between the bounds. -/
def RealmCadence.Within (c : RealmCadence) (settings : Nat × Nat) : Prop :=
  settings.1 ≤ c.intervalMs ∧ c.intervalMs ≤ settings.2

/-- What one update makes of a polled realm. -/
structure Bounded (s : Polled) (u : CadenceUpdate) : Prop where
  within : (u.apply s).cadence.Within u.settings
  /-- The next check is no later than the maximum after the last one. -/
  next : (u.apply s).cadence.nextCheckAt ≤ (u.apply s).lastCheck + u.settings.2
  /-- Applying the settings once more changes nothing. -/
  idempotent : ∀ lo hi, (s.cadence.withinBounds lo hi).withinBounds lo hi = s.cadence.withinBounds lo hi
  /-- A cadence within the bounds is not shortened. -/
  longer : s.cadence.Within u.settings → u.backsOff = true →
    s.cadence.intervalMs ≤ (u.apply s).cadence.intervalMs

/-! ## Bounds -/

theorem bounds_le (lo hi : Nat) : 1 ≤ (bounds lo hi).1 ∧ (bounds lo hi).1 ≤ (bounds lo hi).2 :=
  ⟨Nat.le_max_right _ _, Nat.le_max_right _ _⟩

theorem plusMs_le (at' : Millis) (ms : Nat) : plusMs at' ms ≤ at' + ms := Nat.min_le_left _ _

theorem plusMs_sub_plusMs (at' : Millis) (ms : Nat) :
    plusMs (plusMs at' ms - ms) ms = plusMs at' ms := by
  simp only [plusMs]
  rcases Nat.le_total (at' + ms) maxU64 with h | h
  · rw [Nat.min_eq_left h, Nat.add_sub_cancel, Nat.min_eq_left h]
  · rw [Nat.min_eq_right h, Nat.min_eq_right (Nat.sub_le_iff_le_add.mp (Nat.le_refl _))]

namespace RealmCadence

theorem withinBounds_interval (c : RealmCadence) (lo hi : Nat) : (c.withinBounds lo hi).intervalMs =
    min (max c.intervalMs (bounds lo hi).1) (bounds lo hi).2 := rfl

theorem withinBounds_next (c : RealmCadence) (lo hi : Nat) : (c.withinBounds lo hi).nextCheckAt =
    plusMs (c.nextCheckAt - max c.intervalMs 1) (c.withinBounds lo hi).intervalMs := rfl

theorem withinBounds_within (c : RealmCadence) (lo hi : Nat) :
    (c.withinBounds lo hi).Within (bounds lo hi) := by
  have := bounds_le lo hi
  simp only [Within, withinBounds_interval]
  omega

theorem withinBounds_idem (c : RealmCadence) (lo hi : Nat) :
    (c.withinBounds lo hi).withinBounds lo hi = c.withinBounds lo hi := by
  obtain ⟨hone, -⟩ := bounds_le lo hi
  obtain ⟨hlo, hhi⟩ := withinBounds_within c lo hi
  have hinterval : ((c.withinBounds lo hi).withinBounds lo hi).intervalMs =
      (c.withinBounds lo hi).intervalMs := by
    rw [withinBounds_interval (c.withinBounds lo hi)]
    omega
  have hnext : ((c.withinBounds lo hi).withinBounds lo hi).nextCheckAt =
      (c.withinBounds lo hi).nextCheckAt := by
    have hself : max (c.withinBounds lo hi).intervalMs 1 = (c.withinBounds lo hi).intervalMs :=
      Nat.max_eq_left (hone.trans hlo)
    rw [withinBounds_next (c.withinBounds lo hi), hinterval, hself, withinBounds_next c]
    exact plusMs_sub_plusMs _ _
  exact RealmCadence.mk.injEq .. ▸ ⟨hinterval, hnext⟩

/-- What an update puts off to starts with the last check. -/
theorem withinBounds_since (h : c.nextCheckAt ≤ last + max c.intervalMs 1) (lo hi : Nat) :
    (c.withinBounds lo hi).nextCheckAt ≤ last + (c.withinBounds lo hi).intervalMs := by
  rw [withinBounds_next]
  exact (plusMs_le _ _).trans (Nat.add_le_add_right (Nat.sub_le_iff_le_add.mpr h) _)

theorem afterActivity_interval (now lo hi : Nat) : (afterActivity now lo hi).Within (bounds lo hi) :=
  ⟨Nat.le_refl _, (bounds_le lo hi).2⟩

section Settings

variable {lo hi : Nat} (hlo : lo ≤ maxU64) (hhi : hi ≤ maxU64)
include hlo hhi

theorem bounds_range : (bounds lo hi).2 ≤ maxU64 := by
  have hpos : 1 ≤ maxU64 := by decide
  simp only [bounds]
  omega

/-- The rungs of the ladder are within the bounds, and no lower than a cadence within them. -/
theorem afterUnchanged_interval (c : RealmCadence) (now : Millis) :
    (c.afterUnchanged now lo hi).Within (bounds lo hi) ∧
      (c.Within (bounds lo hi) → c.intervalMs ≤ (c.afterUnchanged now lo hi).intervalMs) := by
  obtain ⟨hone, hle⟩ := bounds_le lo hi
  have hrange := bounds_range hlo hhi
  simp only [afterUnchanged, Within]
  split_ifs <;> omega

/-- A doubled interval is within the bounds, and no shorter than one within them. -/
theorem afterFailure_interval (c : RealmCadence) (now : Millis) :
    (c.afterFailure now lo hi).Within (bounds lo hi) ∧
      (c.Within (bounds lo hi) → c.intervalMs ≤ (c.afterFailure now lo hi).intervalMs) := by
  obtain ⟨hone, hle⟩ := bounds_le lo hi
  have hrange := bounds_range hlo hhi
  have hsettings : bounds lo (bounds lo hi).2 = bounds lo hi := by
    have hself : max (bounds lo hi).2 (max lo 1) = (bounds lo hi).2 := Nat.max_eq_left hle
    simp only [bounds] at hself ⊢
    rw [hself]
  have hcurrent := withinBounds_interval c lo (bounds lo hi).2
  rw [hsettings] at hcurrent
  have hinterval : (c.afterFailure now lo hi).intervalMs =
      min (min ((c.withinBounds lo (bounds lo hi).2).intervalMs * 2) maxU64) (bounds lo hi).2 := rfl
  rw [hcurrent] at hinterval
  simp only [Within, hinterval]
  omega

end Settings

end RealmCadence

/-! ## Runs -/

namespace CadenceUpdate

variable {s : Polled} {u : CadenceUpdate}

/-- The settings are 64-bit numbers. -/
def InRange : CadenceUpdate → Prop
  | withinBounds lo hi | afterUnchanged _ lo hi | afterActivity _ lo hi | afterFailure _ lo hi =>
      lo ≤ maxU64 ∧ hi ≤ maxU64

/-- The check that the next one and the interval tell of is no later than the last. -/
def Since (s : Polled) : Prop := s.cadence.nextCheckAt ≤ s.lastCheck + max s.cadence.intervalMs 1

theorem apply_within (s : Polled) (hu : u.InRange) : (u.apply s).cadence.Within u.settings := by
  cases u with
  | withinBounds lo hi => exact s.cadence.withinBounds_within lo hi
  | afterUnchanged now lo hi => exact (RealmCadence.afterUnchanged_interval hu.1 hu.2 _ _).1
  | afterActivity now lo hi => exact RealmCadence.afterActivity_interval now lo hi
  | afterFailure now lo hi => exact (RealmCadence.afterFailure_interval hu.1 hu.2 _ _).1

/-- The next check is no later than an interval after the last. -/
theorem apply_next (h : Since s) (u : CadenceUpdate) :
    (u.apply s).cadence.nextCheckAt ≤ (u.apply s).lastCheck + (u.apply s).cadence.intervalMs := by
  cases u with
  | withinBounds lo hi => exact RealmCadence.withinBounds_since h lo hi
  | afterUnchanged | afterActivity | afterFailure => exact plusMs_le _ _

theorem apply_since (h : Since s) (u : CadenceUpdate) : Since (u.apply s) :=
  (apply_next h u).trans (Nat.add_le_add_left (Nat.le_max_left _ _) _)

theorem apply_longer (hu : u.InRange) (hs : s.cadence.Within u.settings) (hback : u.backsOff = true) :
    s.cadence.intervalMs ≤ (u.apply s).cadence.intervalMs := by
  cases u with
  | withinBounds | afterActivity => cases hback
  | afterUnchanged now lo hi => exact (RealmCadence.afterUnchanged_interval hu.1 hu.2 _ _).2 hs
  | afterFailure now lo hi => exact (RealmCadence.afterFailure_interval hu.1 hu.2 _ _).2 hs

theorem bounded (h : Since s) (hu : u.InRange) : Bounded s u where
  within := apply_within s hu
  next := (apply_next h u).trans (Nat.add_le_add_left (apply_within s hu).2 _)
  idempotent := s.cadence.withinBounds_idem
  longer := apply_longer hu

end CadenceUpdate

/-- A new cadence. -/
def Polled.new (now : Millis) (minimumMs : Nat) : Polled := ⟨.new now minimumMs, now⟩

/-- Every update of a run from a new cadence is bounded. -/
theorem polling_bounded (now : Millis) (minimumMs : Nat) (updates : List CadenceUpdate)
    (hupdates : ∀ u ∈ updates, u.InRange) :
    Run.AllSteps (fun s u => u.apply s) Bounded (Polled.new now minimumMs) updates := by
  have hnew : CadenceUpdate.Since (Polled.new now minimumMs) := Nat.le_add_right _ _
  exact Run.allSteps_of_invariant (I := CadenceUpdate.Since) (fun s u hs _ => CadenceUpdate.apply_since hs u)
    (fun _ _ hs hu => CadenceUpdate.bounded hs hu) hnew (Run.allSteps_of_forall hupdates)

/-- A realm that was quiet, then failed, then moved, under settings that changed between. -/
theorem polling_bounded_restarted :
    Run.AllSteps (fun s u => u.apply s) Bounded (Polled.new 1000 60000)
      [.afterUnchanged 1000 60000 1800000, .withinBounds 120000 240000, .afterFailure 301000 120000 240000,
        .afterActivity 541000 0 0] :=
  polling_bounded 1000 60000 _ (by simp [CadenceUpdate.InRange, maxU64])

/-! ## Across restarts -/

namespace RealmCadence

theorem splitOnce_display (c : RealmCadence) :
    Text.splitOnce ',' c.display = some (Text.decimal c.intervalMs, Text.decimal c.nextCheckAt) :=
  Text.splitOnce_append (Text.not_mem_decimal (by decide) _)

theorem parse_display (hinterval : c.intervalMs ≤ maxU64) (hnext : c.nextCheckAt ≤ maxU64) :
    parse c.display = some c := by
  simp [parse, splitOnce_display, Text.parseNat_decimal hinterval, Text.parseNat_decimal hnext]

theorem next_range {o : PollOutcome} {lo hi : Nat} (hlo : lo ≤ maxU64) (hhi : hi ≤ maxU64) :
    (o.next c now lo hi).intervalMs ≤ maxU64 ∧ (o.next c now lo hi).nextCheckAt ≤ maxU64 := by
  have hrange := bounds_range hlo hhi
  cases o with
  | collected => exact ⟨(afterActivity_interval now lo hi).2.trans hrange, Nat.min_le_right _ _⟩
  | unchanged => exact ⟨(afterUnchanged_interval hlo hhi c now).1.2.trans hrange, Nat.min_le_right _ _⟩
  | failed => exact ⟨(afterFailure_interval hlo hhi c now).1.2.trans hrange, Nat.min_le_right _ _⟩

/-- After a restart under other settings a realm is due at the latest when their maximum has passed since
it was last asked. -/
theorem scheduled_in_time {o : PollOutcome} {lo hi lo' hi' : Nat} (hlo : lo ≤ maxU64) (hhi : hi ≤ maxU64)
    (later : Millis) :
    (scheduled (some (o.next c now lo hi).display) later lo' hi').nextCheckAt ≤ now + (bounds lo' hi').2 := by
  obtain ⟨hinterval, hnext⟩ : (o.next c now lo hi).intervalMs ≤ maxU64 ∧
      (o.next c now lo hi).nextCheckAt ≤ maxU64 := next_range hlo hhi
  have hstored : (some (o.next c now lo hi).display).bind parse = some (o.next c now lo hi) :=
    parse_display hinterval hnext
  have hsince : (o.next c now lo hi).nextCheckAt ≤ now + max (o.next c now lo hi).intervalMs 1 := by
    cases o with
    | collected | unchanged | failed =>
        exact (plusMs_le _ _).trans (Nat.add_le_add_left (Nat.le_max_left _ _) _)
  rw [scheduled, hstored]
  exact (withinBounds_since hsince lo' hi').trans (Nat.add_le_add_left (withinBounds_within _ lo' hi').2 _)

end RealmCadence

end Gavel.Market
