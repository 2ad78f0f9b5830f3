import Gavel.Lib.Arithmetic
import Gavel.Cluster.Theorems.Slices
import Mathlib.NumberTheory.PrimeCounting

/-!
# What a job is split into

The tasks of a job are its work, no more and no less. The arithmetic is written a second time with
every operation checked; what does not fail there is what the wrapping operations of the code give.
-/

namespace Gavel.Cluster

/-! ## Primality -/

/-- The rounds of the trial division with every operation checked; it fails too when the rounds run
out. -/
def checkedDivision (n : Nat) : Nat → Nat → Option Bool
  | 0, _ => none
  | rounds + 1, d => do
      let square ← checkedMul 64 d d
      if square ≤ n then
        if n % d = 0 then return false
        let twin ← checkedAdd 64 d 2
        if n % twin = 0 then return false
        let next ← checkedAdd 64 d 6
        checkedDivision n rounds next
      else return true

def checkedIsPrime (n : Nat) : Option Bool :=
  if n < 2 then some false
  else if n % 2 = 0 then some (n == 2)
  else if n % 3 = 0 then some (n == 3)
  else checkedDivision n (2 ^ 64) 5

section Primality

variable {n d rounds : Nat} {b : Bool}

/-- What the checked division answers, the wrapping one answers. -/
theorem trialDivision_of_checked (h : checkedDivision n rounds d = some b) :
    trialDivision n rounds d = b := by
  induction rounds generalizing d with
  | zero => cases h
  | succ rounds ih =>
      simp only [checkedDivision, Option.bind_eq_bind, Option.bind_eq_some_iff] at h
      obtain ⟨square, hsquare, h⟩ := h
      rw [trialDivision, wrap_of_checkedMul hsquare]
      split at h
      · rename_i hle
        rw [if_pos hle]
        split at h
        · rename_i hd
          cases h
          rw [if_pos (.inl hd)]
        · rename_i hd
          obtain ⟨twin, htwin, h⟩ := Option.bind_eq_some_iff.mp h
          rw [wrap_of_checkedAdd htwin]
          split at h
          · rename_i ht
            cases h
            rw [if_pos (.inr ht)]
          · rename_i ht
            obtain ⟨next, hnext, h⟩ := Option.bind_eq_some_iff.mp h
            rw [wrap_of_checkedAdd hnext, if_neg (not_or.mpr ⟨hd, ht⟩)]
            exact ih h
      · rename_i hle
        cases h
        rw [if_neg hle]

theorem divisor_lt (hn : n < 2 ^ 63) (hd : d ≤ n.sqrt + 6) : d < 2 ^ 32 - 6 := by
  have : n.sqrt < 3037000500 := Nat.sqrt_lt.mpr (Nat.lt_of_lt_of_le hn (by decide))
  omega

/-- One round: the number is past the square root, or a divisor, or the next round decides. -/
theorem checkedDivision_round (hn : n < 2 ^ 63) (hd : d ≤ n.sqrt + 6) (rounds : Nat) :
    checkedDivision n (rounds + 1) d =
      if n < d * d then some true
      else if n % d = 0 ∨ n % (d + 2) = 0 then some false
      else checkedDivision n rounds (d + 6) := by
  have hlt := divisor_lt hn hd
  have hsquare : d * d < 2 ^ 64 := Nat.lt_of_le_of_lt (Nat.mul_le_mul hlt.le hlt.le) (by decide)
  have htwin : d + 2 < 2 ^ 64 := by omega
  have hnext : d + 6 < 2 ^ 64 := by omega
  rw [checkedDivision, checkedMul_eq hsquare, checkedAdd_eq htwin, checkedAdd_eq hnext]
  by_cases hsq : n < d * d
  · simp [hsq]
  · by_cases h₁ : n % d = 0
    · simp [hsq, Nat.not_lt.mp hsq, h₁]
    · by_cases h₂ : n % (d + 2) = 0 <;> simp [hsq, Nat.not_lt.mp hsq, h₁, h₂]

/-- The division ends within its rounds and without an overflow, and it decides primality. -/
theorem checkedDivision_spec (hn : n < 2 ^ 63) (h2 : n % 2 ≠ 0) (h3 : n % 3 ≠ 0) (hone : 2 ≤ n)
    (hd : d % 6 = 5) (hle : d ≤ n.sqrt + 6) (hrough : Rough n d) (hrounds : n.sqrt < d + 6 * rounds) :
    checkedDivision n (rounds + 1) d = some (decide n.Prime) := by
  induction rounds generalizing d with
  | zero =>
      have hpast : n < d * d := Nat.sqrt_lt.mp (by omega)
      rw [checkedDivision_round hn hle, if_pos hpast, decide_eq_true (hrough.prime hone hpast)]
  | succ rounds ih =>
      rw [checkedDivision_round hn hle]
      split
      · rename_i hpast
        rw [decide_eq_true (hrough.prime hone hpast)]
      · rename_i hsquare
        have hfive : 5 ≤ d := by omega
        have hbig : 5 * d ≤ n := (Nat.mul_le_mul_right d hfive).trans (Nat.not_lt.mp hsquare)
        split
        · rename_i hdvd
          have hcomposite : ¬ n.Prime := by
            rcases hdvd with hdvd | hdvd
            · exact not_prime_of_divisor (by omega) (Nat.dvd_of_mod_eq_zero hdvd) (by omega)
            · exact not_prime_of_divisor (by omega) (Nat.dvd_of_mod_eq_zero hdvd) (by omega)
          rw [decide_eq_false hcomposite]
        · rename_i hdvd
          obtain ⟨hfirst, hsecond⟩ := not_or.mp hdvd
          have hroot : d ≤ n.sqrt := Nat.le_sqrt.mpr (Nat.not_lt.mp hsquare)
          exact ih (by omega) (by omega) (hrough.step h2 h3 hd hfirst hsecond) (by omega)

theorem checkedIsPrime_spec (hn : n < 2 ^ 63) : checkedIsPrime n = some (decide n.Prime) := by
  unfold checkedIsPrime
  split
  · rename_i hsmall
    rw [decide_eq_false fun hp => absurd hp.two_le (by omega)]
  · split
    · rename_i heven
      have hiff : n.Prime ↔ n = 2 :=
        ⟨fun hp => ((Nat.prime_dvd_prime_iff_eq Nat.prime_two hp).mp
          (Nat.dvd_of_mod_eq_zero heven)).symm, fun h => h ▸ Nat.prime_two⟩
      rw [decide_eq_decide.mpr hiff]
      rfl
    · split
      · rename_i hthree
        have hiff : n.Prime ↔ n = 3 :=
          ⟨fun hp => ((Nat.prime_dvd_prime_iff_eq Nat.prime_three hp).mp
            (Nat.dvd_of_mod_eq_zero hthree)).symm, fun h => h ▸ Nat.prime_three⟩
        rw [decide_eq_decide.mpr hiff]
        rfl
      · rename_i hone h2 h3
        have hroot : n.sqrt ≤ n := Nat.sqrt_le_self n
        exact checkedDivision_spec hn h2 h3 (by omega) rfl (by omega) (rough_five h2 h3) (by omega)

theorem isPrime_of_checked (h : checkedIsPrime n = some b) : isPrime n = b := by
  unfold checkedIsPrime at h
  unfold isPrime
  split at h
  · cases h
    rw [if_pos ‹_›]
  · rw [if_neg ‹_›]
    split at h
    · cases h
      rw [if_pos ‹_›]
    · rw [if_neg ‹_›]
      split at h
      · cases h
        rw [if_pos ‹_›]
      · rw [if_neg ‹_›]
        exact trialDivision_of_checked h

theorem isPrime_eq (hn : n < 2 ^ 63) : isPrime n = decide n.Prime :=
  isPrime_of_checked (checkedIsPrime_spec hn)

/-- A count from nothing up is the number of primes below its end. -/
theorem countPrimes_zero (hn : n ≤ 2 ^ 63) : countPrimes 0 n = n.primeCounting' := by
  have hcount : ∀ m ≤ 2 ^ 63, ((List.range m).filter isPrime).length = Nat.count Nat.Prime m := by
    intro m hm
    induction m with
    | zero => rfl
    | succ m ih =>
        rw [List.range_succ, List.filter_append, List.length_append, ih (by omega), Nat.count_succ]
        congr 1
        rw [List.filter_singleton, isPrime_eq (by omega)]
        by_cases hp : m.Prime <;> simp [hp]
  rw [countPrimes_eq, candidates, Nat.sub_zero, ← List.range_eq_range', hcount n hn]
  rfl

end Primality

/-! ## The tasks -/

/-- The numbers of a job are in the range of their fields, and a bound on primes below half of it. -/
def JobSpec.InRange : JobSpec → Prop
  | .sleep totalMs _ => totalMs < 2 ^ 64
  | .primes upperBound _ => upperBound < 2 ^ 63
  | .analysis _ _ _ => True

/-- The split with every operation checked. -/
def JobSpec.checkedSplit (spec : JobSpec) : Option (List TaskSpec) :=
  let n := spec.taskCount
  match spec with
  | .sleep totalMs _ => (List.range n).mapM fun i => do
      let millis ← checkedAdd 64 (totalMs / n) (if i < totalMs % n then 1 else 0)
      return .sleep millis
  | .primes upperBound _ => (List.range n).mapM fun i => do
      let start ← checkedMul 64 i (upperBound / n)
      let next ← checkedAdd 64 i 1
      if next = n then return .primes start upperBound
      let stop ← checkedAdd 64 start (upperBound / n)
      return .primes start stop
  | .analysis version algorithm _ =>
      some ((List.range n).map fun i => .analysis version algorithm i)

/-- Ranges that follow each other from one number to another. -/
inductive Tiles : Nat → Nat → List TaskSpec → Prop where
  | nil (n : Nat) : Tiles n n []
  | cons {start mid stop : Nat} {tasks : List TaskSpec} : start ≤ mid → Tiles mid stop tasks →
      Tiles start stop (.primes start mid :: tasks)

/-- What a task of a range counts. -/
def TaskSpec.primesFound : TaskSpec → Nat
  | .primes start stop => countPrimes start stop
  | .sleep _ | .analysis _ _ _ => 0

/-- The task ranges over the number. -/
def TaskSpec.ranges (x : Nat) : TaskSpec → Bool
  | .primes start stop => decide (start ≤ x ∧ x < stop)
  | .sleep _ | .analysis _ _ _ => false

section Tiling

variable {start mid stop : Nat} {tasks more : List TaskSpec}

theorem Tiles.le (h : Tiles start stop tasks) : start ≤ stop := by
  induction h with
  | nil => exact Nat.le_refl _
  | cons hle _ ih => exact hle.trans ih

theorem Tiles.concat (h : Tiles start mid tasks) (hle : mid ≤ stop) :
    Tiles start stop (tasks ++ [.primes mid stop]) := by
  induction h with
  | nil => exact .cons hle (.nil stop)
  | cons hfirst _ ih => exact .cons hfirst (ih hle)

theorem Tiles.primesFound (h : Tiles start stop tasks) :
    (tasks.map TaskSpec.primesFound).sum = countPrimes start stop := by
  induction h with
  | nil n => simp [countPrimes]
  | cons hle hrest ih =>
      rw [List.map_cons, List.sum_cons, ih, TaskSpec.primesFound]
      exact countPrimes_add hle (hrest.le.trans (Nat.le_max_right _ _))

theorem Tiles.ranges (h : Tiles start stop tasks) (x : Nat) :
    tasks.countP (TaskSpec.ranges x) = if start ≤ x ∧ x < stop then 1 else 0 := by
  induction h with
  | nil n => simp
  | cons hle hrest ih =>
      have := hrest.le
      rw [List.countP_cons, ih]
      simp only [TaskSpec.ranges, decide_eq_true_eq]
      split <;> split <;> split <;> omega

end Tiling

section Splitting

variable {total n i : Nat}

theorem part_le (hn : 0 < n) : total / n + (if i < total % n then 1 else 0) ≤ total := by
  have hdiv := Nat.div_add_mod total n
  have hmul : total / n ≤ n * (total / n) := Nat.le_mul_of_pos_left _ hn
  split <;> omega

theorem chunk_le (hi : i < n) : i * (total / n) + total / n ≤ total := by
  calc i * (total / n) + total / n
    _ = (i + 1) * (total / n) := (Nat.succ_mul _ _).symm
    _ ≤ n * (total / n) := Nat.mul_le_mul_right _ hi
    _ ≤ total := Nat.mul_div_le total n

theorem sum_parts (each rem n : Nat) :
    ((List.range n).map fun i => each + if i < rem then 1 else 0).sum = each * n + min rem n := by
  induction n with
  | zero => simp
  | succ n ih =>
      rw [List.range_succ, List.map_append, List.sum_append, ih, List.map_singleton,
        List.sum_singleton, Nat.mul_succ]
      split <;> omega

theorem tiles_chunks (chunk k : Nat) :
    Tiles 0 (k * chunk) ((List.range k).map fun i => .primes (i * chunk) (i * chunk + chunk)) := by
  induction k with
  | zero => simpa using Tiles.nil 0
  | succ k ih =>
      rw [List.range_succ, List.map_append, List.map_singleton, Nat.succ_mul]
      exact ih.concat (Nat.le_add_right _ _)

theorem tiles_split (upperBound : Nat) (tasks : U16) :
    Tiles 0 upperBound (JobSpec.primes upperBound tasks).split := by
  obtain ⟨k, hk⟩ : ∃ k, (JobSpec.primes upperBound tasks).taskCount = k + 1 :=
    ⟨_, (Nat.succ_pred_eq_of_pos (JobSpec.taskCount_pos _)).symm⟩
  have hlast : k * (upperBound / (k + 1)) ≤ upperBound :=
    (Nat.mul_le_mul_right _ (Nat.le_succ k)).trans (Nat.mul_div_le upperBound (k + 1))
  have hchunks := (tiles_chunks (upperBound / (k + 1)) k).concat hlast
  simp only [JobSpec.split, hk]
  rw [List.range_succ, List.map_append, List.map_singleton]
  convert hchunks using 2
  · refine List.map_congr_left fun i hi => ?_
    rw [if_neg (by have := List.mem_range.mp hi; omega)]
  · simp

end Splitting

namespace JobSpec

theorem checkedSplit_eq {spec : JobSpec} (h : spec.InRange) : spec.checkedSplit = some spec.split := by
  have hpos := spec.taskCount_pos
  have hle := spec.taskCount_le
  cases spec with
  | sleep totalMs tasks =>
      refine mapM_eq_map fun i _ => ?_
      have hpart : totalMs / (JobSpec.sleep totalMs tasks).taskCount +
          (if i < totalMs % (JobSpec.sleep totalMs tasks).taskCount then 1 else 0) ≤ totalMs := part_le hpos
      rw [checkedAdd_eq (Nat.lt_of_le_of_lt hpart h)]
      rfl
  | primes upperBound tasks =>
      refine mapM_eq_map fun i hi => ?_
      have hi := List.mem_range.mp hi
      have hstop : i * (upperBound / (JobSpec.primes upperBound tasks).taskCount) +
          upperBound / (JobSpec.primes upperBound tasks).taskCount ≤ upperBound := chunk_le hi
      simp only [InRange, u16Max] at h hle
      generalize (JobSpec.primes upperBound tasks).taskCount = n at hi hstop hle ⊢
      generalize upperBound / n = chunk at hstop ⊢
      rw [checkedMul_eq (by omega), checkedAdd_eq (by omega)]
      simp only [Option.bind_eq_bind, Option.bind_some]
      rw [checkedAdd_eq (by omega)]
      split <;> rfl
  | analysis => rfl

/-- What splitting a job makes of its work. -/
structure Conserves (spec : JobSpec) : Prop where
  length : spec.split.length = spec.taskCount
  checked : spec.checkedSplit = some spec.split
  /-- The waits add up to the total, and no two differ by more than one. -/
  sleep : ∀ totalMs tasks, spec = .sleep totalMs tasks → ∃ millis : List Nat,
    spec.split = millis.map .sleep ∧ millis.sum = totalMs ∧ ∀ a ∈ millis, ∀ b ∈ millis, a ≤ b + 1
  /-- The ranges follow each other and cover every number below the bound once; their counts add up to
  the number of primes below it. -/
  primes : ∀ upperBound tasks, spec = .primes upperBound tasks →
    Tiles 0 upperBound spec.split ∧
      (∀ x, spec.split.countP (TaskSpec.ranges x) = if x < upperBound then 1 else 0) ∧
      (spec.split.map TaskSpec.primesFound).sum = upperBound.primeCounting'
  /-- The partitions are all there, once each, under the version and algorithm of the job. -/
  analysis : ∀ version algorithm partitions, spec = .analysis version algorithm partitions →
    (∀ task ∈ spec.split, ∃ part, task = .analysis version algorithm part) ∧
      ∀ part, spec.split.count (.analysis version algorithm part) =
        if part < spec.taskCount then 1 else 0

theorem sleep_split (totalMs : Nat) (tasks : U16) : ∃ millis : List Nat,
    (JobSpec.sleep totalMs tasks).split = millis.map .sleep ∧ millis.sum = totalMs ∧
      ∀ a ∈ millis, ∀ b ∈ millis, a ≤ b + 1 := by
  have hpos := (JobSpec.sleep totalMs tasks).taskCount_pos
  generalize hn : (JobSpec.sleep totalMs tasks).taskCount = n at hpos
  refine ⟨(List.range n).map fun i => totalMs / n + if i < totalMs % n then 1 else 0, ?_, ?_, ?_⟩
  · simp only [split, hn, List.map_map]
    rfl
  · rw [sum_parts, Nat.min_eq_left (Nat.mod_lt _ hpos).le, Nat.mul_comm, Nat.div_add_mod]
  · intro a ha b hb
    obtain ⟨i, -, rfl⟩ := List.mem_map.mp ha
    obtain ⟨j, -, rfl⟩ := List.mem_map.mp hb
    split <;> split <;> omega

theorem analysis_split (version algorithm : Nat) (partitions : U16) (part : Nat) :
    (JobSpec.analysis version algorithm partitions).split.count (.analysis version algorithm part) =
      if part < (JobSpec.analysis version algorithm partitions).taskCount then 1 else 0 := by
  have hinj : Function.Injective fun i => TaskSpec.analysis version algorithm i :=
    fun i j hij => (TaskSpec.analysis.inj hij).2.2
  rw [split, List.count_map_of_injective _ _ hinj, List.nodup_range.count]
  simp

theorem conserves {spec : JobSpec} (h : spec.InRange) : spec.Conserves where
  length := spec.split_length
  checked := checkedSplit_eq h
  sleep := by
    rintro totalMs tasks rfl
    exact sleep_split totalMs tasks
  primes := by
    rintro upperBound tasks rfl
    have htiles := tiles_split upperBound tasks
    exact ⟨htiles, fun x => by simpa using htiles.ranges x, htiles.primesFound.trans (countPrimes_zero (Nat.le_of_lt h))⟩
  analysis := by
    rintro version algorithm partitions rfl
    refine ⟨fun task htask => ?_, analysis_split version algorithm partitions⟩
    obtain ⟨part, -, rfl⟩ := List.mem_map.mp htask
    exact ⟨part, rfl⟩

/-- Splitting a job conserves its work, and the primality test its counts rest on ends without an
overflow and decides primality. -/
theorem split_conserves (spec : JobSpec) (h : spec.InRange) :
    spec.Conserves ∧ ∀ n < 2 ^ 63, checkedIsPrime n = some (decide n.Prime) ∧
      isPrime n = decide n.Prime :=
  ⟨conserves h, fun _ hn => ⟨checkedIsPrime_spec hn, isPrime_eq hn⟩⟩

/-- The primes below a thousand, over no task, which stands for one. -/
theorem split_conserves_thousand : (JobSpec.primes 1000 0).Conserves ∧
    ∀ n < 2 ^ 63, checkedIsPrime n = some (decide n.Prime) ∧ isPrime n = decide n.Prime :=
  split_conserves (.primes 1000 0) (by simp [InRange])

end JobSpec

end Gavel.Cluster
