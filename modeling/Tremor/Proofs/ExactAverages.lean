import Mathlib.Analysis.Convex.Basic
import Mathlib.Tactic.NormNum
import Tremor.Proofs.SampleClock
import Tremor.Proofs.TriggerRuns

/-!
# Averages read exactly

Read exactly, a running average moves to a point between itself and the new sample. So none of them leaves the range of
what it averages: the mean stays within the counts, and the magnitude of a count around the mean, together with all
averages of it, stays within the span of the counts. The first sample counts in full, so the zero that the mean starts
from leaves no trace.

Whether the long average rests is up to the trigger. Here it is given with each sample, and may be anything.

- `smoothing_mem` : the weight of a sample is above zero and at most one
- `takeIn`, `run` : the averages after one sample, and after many; `Monitor.averages_after` : those of a monitor
- `InRange` : the averages are in the range of the counts
- `InRange.takeIn`, `inRange_takeIn_start`, `InRange.foldl` : one sample, the first one, and any number of them
- `run_in_range` : the averages of any samples, the divisor and the ratio
-/

namespace Tremor

/-! ## Exact order -/

namespace Scalar

theorem max_eq (x y : ℚ) : Scalar.max x y = max x y := by
  change (if x < y then y else if y ≤ x then x else if x ≤ x then x else y) = max x y
  split
  · exact (max_eq_right_of_lt ‹_›).symm
  · rw [if_pos (not_lt.mp ‹_›)]
    exact (max_eq_left (not_lt.mp ‹_›)).symm

theorem min_eq (x y : ℚ) : Scalar.min x y = min x y := by
  change (if y < x then y else if x ≤ y then x else if x ≤ x then x else y) = min x y
  split
  · exact (min_eq_right_of_lt ‹_›).symm
  · rw [if_pos (not_lt.mp ‹_›)]
    exact (min_eq_left (not_lt.mp ‹_›)).symm

end Scalar

/-! ## Runs -/

namespace Averages

variable {R : Type} [Scalar R]

/-- The averages after a count. The first part of a sample tells whether the long average rests. -/
def takeIn (sampleRate : R) (a : Averages R) (sample : Bool × Int32) : Averages R :=
  (a.add sampleRate sample.1 (Scalar.ofInt64 sample.2.toInt64)).1

/-- The averages of a station after some samples. -/
def run (sampleRate : R) (samples : List (Bool × Int32)) : Averages R :=
  samples.foldl (takeIn sampleRate) start

end Averages

namespace Monitor

theorem sampleRate_after (m : Monitor) (samples : ℕ → Int64 × Int32) :
    ∀ n, (m.after samples n).sampleRate = m.sampleRate
  | 0 => rfl
  | n + 1 => m.sampleRate_after samples n

/-- What a monitor takes in: a count, and whether a detection is open. -/
def intake (m : Monitor) (samples : ℕ → Int64 × Int32) (n : ℕ) : Bool × Int32 :=
  ((m.after samples n).isTriggered, (samples n).2)

/-- A monitor takes its samples in one after the other, and the long average rests while a detection is open. -/
theorem averages_after (m : Monitor) (samples : ℕ → Int64 × Int32) (n : ℕ) :
    (m.after samples n).averages =
      ((List.range n).map (m.intake samples)).foldl (Averages.takeIn m.sampleRate) m.averages := by
  induction n with
  | zero => rfl
  | succ n ih =>
    rw [List.range_succ, List.map_append, List.foldl_append, ← ih, ← m.sampleRate_after samples n]
    rfl

end Monitor

namespace Averages

open Set

variable {a : Averages ℚ} {low high sampleRate raw : ℚ} {holdLong : Bool}

/-! ## One average -/

theorem smoothing_eq (sampleRate : ℚ) (samples : UInt64) (seconds : ℚ) :
    smoothing sampleRate samples seconds = 1 / max (min (sampleRate * seconds) samples.toNat) 1 := by
  rw [← Scalar.min_eq, ← Scalar.max_eq]
  rfl

/-- A window holds one sample at least, at whatever rate. -/
theorem smoothing_mem (sampleRate : ℚ) (samples : UInt64) (seconds : ℚ) :
    smoothing sampleRate samples seconds ∈ Ioc 0 1 := by
  rw [smoothing_eq]
  have hwindow : 1 ≤ max (min (sampleRate * seconds) samples.toNat) 1 := le_max_right _ _
  exact ⟨one_div_pos.mpr (zero_lt_one.trans_le hwindow), (div_le_one (zero_lt_one.trans_le hwindow)).mpr hwindow⟩

/-- No window is longer than the first sample. -/
theorem smoothing_one (sampleRate seconds : ℚ) : smoothing sampleRate 1 seconds = 1 := by
  have hwindow : min (sampleRate * seconds) (((1 : UInt64).toNat : ℕ) : ℚ) ≤ 1 :=
    (min_le_right _ _).trans_eq Nat.cast_one
  rw [smoothing_eq, max_eq_right hwindow, div_one]

/-- An average moves to a point between itself and the sample. -/
theorem move_mem {average value : ℚ} (ha : average ∈ Icc low high) (hv : value ∈ Icc low high) (sampleRate : ℚ)
    (samples : UInt64) (seconds : ℚ) :
    move average (smoothing sampleRate samples seconds) value ∈ Icc low high := by
  have hweight := smoothing_mem sampleRate samples seconds
  have hbetween := (convex_Icc low high).add_smul_sub_mem ha hv (Ioc_subset_Icc_self hweight)
  rwa [smul_eq_mul, mul_comm] at hbetween

/-- Two counts of a range differ by its length at most. -/
theorem abs_sub_mem {mean : ℚ} (hraw : raw ∈ Icc low high) (hmean : mean ∈ Icc low high) :
    Scalar.abs (raw - mean) ∈ Icc 0 (high - low) := by
  obtain ⟨hlow, hhigh⟩ := hraw
  obtain ⟨hlow', hhigh'⟩ := hmean
  rw [Ring.abs_eq]
  exact ⟨abs_nonneg _, abs_le.mpr (by constructor <;> linarith)⟩

/-! ## All averages -/

/-- The averages of the magnitude do not exceed a span. -/
structure LevelsIn (span : ℚ) (a : Averages ℚ) : Prop where
  short : a.short ∈ Icc 0 span
  medium : a.medium ∈ Icc 0 span
  long : a.long ∈ Icc 0 span
  special : a.special ∈ Icc 0 span

/-- The mean is in the range of the counts, and the averages of the magnitude around it do not exceed their span. -/
structure InRange (low high : ℚ) (a : Averages ℚ) : Prop where
  mean : a.mean ∈ Icc low high
  levels : a.LevelsIn (high - low)

theorem levelsIn_start {span : ℚ} (h : 0 ≤ span) : (start : Averages ℚ).LevelsIn span :=
  ⟨left_mem_Icc.mpr h, left_mem_Icc.mpr h, left_mem_Icc.mpr h, left_mem_Icc.mpr h⟩

/-- With the count and the new mean in range, the averages of the magnitude stay in theirs. -/
theorem LevelsIn.add (h : a.LevelsIn (high - low)) (hraw : raw ∈ Icc low high)
    (hmean : (a.add sampleRate holdLong raw).1.mean ∈ Icc low high) :
    (a.add sampleRate holdLong raw).1.LevelsIn (high - low) := by
  have hlevel := abs_sub_mem hraw hmean
  refine ⟨move_mem h.short hlevel _ _ _, move_mem h.medium hlevel _ _ _, ?_, move_mem h.special hlevel _ _ _⟩
  cases holdLong with
  | true => exact h.long
  | false => exact move_mem h.long hlevel _ _ _

/-- The mean moves within the range, and the rest follows it. -/
theorem InRange.add (h : a.InRange low high) (hraw : raw ∈ Icc low high) :
    (a.add sampleRate holdLong raw).1.InRange low high := by
  have hmean : (a.add sampleRate holdLong raw).1.mean ∈ Icc low high := move_mem h.mean hraw _ _ _
  exact ⟨hmean, h.levels.add hraw hmean⟩

/-- The first count is the mean, in whatever range it is. -/
theorem inRange_add_start (hraw : raw ∈ Icc low high) :
    ((start : Averages ℚ).add sampleRate holdLong raw).1.InRange low high := by
  -- zero need not be in the range, so that `InRange.add` does not apply to the start
  have hmean : ((start : Averages ℚ).add sampleRate holdLong raw).1.mean = raw := by
    change 0 + (raw - 0) * smoothing sampleRate 1 meanSeconds = raw
    rw [smoothing_one, mul_one, sub_zero, zero_add]
  have hspan : 0 ≤ high - low := sub_nonneg.mpr (hraw.1.trans hraw.2)
  have hmem : ((start : Averages ℚ).add sampleRate holdLong raw).1.mean ∈ Icc low high := hmean.symm ▸ hraw
  exact ⟨hmem, (levelsIn_start hspan).add hraw hmem⟩

/-! ## All samples -/

/-- A count read exactly. -/
theorem ofInt64_count (raw : Int32) : (Scalar.ofInt64 raw.toInt64 : ℚ) = raw.toInt := by
  change (raw.toInt64.toInt : ℚ) = raw.toInt
  rw [Int32.toInt_toInt64]

variable {samples : List (Bool × Int32)} {sample : Bool × Int32}

theorem InRange.takeIn (h : a.InRange low high) (hs : (sample.2.toInt : ℚ) ∈ Icc low high) :
    (a.takeIn sampleRate sample).InRange low high := by
  rw [← ofInt64_count] at hs
  exact h.add hs

theorem inRange_takeIn_start (hs : (sample.2.toInt : ℚ) ∈ Icc low high) :
    ((start : Averages ℚ).takeIn sampleRate sample).InRange low high := by
  rw [← ofInt64_count] at hs
  exact inRange_add_start hs

theorem InRange.foldl (h : a.InRange low high) (hs : ∀ s ∈ samples, (s.2.toInt : ℚ) ∈ Icc low high) :
    (samples.foldl (Averages.takeIn sampleRate) a).InRange low high := by
  induction samples generalizing a with
  | nil => exact h
  | cons s samples ih =>
    rw [List.forall_mem_cons] at hs
    exact ih (h.takeIn hs.1) hs.2

theorem InRange.run (hne : samples ≠ []) (hs : ∀ s ∈ samples, (s.2.toInt : ℚ) ∈ Icc low high) :
    (Averages.run sampleRate samples).InRange low high := by
  obtain ⟨first, rest, rfl⟩ := List.exists_cons_of_ne_nil hne
  rw [List.forall_mem_cons] at hs
  exact (inRange_takeIn_start hs.1).foldl hs.2

/-! ## The ratio -/

theorem divisor_eq (a : Averages ℚ) : a.divisor = max a.long 1e-6 := by
  rw [divisor, Scalar.max_eq]
  rfl

theorem divisor_pos (a : Averages ℚ) : 0 < a.divisor := by
  rw [divisor_eq]
  exact lt_max_of_lt_right (by norm_num)

/-- After any samples at any rate: every weight is above zero and at most one, the mean is in the range of the counts, and
the averages of the magnitude do not exceed its length. So the ratio is that of a number that is not negative to one that
is not below a millionth. -/
theorem run_in_range (sampleRate low high : ℚ) (samples : List (Bool × Int32)) (hne : samples ≠ [])
    (hs : ∀ s ∈ samples, (s.2.toInt : ℚ) ∈ Icc low high) :
    (∀ n seconds, smoothing sampleRate n seconds ∈ Ioc 0 1) ∧
      let a := run sampleRate samples
      a.mean ∈ Icc low high ∧ a.short ∈ Icc 0 (high - low) ∧ a.medium ∈ Icc 0 (high - low) ∧
        a.special ∈ Icc 0 (high - low) ∧ a.long ∈ Icc 0 (high - low) ∧ 1e-6 ≤ a.divisor ∧ 0 ≤ a.ratio := by
  refine ⟨smoothing_mem sampleRate, ?_⟩
  intro a
  obtain ⟨hmean, hlevels⟩ : a.InRange low high := InRange.run hne hs
  have hdivisor : 1e-6 ≤ a.divisor := (le_max_right _ _).trans_eq (divisor_eq a).symm
  exact ⟨hmean, hlevels.short, hlevels.medium, hlevels.special, hlevels.long, hdivisor,
    div_nonneg hlevels.short.1 (divisor_pos a).le⟩

/-- Three counts from -3 to 8 at two samples a second, the last of them while a detection is open. -/
theorem run_in_range_three :
    let a := run (2 : ℚ) [(false, 5), (false, -3), (true, 8)]
    a.mean = 10 / 3 ∧ a.mean ∈ Icc (-3) 8 ∧ a.short = 14 / 3 ∧ a.short ∈ Icc 0 11 ∧ a.long = 2 ∧ 0 ≤ a.ratio := by
  intro a
  have hcounts : ∀ s ∈ [(false, 5), (false, -3), (true, 8)], ((s : Bool × Int32).2.toInt : ℚ) ∈ Icc (-3) 8 := by
    rw [List.forall_mem_cons, List.forall_mem_cons, List.forall_mem_singleton]
    decide +kernel
  obtain ⟨-, hmean, hshort, -, -, -, -, hratio⟩ :=
    run_in_range 2 (-3) 8 [(false, 5), (false, -3), (true, 8)] (List.cons_ne_nil _ _) hcounts
  rw [show (8 : ℚ) - -3 = 11 by norm_num] at hshort
  exact ⟨by decide +kernel, hmean, by decide +kernel, hshort, by decide +kernel, hratio⟩

end Averages

end Tremor
