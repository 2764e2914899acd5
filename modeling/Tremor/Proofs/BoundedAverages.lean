import Tremor.Proofs.NearbyDoubles
import Tremor.Waveform.Monitor

/-!
# Averages stay bounded

The counts of a station are 32-bit integers. A running average moves towards them by a share between zero and one, and
rounding carries it past a count by less than one, at most. So the averages stay in a range far from where doubles
overflow, however many samples come in, and the ratio of two of them is a number.

- `hasValue_smoothing` : the weight of a new sample is between zero and one
- `hasValue_move` : an average does not leave a range that is a little larger than that of the samples
- `Averages.Bounded`, `bounded_start`, `Bounded.add` : the range of all averages
- `Averages.Bounded.ratio` : the ratio is a number
-/

namespace Tremor.Averages

open Number

variable {a b x weight : Float} {u v w bound : ℚ}

/-! ## One average -/

/-- One is a lower bound, also of what is no number. -/
theorem one_le_max (x : Float) : (1 : Float) ≤ Scalar.max x 1 := by
  have hone : (1 : Float) ≤ 1 := hasValue_one.le_self
  unfold Scalar.max
  split
  · exact hone
  · split
    · assumption
    · split
      · rename_i hlt hle hx
        exact absurd (Number.le_of_not_lt hone hx hlt) hle
      · exact hone

/-- A share of one is between zero and one. -/
theorem hasValue_one_div (h : (1 : Float) ≤ x) : ∃ w, HasValue (1 / x) w ∧ 0 ≤ w ∧ w ≤ 1 := by
  by_cases hinf : x.toModel.unpack = .infinity .positive
  · refine ⟨0, hasValue_of_zero (s := .positive) ?_, le_refl 0, zero_le_one⟩
    have hunpack : (1 / x).toModel.unpack =
      (Float.Model.pack (.div .binary64 (1 : Float).toModel.unpack x.toModel.unpack)).unpack := rfl
    rw [hunpack, hinf, unpack_one]
    rfl
  · obtain ⟨-, hx, hlt⟩ := le_iff.mp h
    have hvalue : ∃ v, HasValue x v := by
      refine exists_hasValue (fun hu => ?_) (fun s hu => ?_)
      · obtain ⟨p, hp⟩ := le_self_iff.mp hx
        rw [hu] at hp
        cases hp
      · cases s with
        | positive => exact hinf hu
        | negative => exact hlt (hasValue_one.infinity_lt hu)
    obtain ⟨v, hv⟩ := hvalue
    have hone : 1 ≤ v := (le_iff_of_hasValue hasValue_one hv).mp h
    have hdiv := faithful_div hasValue_one hv (by linarith)
    exact exists_hasValue_between hasValue_zero hasValue_one (hdiv.le_of_le hasValue_zero (by positivity))
      (hdiv.ge_of_ge hasValue_one ((div_le_one (by linarith)).mpr hone))

theorem hasValue_smoothing (sampleRate : Float) (samples : UInt64) (seconds : Float) :
    ∃ w, HasValue (smoothing sampleRate samples seconds) w ∧ 0 ≤ w ∧ w ≤ 1 :=
  hasValue_one_div (one_le_max _)

/-- A share of a number lies between zero and the number. -/
theorem hasValue_mul_share (hx : HasValue x v) (hweight : HasValue weight w) (hw : 0 ≤ w) (hw' : w ≤ 1) :
    ∃ p, HasValue (x * weight) p ∧ (0 ≤ p ∧ p ≤ v ∨ v ≤ p ∧ p ≤ 0) := by
  have hmul := faithful_mul hx hweight
  rcases le_total 0 v with hpos | hneg
  · have hlow := hmul.le_of_le hasValue_zero (mul_nonneg hpos hw)
    have hhigh := hmul.ge_of_ge hx (mul_le_of_le_one_right hpos hw')
    obtain ⟨p, hp, hbetween⟩ := exists_hasValue_between hasValue_zero hx hlow hhigh
    exact ⟨p, hp, Or.inl hbetween⟩
  · have hlow := hmul.le_of_le hx (le_mul_of_le_one_right hneg hw')
    have hhigh := hmul.ge_of_ge hasValue_zero (mul_nonpos_of_nonpos_of_nonneg hneg hw)
    obtain ⟨p, hp, hbetween⟩ := exists_hasValue_between hx hasValue_zero hlow hhigh
    exact ⟨p, hp, Or.inr hbetween⟩

/-- An average that moves towards a sample goes past it by less than one, if at all, so that it does not leave a range
between two doubles. -/
theorem hasValue_move (ha : HasValue a u) (hx : HasValue x v) (hweight : HasValue weight w) (hw : 0 ≤ w) (hw' : w ≤ 1)
    (hb : HasValue b bound) (hbound : bound ≤ 2 ^ 38) (hu : |u| ≤ bound) (hv : |v| + 1 ≤ bound) :
    ∃ q, HasValue (move a weight x) q ∧ |q| ≤ bound := by
  obtain ⟨hu, hu'⟩ := abs_le.mp hu
  obtain ⟨hv, hv'⟩ := abs_le.mp (le_sub_iff_add_le.mpr hv)
  obtain ⟨d, hd, hnear⟩ := (faithful_sub hx ha).near (abs_le.mpr (by constructor <;> linarith))
  obtain ⟨hnear, hnear'⟩ := abs_lt.mp hnear
  obtain ⟨p, hp, hshare⟩ := hasValue_mul_share hd hweight hw hw'
  have hsum := faithful_add ha hp
  -- the exact sum is between the average and the sample, but for the rounding of their difference
  have hlow : -bound ≤ u + p := by rcases hshare with ⟨hp0, hpd⟩ | ⟨hdp, hp0⟩ <;> linarith
  have hhigh : u + p ≤ bound := by rcases hshare with ⟨hp0, hpd⟩ | ⟨hdp, hp0⟩ <;> linarith
  obtain ⟨q, hq, hle⟩ := exists_hasValue_between hb.neg hb (hsum.le_of_le hb.neg hlow) (hsum.ge_of_ge hb hhigh)
  exact ⟨q, hq, abs_le.mpr hle⟩

/-! ## All averages -/

/-- A double within a range around zero. -/
def Within (bound : ℚ) (x : Float) : Prop := ∃ v, HasValue x v ∧ |v| ≤ bound

/-- The mean of 32-bit counts, and averages of the magnitude around it. -/
structure Bounded (a : Averages Float) : Prop where
  mean : Within (2 ^ 32) a.mean
  short : Within (2 ^ 34) a.short
  medium : Within (2 ^ 34) a.medium
  long : Within (2 ^ 34) a.long
  special : Within (2 ^ 34) a.special

theorem within_zero {bound : ℚ} (h : 0 ≤ bound) : Within bound (0 : Float) :=
  ⟨0, hasValue_zero, by rwa [abs_zero]⟩

theorem bounded_start : (start : Averages Float).Bounded where
  mean := within_zero (by norm_num)
  short := within_zero (by norm_num)
  medium := within_zero (by norm_num)
  long := within_zero (by norm_num)
  special := within_zero (by norm_num)

theorem Within.move {k : ℕ} (h : Within (2 ^ k) a) (hx : HasValue x v) (hv : |v| + 1 ≤ 2 ^ k) (hk : k ≤ 38)
    (sampleRate : Float) (samples : UInt64) (seconds : Float) :
    Within (2 ^ k) (move a (smoothing sampleRate samples seconds) x) := by
  obtain ⟨u, hu, hle⟩ := h
  obtain ⟨w, hw, hlow, hhigh⟩ := hasValue_smoothing sampleRate samples seconds
  obtain ⟨b, hb⟩ := exists_hasValue_mul (i := 1) (by decide) (show -1000 ≤ (k : Int) by omega) (by omega)
  rw [Int.cast_one, one_mul, zpow_natCast] at hb
  exact hasValue_move hu hx hw hlow hhigh hb (pow_le_pow_right₀ one_le_two hk) hle hv

/-- A 32-bit count as a double. -/
theorem hasValue_count (raw : Int32) : ∃ v, HasValue (ofInt64 raw.toInt64) v ∧ |v| ≤ 2 ^ 31 := by
  have hlow := raw.le_toInt
  have hhigh := raw.toInt_lt
  have habs : |raw.toInt64.toInt| ≤ 2 ^ 31 := by
    rw [Int32.toInt_toInt64, abs_le]
    omega
  refine ⟨_, hasValue_ofInt64 (lt_of_le_of_lt habs (by decide)), ?_⟩
  exact_mod_cast habs

/-- Samples keep the averages in their range. -/
theorem Bounded.add {a : Averages Float} (h : a.Bounded) (sampleRate : Float) (holdLong : Bool) (raw : Int32) :
    (a.add sampleRate holdLong (ofInt64 raw.toInt64)).1.Bounded := by
  obtain ⟨v, hv, hcount⟩ := hasValue_count raw
  have hmean := h.mean.move hv (by linarith) (by decide) sampleRate (a.samples + 1) meanSeconds
  obtain ⟨m, hm, hm'⟩ := hmean
  have hlevel : ∃ l, HasValue (Scalar.abs (ofInt64 raw.toInt64 -
      move a.mean (smoothing sampleRate (a.samples + 1) meanSeconds) (ofInt64 raw.toInt64))) l ∧ |l| + 1 ≤ 2 ^ 34 := by
    have hcount' := abs_le.mp hcount
    have hm'' := abs_le.mp hm'
    obtain ⟨f, hf, hnear⟩ := (faithful_sub hv hm).near (abs_le.mpr (by constructor <;> linarith))
    have hnear' := abs_lt.mp hnear
    have hf' : |f| ≤ 2 ^ 33 := abs_le.mpr (by constructor <;> linarith)
    exact ⟨|f|, hf.abs, by rw [abs_abs]; linarith⟩
  obtain ⟨l, hl, hl'⟩ := hlevel
  refine ⟨⟨m, hm, hm'⟩, h.short.move hl hl' (by decide) _ _ _, h.medium.move hl hl' (by decide) _ _ _, ?_,
    h.special.move hl hl' (by decide) _ _ _⟩
  simp only [Averages.add]
  split
  · exact h.long
  · exact h.long.move hl hl' (by decide) _ _ _

/-- What the short average is divided by is positive. -/
theorem Bounded.divisor {a : Averages Float} (h : a.Bounded) : ∃ v, HasValue a.divisor v ∧ 0 < v := by
  have hlow : (0 : Float) ≤ leastLong := by decide +kernel
  have hhigh : (leastLong : Float) ≤ 1 := by decide +kernel
  obtain ⟨least, hleast, -⟩ := exists_hasValue_between hasValue_zero hasValue_one hlow hhigh
  have hpos : 0 < least := (lt_iff_of_hasValue hasValue_zero hleast).mp (by decide +kernel)
  obtain ⟨u, hu, -⟩ := h.long
  rw [Averages.divisor]
  rcases max_cases (y := leastLong) hu.le_self with ⟨hmax, hlt⟩ | ⟨hmax, -⟩
  · rw [lt_iff_of_hasValue hu hleast, not_lt] at hlt
    exact ⟨u, by rwa [hmax], hpos.trans_le hlt⟩
  · exact ⟨least, by rwa [hmax], hpos⟩

/-- The ratio of the short to the long average is a number. -/
theorem Bounded.ratio {a : Averages Float} (h : a.Bounded) : a.ratio ≤ a.ratio := by
  obtain ⟨u, hu, -⟩ := h.short
  obtain ⟨v, hv, hpos⟩ := h.divisor
  exact (faithful_div hu hv hpos.ne').le_self

end Tremor.Averages
