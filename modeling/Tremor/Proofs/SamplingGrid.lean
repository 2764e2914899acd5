import Tremor.Playground.Simulation
import Tremor.Random.Normal
import Tremor.Proofs.RelativeError
import Tremor.Proofs.Words

/-!
# The sampling grid of a simulated station

A station is sampled at a whole rate. The interval between samples is the nearest double to that many milliseconds, so
that a multiple of it can fall short of a whole millisecond, and a span can fall short of a whole number of intervals.
Nothing else goes wrong, as long as the fractions of a millisecond that the rate makes can be told apart.

- `RoundedInterval` : the interval of a rate
- `sampleCount_cases`, `sampleTime_cases` : the numbers and times of samples
- `sampleTimes`, `map_fst_waveform` : the times in a waveform
- `recordChunks` : what a station records in consecutive chunks
- `waveform_grid` : the grid of every rate, and chunks without a gap where the interval is exact
- `waveform_misses_sample` : a gap where it is not
-/

namespace Tremor

open Number

namespace Simulation

variable {r n p q i : ℕ} {v : ℚ} {start stop : Int64}

/-! ## The interval -/

/-- The interval of a whole rate from 1 to 1000 Hz: the quotient, rounded. -/
structure RoundedInterval (r : ℕ) (v : ℚ) : Prop where
  rate_pos : 1 ≤ r
  rate_le : r ≤ 1000
  value : HasValue (sampleInterval r.toFloat) v
  near : |v - 1000 / r| ≤ 1000 / r / 2 ^ 53
  exact : r ∣ 512000 → v = 1000 / r

theorem exists_roundedInterval (hr : 1 ≤ r) (hr' : r ≤ 1000) : ∃ v, RoundedInterval r v := by
  have hpos : (1 : ℚ) ≤ r := by exact_mod_cast hr
  have hle : (r : ℚ) ≤ 1000 := by exact_mod_cast hr'
  have hquotient : 1 ≤ 1000 / (r : ℚ) ∧ 1000 / (r : ℚ) ≤ 1000 :=
    ⟨(one_le_div (by linarith)).mpr hle, div_le_self (by norm_num) hpos⟩
  have hrate : HasValue r.toFloat r := hasValue_toFloat (by omega)
  by_cases hdvd : r ∣ 512000
  · obtain ⟨m, hm⟩ := hdvd
    have hlt : |(m : Int)| < 0x20000000000000 := by
      have : m ≤ r * m := Nat.le_mul_of_pos_left m hr
      exact abs_lt.mpr (by omega)
    obtain ⟨x, hx⟩ := exists_hasValue_mul hlt (show -1000 ≤ (-9 : Int) by decide) (by decide)
    have hvalue : ((m : Int) : ℚ) * 2 ^ (-9 : Int) = 1000 / r := by
      have hm' : (512000 : ℚ) = r * m := by exact_mod_cast hm
      rw [eq_div_iff (by linarith), zpow_neg]
      norm_num
      linarith
    rw [hvalue] at hx
    have hinterval := faithful_div hasValue_thousand hrate (by linarith : (r : ℚ) ≠ 0)
    refine ⟨1000 / r, hr, hr', hinterval.hasValue hx, ?_, fun _ => rfl⟩
    rw [sub_self, abs_zero]
    positivity
  · obtain ⟨v, hv, hnear⟩ := close_div hasValue_thousand hrate (by linarith)
      (ordinary_of_bounds (by linarith) (by linarith))
    have habs : |1000 / (r : ℚ)| = 1000 / r := abs_of_nonneg (by linarith)
    rw [habs] at hnear
    exact ⟨v, hr, hr', hv, hnear, fun h => absurd h hdvd⟩

/-- Within `n` milliseconds, the fractions of a millisecond at which a rate has samples can be told apart. -/
def Resolved (r n : ℕ) : Prop := n * (r / r.gcd 1000) < if r ∣ 512000 then 2 ^ 53 else 2 ^ 52

instance (r n : ℕ) : Decidable (Resolved r n) := inferInstanceAs (Decidable (_ < _))

namespace RoundedInterval

theorem bounds (h : RoundedInterval r v) : 1 / 2 < v ∧ v < 1001 := by
  have hpos : (1 : ℚ) ≤ r := by exact_mod_cast h.rate_pos
  have hle : (r : ℚ) ≤ 1000 := by exact_mod_cast h.rate_le
  have hlow : 1 ≤ 1000 / (r : ℚ) := (one_le_div (by linarith)).mpr hle
  have hhigh : 1000 / (r : ℚ) ≤ 1000 := div_le_self (by norm_num) hpos
  obtain ⟨hbelow, habove⟩ := abs_le.mp h.near
  constructor <;> linarith

end RoundedInterval

/-- The rate in lowest terms, as samples in a number of milliseconds. -/
structure LowestTerms (r n : ℕ) (v : ℚ) (p q : ℕ) : Prop where
  samples_pos : 0 < p
  millis_pos : 0 < q
  rate : r * q = 1000 * p
  small : n * p < 2 ^ 53
  resolved : n * p < 2 ^ 52 ∨ v = 1000 / r

theorem RoundedInterval.lowestTerms (h : RoundedInterval r v) (hres : Resolved r n) :
    ∃ p q, LowestTerms r n v p q := by
  have hr := h.rate_pos
  have hg : 0 < r.gcd 1000 := Nat.gcd_pos_of_pos_left _ hr
  have hleft : r.gcd 1000 * (r / r.gcd 1000) = r := Nat.mul_div_cancel' (Nat.gcd_dvd_left r 1000)
  have hright : r.gcd 1000 * (1000 / r.gcd 1000) = 1000 := Nat.mul_div_cancel' (Nat.gcd_dvd_right r 1000)
  refine ⟨r / r.gcd 1000, 1000 / r.gcd 1000, Nat.div_pos (Nat.gcd_le_left _ hr) hg,
    Nat.div_pos (Nat.gcd_le_right _ (by decide)) hg, ?_, ?_, ?_⟩
  · generalize r / r.gcd 1000 = p at hleft
    generalize 1000 / r.gcd 1000 = q at hright
    rw [← hright]
    nth_rewrite 1 [← hleft]
    ring
  · rw [Resolved] at hres
    split at hres <;> omega
  · rw [Resolved] at hres
    split at hres
    · exact Or.inr (h.exact ‹_›)
    · exact Or.inl hres

namespace LowestTerms

/-- The exact interval in lowest terms. -/
theorem interval_mul (h : LowestTerms r n v p q) (hr : 1 ≤ r) : 1000 / (r : ℚ) * p = q := by
  have hpos : (0 : ℚ) < r := by exact_mod_cast hr
  have hrate : (r : ℚ) * q = 1000 * p := by exact_mod_cast h.rate
  rw [div_mul_eq_mul_div, div_eq_iff hpos.ne', ← hrate]
  ring

end LowestTerms

/-- An error by a share of `1 / 2 ^ 53` each, before a number is rounded and when it is, leaves it less than one away
from a whole number of 52 bits, in units of which it has `c`. -/
theorem abs_mul_sub_lt_one {w x c : ℚ} {k : ℕ} (hx : 0 ≤ x) (hc : 0 < c) (hround : |w - x| ≤ |x| / 2 ^ 53)
    (hclose : k < 2 ^ 52 ∧ (|x * c - k| ≤ x * c / 2 ^ 53 ∨ |x * c - k| ≤ k / 2 ^ 53) ∨ k < 2 ^ 53 ∧ x * c = k) :
    |w * c - k| < 1 := by
  have hscaled : |w * c - x * c| ≤ x * c / 2 ^ 53 := by
    rw [abs_of_nonneg hx] at hround
    rw [← sub_mul, abs_mul, abs_of_pos hc]
    calc |w - x| * c ≤ x / 2 ^ 53 * c := mul_le_mul_of_nonneg_right hround hc.le
      _ = x * c / 2 ^ 53 := by ring
  obtain ⟨hlow, hhigh⟩ := abs_le.mp hscaled
  rw [abs_lt]
  rcases hclose with ⟨hk, hclose⟩ | ⟨hk, hexact⟩
  · have hk : (k : ℚ) + 1 ≤ 2 ^ 52 := by exact_mod_cast hk
    rcases hclose with hclose | hclose <;>
    · obtain ⟨hlow', hhigh'⟩ := abs_le.mp hclose
      constructor <;> linarith
  · have hk : (k : ℚ) < 2 ^ 53 := by exact_mod_cast hk
    constructor <;> linarith

/-- A span, divided by the rounded interval and rounded, is off by less than the unit of its exact fraction. -/
theorem count_near (h : RoundedInterval r v) (ht : LowestTerms r n v p q) {w : ℚ}
    (hw : |w - n / v| ≤ |n / v| / 2 ^ 53) : |w * q - (n * p : ℕ)| < 1 := by
  have hv : 0 < v := by
    obtain ⟨hv, -⟩ := h.bounds
    linarith
  have hq : (0 : ℚ) < q := by exact_mod_cast ht.millis_pos
  have hinterval : (0 : ℚ) < 1000 / r := by
    have : (0 : ℚ) < r := by exact_mod_cast h.rate_pos
    positivity
  have hnonneg : 0 ≤ n / v := by positivity
  -- the same number of milliseconds, in exact and in rounded intervals
  have hspan : ((n * p : ℕ) : ℚ) * (1000 / r) = n / v * q * v := by
    push_cast
    rw [div_mul_eq_mul_div, div_mul_cancel₀ _ hv.ne', ← ht.interval_mul h.rate_pos]
    ring
  refine abs_mul_sub_lt_one hnonneg hq hw ?_
  rcases ht.resolved with hk | hexact
  · refine Or.inl ⟨hk, Or.inl (le_of_mul_le_mul_right ?_ hinterval)⟩
    calc |n / v * q - (n * p : ℕ)| * (1000 / r) = |(n / v * q) * (v - 1000 / r)| := by
          rw [← abs_of_pos hinterval, ← abs_mul, abs_of_pos hinterval, sub_mul, hspan, mul_sub, abs_sub_comm]
      _ = n / v * q * |v - 1000 / r| := by rw [abs_mul, abs_of_nonneg (mul_nonneg hnonneg hq.le)]
      _ ≤ n / v * q * (1000 / r / 2 ^ 53) := mul_le_mul_of_nonneg_left h.near (mul_nonneg hnonneg hq.le)
      _ = n / v * q / 2 ^ 53 * (1000 / r) := by ring
  · rw [← hexact] at hspan
    exact Or.inr ⟨ht.small, (mul_right_cancel₀ hv.ne' hspan).symm⟩

/-- So is the offset of a sample. -/
theorem offset_near (h : RoundedInterval r v) (ht : LowestTerms r n v p q) (hi : q * i ≤ n * p) {w : ℚ}
    (hw : |w - i * v| ≤ |i * v| / 2 ^ 53) : |w * p - (q * i : ℕ)| < 1 := by
  obtain ⟨hv, -⟩ := h.bounds
  have hp : (0 : ℚ) < p := by exact_mod_cast ht.samples_pos
  have hexact : ((q * i : ℕ) : ℚ) = i * (1000 / r) * p := by
    push_cast
    rw [← ht.interval_mul h.rate_pos]
    ring
  refine abs_mul_sub_lt_one (mul_nonneg (Nat.cast_nonneg i) (by linarith)) hp hw ?_
  rcases ht.resolved with hk | hexact'
  · refine Or.inl ⟨hi.trans_lt hk, Or.inr ?_⟩
    calc |i * v * p - (q * i : ℕ)| = |(i * p) * (v - 1000 / r)| := by
          rw [hexact]
          ring_nf
      _ = i * p * |v - 1000 / r| := by rw [abs_mul, abs_of_nonneg (by positivity)]
      _ ≤ i * p * (1000 / r / 2 ^ 53) := mul_le_mul_of_nonneg_left h.near (by positivity)
      _ = (q * i : ℕ) / 2 ^ 53 := by
          rw [hexact]
          ring
  · exact Or.inr ⟨hi.trans_lt ht.small, by rw [hexact, hexact']⟩

/-! ## The numbers and times of samples -/

/-- Equal fractions have equal whole parts, and are whole together. -/
theorem div_eq_of_mul_eq {a b c d : ℕ} (hb : 0 < b) (hd : 0 < d) (h : a * d = c * b) :
    a / b = c / d ∧ (b ∣ a ↔ d ∣ c) := by
  constructor
  · rw [← Nat.mul_div_mul_right a b hd, h, Nat.mul_comm b d, Nat.mul_div_mul_right c d hb]
  · rw [← Nat.mul_dvd_mul_iff_right hd, h, Nat.mul_comm b d, Nat.mul_dvd_mul_iff_right hb]

theorem hasValue_span (hspan : start.toInt + n = stop.toInt) (hn : n < 2 ^ 53) :
    HasValue (ofInt64 (stop - start)) n := by
  have hdiff : stop.toInt - start.toInt = n := by omega
  have hword : (stop - start).toInt = n := by
    rw [toInt_sub_of_inWord, hdiff]
    rw [hdiff]
    exact ⟨by omega, by omega⟩
  have h := hasValue_ofInt64 (i := stop - start) (by rw [hword]; exact abs_lt.mpr (by omega))
  rw [hword] at h
  exact_mod_cast h

namespace LowestTerms

theorem span_lt (h : LowestTerms r n v p q) : n < 2 ^ 53 :=
  (Nat.le_mul_of_pos_right n h.samples_pos).trans_lt h.small

/-- The exact number of samples in lowest terms. -/
theorem count_eq (h : LowestTerms r n v p q) : n * r / 1000 = n * p / q ∧ (1000 ∣ n * r ↔ q ∣ n * p) :=
  div_eq_of_mul_eq (by decide) h.millis_pos (by
    rw [Nat.mul_assoc, h.rate]
    ring)

/-- The exact time of a sample in lowest terms. -/
theorem time_eq (h : LowestTerms r n v p q) (hr : 1 ≤ r) (i : ℕ) :
    1000 * i / r = q * i / p ∧ (r ∣ 1000 * i ↔ p ∣ q * i) :=
  div_eq_of_mul_eq hr h.samples_pos (by
    rw [Nat.mul_right_comm, ← h.rate]
    ring)

/-- A sample within the span is so in lowest terms. -/
theorem offset_lt (h : LowestTerms r n v p q) (hi : 1000 * i < n * r) : q * i < n * p := by
  refine Nat.lt_of_mul_lt_mul_left (a := 1000) ?_
  calc 1000 * (q * i) = q * (1000 * i) := by ring
    _ < q * (n * r) := Nat.mul_lt_mul_of_pos_left hi h.millis_pos
    _ = n * (r * q) := by ring
    _ = 1000 * (n * p) := by
      rw [h.rate]
      ring

end LowestTerms

/-- Zero, or at least one: times a factor that is neither too small nor too large, that keeps all places. -/
theorem ordinary_mul {f : ℚ} (hn : n < 2 ^ 53) (hlow : 1 / 1001 ≤ f) (hhigh : f ≤ 1001) : Ordinary (n * f) := by
  rcases Nat.eq_zero_or_pos n with rfl | hpos
  · exact Or.inl (by rw [Nat.cast_zero, zero_mul])
  · have hone : (1 : ℚ) ≤ n := by exact_mod_cast hpos
    have hlarge : (n : ℚ) ≤ 2 ^ 53 := by exact_mod_cast hn.le
    refine ordinary_of_bounds ?_ ?_
    · calc (1 : ℚ) / 2 ^ 20 ≤ 1 * (1 / 1001) := by norm_num
        _ ≤ n * f := mul_le_mul hone hlow (by norm_num) (by linarith)
    · calc (n : ℚ) * f ≤ 2 ^ 53 * 1001 := mul_le_mul hlarge hhigh (by linarith) (by norm_num)
        _ ≤ 2 ^ 64 := by norm_num

theorem exists_hasValue_span_div (h : RoundedInterval r v) (hspan : start.toInt + n = stop.toInt) (hn : n < 2 ^ 53) :
    ∃ w, HasValue (ofInt64 (stop - start) / sampleInterval r.toFloat) w ∧ |w - n / v| ≤ |n / v| / 2 ^ 53 := by
  obtain ⟨hv, hv'⟩ := h.bounds
  have hordinary : Ordinary (n * v⁻¹) := by
    refine ordinary_mul hn ?_ ?_
    · rw [← one_div]
      exact one_div_le_one_div_of_le (by linarith) hv'.le
    · calc v⁻¹ ≤ (1 / 2)⁻¹ := inv_anti₀ (by norm_num) hv.le
        _ ≤ 1001 := by norm_num
  exact close_div (hasValue_span hspan hn) h.value (by linarith) (by rwa [div_eq_mul_inv])

theorem exists_hasValue_mul_interval (h : RoundedInterval r v) (hi : i < 2 ^ 53) :
    ∃ w, HasValue (i.toFloat * sampleInterval r.toFloat) w ∧ Faithful (i.toFloat * sampleInterval r.toFloat) (i * v) ∧
      |w - i * v| ≤ |i * v| / 2 ^ 53 := by
  obtain ⟨hv, hv'⟩ := h.bounds
  have hindex : HasValue i.toFloat i := hasValue_toFloat hi
  obtain ⟨w, hw, hclose⟩ := close_mul hindex h.value (ordinary_mul hi (by linarith) hv'.le)
  exact ⟨w, hw, faithful_mul hindex h.value, hclose⟩

/-- A number of samples is the whole part of a quotient. -/
theorem sampleCount_eq_floor {rate : Float} {w : ℚ} (hw : HasValue (ofInt64 (stop - start) / sampleInterval rate) w)
    (hnonneg : 0 ≤ w) (hlt : w < 2 ^ 64) : sampleCount rate start stop = ⌊w⌋₊ := by
  have hzero : HasValue 0.0 0 := hasValue_of_zero (s := .positive) rfl
  have hmax : Scalar.max (ofInt64 (stop - start) / sampleInterval rate) 0.0 =
      ofInt64 (stop - start) / sampleInterval rate := by
    rcases max_cases hw.le_self with ⟨heq, -⟩ | ⟨-, hneg⟩
    · exact heq
    · exact absurd hnonneg (not_le.mpr ((lt_iff_of_hasValue hw hzero).mp hneg))
  rw [sampleCount, hmax, truncateNat, toNat_toUInt64_of_hasValue hw hnonneg hlt]

/-- A sample is offset by the whole part of a product. -/
theorem toInt_sampleTime {rate : Float} {w : ℚ} (hw : HasValue (i.toFloat * sampleInterval rate) w) (hnonneg : 0 ≤ w)
    (hfloor : ⌊w⌋₊ ≤ n) (hn : n < 2 ^ 53) (hspan : start.toInt + n = stop.toInt) :
    (sampleTime rate start i).toInt = start.toInt + ⌊w⌋₊ := by
  have htruncate : (truncate (i.toFloat * sampleInterval rate)).toInt = ⌊w⌋₊ := by
    have hbound : w < 2 ^ 62 := by
      have hlt : ((⌊w⌋₊ : ℕ) : ℚ) + 1 ≤ 2 ^ 62 := by exact_mod_cast (show ⌊w⌋₊ + 1 ≤ 2 ^ 62 by omega)
      exact (Nat.lt_floor_add_one w).trans_le hlt
    rw [toInt_truncate hw (by rwa [abs_of_nonneg hnonneg]), if_neg (not_lt.mpr hnonneg),
      Int.natCast_floor_eq_floor hnonneg]
  rw [sampleTime, toInt_add_of_inWord, htruncate]
  rw [htruncate]
  have := start.le_toInt
  have := stop.toInt_lt
  exact ⟨by omega, by omega⟩

/-- The number of samples is that of the exact grid, or one less where the span ends on the grid and the interval was
rounded up. -/
theorem sampleCount_cases (h : RoundedInterval r v) (hres : Resolved r n) (hspan : start.toInt + n = stop.toInt) :
    sampleCount r.toFloat start stop = n * r / 1000 ∨
      1000 ∣ n * r ∧ 1000 / r < v ∧ sampleCount r.toFloat start stop + 1 = n * r / 1000 := by
  obtain ⟨p, q, ht⟩ := h.lowestTerms hres
  obtain ⟨hv, -⟩ := h.bounds
  have hn := ht.span_lt
  obtain ⟨w, hw, hclose⟩ := exists_hasValue_span_div h hspan hn
  obtain ⟨hnonneg, hdouble⟩ := bounds_of_near (div_nonneg (Nat.cast_nonneg n) (by linarith)) hclose
  have hfaithful := faithful_div (hasValue_span hspan hn) h.value (by linarith : v ≠ 0)
  have hquotient : (n : ℚ) / v < 2 ^ 54 := by
    have : (n : ℚ) < 2 ^ 53 := by exact_mod_cast hn
    rw [div_lt_iff₀ (by linarith)]
    linarith
  obtain ⟨hdiv, hdvd⟩ := ht.count_eq
  rw [sampleCount_eq_floor hw hnonneg (by linarith), hdiv, hdvd]
  refine (floor_rounded hw hfaithful hnonneg ht.millis_pos ht.small (count_near h ht hclose)).imp_right ?_
  rintro ⟨hwhole, hlt, hless⟩
  refine ⟨hwhole, ?_, hless⟩
  have hp : (0 : ℚ) < p := by exact_mod_cast ht.samples_pos
  push_cast at hlt
  rw [← ht.interval_mul h.rate_pos, div_mul_eq_mul_div, div_lt_iff₀ (by linarith), mul_assoc] at hlt
  refine lt_of_mul_lt_mul_right ?_ hp.le
  rw [mul_comm v]
  exact lt_of_mul_lt_mul_left hlt (Nat.cast_nonneg n)

/-- A sample is at its time on the exact grid, or a millisecond early where that time is a whole millisecond and the
interval was rounded down. -/
theorem sampleTime_cases (h : RoundedInterval r v) (hres : Resolved r n) (hspan : start.toInt + n = stop.toInt)
    (hi : 1000 * i < n * r) :
    ∃ k : ℕ, (sampleTime r.toFloat start i).toInt = start.toInt + k ∧
      (k = 1000 * i / r ∨ r ∣ 1000 * i ∧ v < 1000 / r ∧ k + 1 = 1000 * i / r) := by
  obtain ⟨p, q, ht⟩ := h.lowestTerms hres
  obtain ⟨hv, -⟩ := h.bounds
  have hoffset := ht.offset_lt hi
  have hsmall : q * i < 2 ^ 53 := hoffset.trans ht.small
  obtain ⟨w, hw, hfaithful, hclose⟩ :=
    exists_hasValue_mul_interval h ((Nat.le_mul_of_pos_left i ht.millis_pos).trans_lt hsmall)
  obtain ⟨hnonneg, -⟩ := bounds_of_near (mul_nonneg (Nat.cast_nonneg i) (by linarith)) hclose
  have hcases := floor_rounded hw hfaithful hnonneg ht.samples_pos hsmall (offset_near h ht hoffset.le hclose)
  have hfloor : ⌊w⌋₊ ≤ n := by
    have : q * i / p ≤ n := Nat.div_le_of_le_mul (by rw [Nat.mul_comm p]; exact hoffset.le)
    omega
  obtain ⟨hdiv, hdvd⟩ := ht.time_eq h.rate_pos i
  refine ⟨⌊w⌋₊, toInt_sampleTime hw hnonneg hfloor ht.span_lt hspan, ?_⟩
  rw [hdiv, hdvd]
  refine hcases.imp_right ?_
  rintro ⟨hwhole, hlt, hless⟩
  refine ⟨hwhole, ?_, hless⟩
  have hp : (0 : ℚ) < p := by exact_mod_cast ht.samples_pos
  refine lt_of_mul_lt_mul_right ?_ hp.le
  rw [ht.interval_mul h.rate_pos]
  push_cast at hlt
  rw [mul_assoc, mul_comm (q : ℚ)] at hlt
  exact lt_of_mul_lt_mul_left hlt (Nat.cast_nonneg i)

/-! ## Waveforms -/

variable {gen : Generator}

/-- The times of the samples in a span. -/
def sampleTimes (sampleRate : Float) (start stop : Int64) : List Int64 :=
  (List.range (sampleCount sampleRate start stop)).map (sampleTime sampleRate start)

/-- One more sample, and what is left of the source after it. -/
def record (s : Simulation gen) (waves : Wave × Wave) (start : Int64) (recorded : Array (Int64 × Int32) × gen.State)
    (i : ℕ) : Array (Int64 × Int32) × gen.State :=
  (recorded.1.push (s.sample waves start recorded.2 i).1, (s.sample waves start recorded.2 i).2)

theorem map_fst_record (s : Simulation gen) (waves : Wave × Wave) (start : Int64)
    (recorded : Array (Int64 × Int32) × gen.State) (i : ℕ) :
    (s.record waves start recorded i).1.toList.map (·.1) =
      recorded.1.toList.map (·.1) ++ [sampleTime s.sampleRate start i] := by
  rw [record, Array.toList_push, List.map_append]
  rfl

theorem map_fst_foldl_record (s : Simulation gen) (waves : Wave × Wave) (start : Int64) (indices : List ℕ)
    (recorded : Array (Int64 × Int32) × gen.State) :
    (indices.foldl (s.record waves start) recorded).1.toList.map (·.1) =
      recorded.1.toList.map (·.1) ++ indices.map (sampleTime s.sampleRate start) := by
  induction indices generalizing recorded with
  | nil => rw [List.foldl_nil, List.map_nil, List.append_nil]
  | cons i indices ih =>
    rw [List.foldl_cons, ih, map_fst_record, List.append_assoc, List.singleton_append, List.map_cons]

/-- The times in a waveform depend on the rate and the span only. -/
theorem map_fst_waveform (s : Simulation gen) (station : Station) (q : SyntheticQuake) (start stop : Int64) :
    (s.waveform station q start stop).1.toList.map (·.1) = sampleTimes s.sampleRate start stop :=
  map_fst_foldl_record s (s.waves station q) start (List.range (sampleCount s.sampleRate start stop)) (#[], s.source)

theorem size_waveform (s : Simulation gen) (station : Station) (q : SyntheticQuake) (start stop : Int64) :
    (s.waveform station q start stop).1.size = sampleCount s.sampleRate start stop := by
  rw [← Array.length_toList, ← List.length_map (·.1), map_fst_waveform, sampleTimes, List.length_map, List.length_range]

/-- Times on the grid of a rate, over `n` milliseconds, but for what the rounded interval `v` makes of whole ones. -/
structure OnGrid (r n : ℕ) (v : ℚ) (start : Int64) (times : List Int64) : Prop where
  count : times.length = n * r / 1000 ∨ 1000 ∣ n * r ∧ 1000 / r < v ∧ times.length + 1 = n * r / 1000
  time : ∀ i t, times[i]? = some t → ∃ k : ℕ, t.toInt = start.toInt + k ∧
    (k = 1000 * i / r ∨ r ∣ 1000 * i ∧ v < 1000 / r ∧ k + 1 = 1000 * i / r)
  rising : times.Pairwise (· < ·)
  within : ∀ t ∈ times, start.toInt ≤ t.toInt ∧ t.toInt < start.toInt + n

/-- Where there is a sample, the span is not over yet. -/
theorem lt_of_lt_sampleCount (h : RoundedInterval r v) (hres : Resolved r n) (hspan : start.toInt + n = stop.toInt)
    (hi : i < sampleCount r.toFloat start stop) : 1000 * i < n * r := by
  have hcount : sampleCount r.toFloat start stop ≤ n * r / 1000 := by
    rcases sampleCount_cases h hres hspan with heq | ⟨-, -, hless⟩ <;> omega
  have := Nat.mul_le_of_le_div 1000 (i + 1) (n * r) (by omega)
  omega

/-- Samples come one after the other. -/
theorem sampleTime_lt (h : RoundedInterval r v) (hres : Resolved r n) (hspan : start.toInt + n = stop.toInt) {j : ℕ}
    (hij : i < j) (hj : 1000 * j < n * r) : sampleTime r.toFloat start i < sampleTime r.toFloat start j := by
  obtain ⟨k, hk, hcases⟩ := sampleTime_cases h hres hspan (i := i) (by omega)
  obtain ⟨l, hl, hcases'⟩ := sampleTime_cases h hres hspan hj
  have hle : k ≤ 1000 * i / r := by
    rcases hcases with heq | ⟨-, -, hless⟩ <;> omega
  have hr := h.rate_pos
  have hr' := h.rate_le
  have hnext : (1000 * i + r) / r = 1000 * i / r + 1 := Nat.add_div_right _ hr
  have hkl : k < l := by
    rcases hcases' with heq | ⟨hdvd, hdown, hless⟩
    · have := Nat.div_le_div_right (c := r) (show 1000 * i + r ≤ 1000 * j by omega)
      omega
    · -- an interval that was rounded is longer than a millisecond
      have hne : r ≠ 1000 := by
        rintro rfl
        exact absurd (h.exact (by decide)) hdown.ne
      have := Nat.div_lt_div_of_lt_of_dvd hdvd (show 1000 * i + r < 1000 * j by omega)
      omega
  rw [Int64.lt_iff_toInt_lt, hk, hl]
  omega

theorem onGrid_sampleTimes (h : RoundedInterval r v) (hres : Resolved r n) (hspan : start.toInt + n = stop.toInt) :
    OnGrid r n v start (sampleTimes r.toFloat start stop) where
  count := by
    rw [sampleTimes, List.length_map, List.length_range]
    exact sampleCount_cases h hres hspan
  time i t ht := by
    obtain ⟨hi, rfl⟩ := List.getElem?_eq_some_iff.mp ht
    rw [sampleTimes, List.length_map, List.length_range] at hi
    simp only [sampleTimes, List.getElem_map, List.getElem_range]
    exact sampleTime_cases h hres hspan (lt_of_lt_sampleCount h hres hspan hi)
  rising := by
    rw [sampleTimes, List.pairwise_map]
    refine List.pairwise_lt_range.imp_of_mem fun {i j} _ hj hij => ?_
    exact sampleTime_lt h hres hspan hij
      (lt_of_lt_sampleCount h hres hspan (List.mem_range.mp hj))
  within t ht := by
    obtain ⟨i, hi, rfl⟩ := List.mem_map.mp ht
    have hlt := lt_of_lt_sampleCount h hres hspan (List.mem_range.mp hi)
    obtain ⟨k, hk, hcases⟩ := sampleTime_cases h hres hspan hlt
    have hbefore : 1000 * i / r < n := Nat.div_lt_of_lt_mul (by rwa [Nat.mul_comm r])
    rw [hk]
    rcases hcases with heq | ⟨-, -, hless⟩ <;> omega

/-! ## Chunks -/

/-- What a station records in consecutive chunks, each with the simulation as it is by then. -/
def recordChunks (station : Station) (q : SyntheticQuake) : Int64 → List (Simulation gen × Int64) → List (Int64 × Int32)
  | _, [] => []
  | start, (s, stop) :: chunks =>
    (s.waveform station q start stop).1.toList ++ recordChunks station q stop chunks

/-- Chunks of `n` milliseconds in all, up to `stop`, each of which spans a whole number of exact intervals. -/
inductive WholeChunks (r : ℕ) (stop : Int64) : Int64 → List (Simulation gen × Int64) → ℕ → Prop
  | nil : WholeChunks r stop stop [] 0
  | cons {start next : Int64} {s : Simulation gen} {chunks : List (Simulation gen × Int64)} {m n : ℕ}
      (hrate : s.sampleRate = r.toFloat) (hspan : start.toInt + m = next.toInt) (hwhole : 1000 ∣ m * r)
      (hrest : WholeChunks r stop next chunks n) : WholeChunks r stop start ((s, next) :: chunks) (m + n)

theorem Resolved.mono {m : ℕ} (h : Resolved r n) (hle : m ≤ n) : Resolved r m :=
  (Nat.mul_le_mul_right _ hle).trans_lt h

theorem WholeChunks.span {chunks : List (Simulation gen × Int64)} (h : WholeChunks r stop start chunks n) :
    start.toInt + n = stop.toInt := by
  induction h with
  | nil => omega
  | cons _ hspan _ _ ih => omega

/-- The times on the exact grid. -/
def gridTimes (r n : ℕ) (start : Int64) : List Int :=
  (List.range (n * r / 1000)).map fun i => start.toInt + (1000 * i / r : ℕ)

/-- With an exact interval, the times are those on the exact grid. -/
theorem sampleTimes_exact (h : RoundedInterval r v) (hexact : v = 1000 / r) (hres : Resolved r n)
    (hspan : start.toInt + n = stop.toInt) :
    (sampleTimes r.toFloat start stop).map Int64.toInt = gridTimes r n start := by
  have hcount : sampleCount r.toFloat start stop = n * r / 1000 := by
    rcases sampleCount_cases h hres hspan with heq | ⟨-, hup, -⟩
    · exact heq
    · exact absurd hexact hup.ne'
  rw [sampleTimes, hcount, List.map_map, gridTimes]
  refine List.map_congr_left fun i hi => ?_
  have hi := lt_of_lt_sampleCount h hres hspan (hcount ▸ List.mem_range.mp hi)
  obtain ⟨k, hk, hcases⟩ := sampleTime_cases h hres hspan hi
  rcases hcases with rfl | ⟨-, hdown, -⟩
  · exact hk
  · exact absurd hexact hdown.ne

/-- After a whole number of intervals, the grid starts over. -/
theorem gridTimes_add {m : ℕ} {next : Int64} (hr : 1 ≤ r) (hwhole : 1000 ∣ m * r)
    (hspan : start.toInt + m = next.toInt) : gridTimes r (m + n) start = gridTimes r m start ++ gridTimes r n next := by
  obtain ⟨c, hc⟩ := hwhole
  have hlength : (m + n) * r / 1000 = m * r / 1000 + n * r / 1000 := by
    rw [Nat.add_mul, hc]
    omega
  rw [gridTimes, hlength, List.range_add, List.map_append, List.map_map]
  refine congrArg _ (List.map_congr_left fun i _ => ?_)
  have hindex : 1000 * (m * r / 1000 + i) / r = m + 1000 * i / r := by
    rw [Nat.mul_add, Nat.mul_div_cancel' ⟨c, hc⟩, Nat.add_comm, Nat.add_mul_div_right _ _ hr, Nat.add_comm]
  show start.toInt + ((1000 * (m * r / 1000 + i) / r : ℕ) : Int) = next.toInt + (1000 * i / r : ℕ)
  rw [hindex, ← hspan]
  push_cast
  ring

/-- With an exact interval, chunks have the times of the whole span. -/
theorem recordChunks_exact {chunks : List (Simulation gen × Int64)} (h : RoundedInterval r v) (hexact : v = 1000 / r)
    (hchunks : WholeChunks r stop start chunks n) (hres : Resolved r n) (station : Station) (q : SyntheticQuake) :
    ((recordChunks station q start chunks).map (·.1)).map Int64.toInt = gridTimes r n start := by
  induction hchunks with
  | nil => rw [gridTimes, Nat.zero_mul]; rfl
  | @cons start next s chunks m n hrate hspan hwhole hrest ih =>
    have hfirst := sampleTimes_exact h hexact (hres.mono (Nat.le_add_right m n)) hspan
    rw [recordChunks, List.map_append, map_fst_waveform, hrate, List.map_append, hfirst,
      ih (hres.mono (Nat.le_add_left n m)), gridTimes_add h.rate_pos hwhole hspan]

/-- With an interval that is not rounded up, no chunk misses a sample; with any interval, no chunk misses two. -/
theorem length_recordChunks {chunks : List (Simulation gen × Int64)} (h : RoundedInterval r v)
    (hchunks : WholeChunks r stop start chunks n) (hres : Resolved r n) (station : Station) (q : SyntheticQuake) :
    (v ≤ 1000 / r → (recordChunks station q start chunks).length = n * r / 1000) ∧
      (recordChunks station q start chunks).length ≤ n * r / 1000 ∧
      n * r / 1000 ≤ (recordChunks station q start chunks).length + chunks.length := by
  induction hchunks with
  | nil => simp [recordChunks]
  | @cons start next s chunks m n hrate hspan hwhole hrest ih =>
    obtain ⟨hnone, hle, hge⟩ := ih (hres.mono (Nat.le_add_left n m))
    have hfirst := sampleCount_cases h (hres.mono (Nat.le_add_right m n)) hspan
    have hsplit : (m + n) * r / 1000 = m * r / 1000 + n * r / 1000 := by
      obtain ⟨c, hc⟩ := hwhole
      rw [Nat.add_mul, hc]
      omega
    rw [recordChunks, List.length_append, Array.length_toList, size_waveform, hrate, List.length_cons, hsplit]
    refine ⟨fun hup => ?_, ?_, ?_⟩
    · rcases hfirst with heq | ⟨-, hlt, -⟩
      · rw [heq, hnone hup]
      · exact absurd hup (not_le.mpr hlt)
    all_goals rcases hfirst with heq | ⟨-, -, hless⟩ <;> omega

/-! ## The grid -/

/-- Every whole rate from 1 to 1000 Hz is sampled on its exact grid, in order and within the span, except that the last
sample is missing where the span ends on the grid and the interval `1000 / r` was rounded up, and that a sample which is
due at a whole millisecond comes one too early where the interval was rounded down. Chunks of whole intervals have the
times of the whole span where the interval is exact, and as many where it is not rounded up. -/
theorem waveform_grid (hr : 1 ≤ r) (hr' : r ≤ 1000) : ∃ v : ℚ, RoundedInterval r v ∧
    (∀ (gen : Generator) (s : Simulation gen) (station : Station) (q : SyntheticQuake) (start stop : Int64) (n : ℕ),
      s.sampleRate = r.toFloat → start.toInt + n = stop.toInt → Resolved r n →
        OnGrid r n v start ((s.waveform station q start stop).1.toList.map (·.1))) ∧
    ∀ (gen : Generator) (s : Simulation gen) (station : Station) (q : SyntheticQuake) (start stop : Int64) (n : ℕ)
      (chunks : List (Simulation gen × Int64)),
      s.sampleRate = r.toFloat → WholeChunks r stop start chunks n → Resolved r n →
        (r ∣ 512000 → (recordChunks station q start chunks).map (·.1) =
          (s.waveform station q start stop).1.toList.map (·.1)) ∧
        (v ≤ 1000 / r → (recordChunks station q start chunks).length = (s.waveform station q start stop).1.size) ∧
        n * r / 1000 ≤ (recordChunks station q start chunks).length + chunks.length := by
  obtain ⟨v, h⟩ := exists_roundedInterval hr hr'
  refine ⟨v, h, fun gen s station q start stop n hrate hspan hres => ?_,
    fun gen s station q start stop n chunks hrate hchunks hres => ?_⟩
  · rw [map_fst_waveform, hrate]
    exact onGrid_sampleTimes h hres hspan
  · obtain ⟨hcount, -, hge⟩ := length_recordChunks h hchunks hres station q
    refine ⟨fun hdvd => ?_, fun hup => ?_, hge⟩
    · have hchunked := recordChunks_exact h (h.exact hdvd) hchunks hres station q
      rw [← sampleTimes_exact h (h.exact hdvd) hres hchunks.span, ← hrate,
        ← map_fst_waveform s station q] at hchunked
      exact List.map_injective_iff.mpr (fun a b => Int64.toInt_inj.mp) hchunked
    · rw [hcount hup, size_waveform, hrate]
      rcases sampleCount_cases h hres hchunks.span with heq | ⟨-, hlt, -⟩
      · exact heq.symm
      · exact absurd hup (not_le.mpr hlt)

/-- The simulation of a scenario with a rate. -/
def atRate (rate : Float) : Simulation Random.generator :=
  create Random.generator .sphere (UniformSphere.travelTimes {}) { sampleRate := rate }

theorem sampleRate_create (gen : Generator) (g : Geodesy) (t : TravelTimes) (c : PlaygroundConfig) :
    (create gen g t c).sampleRate = c.sampleRate := rfl

theorem sampleRate_atRate (rate : Float) : (atRate rate).sampleRate = rate := sampleRate_create _ _ _ _

/-- A station in the middle of the network. -/
def middle : Station := { id := ⟨0⟩, network := "SY", code := "S000", place := ⟨35.0, 139.0⟩, elevation := 0.0 }

/-- With the rate of the default scenario, two chunks of a second have the times of two seconds. -/
theorem waveform_grid_default : (1 ≤ 20 ∧ 20 ≤ 1000) ∧
    (recordChunks middle (SyntheticQuake.ofConfig {} 0) 0 [(atRate 20.0, 1000), (atRate 20.0, 2000)]).map (·.1) =
      ((atRate 20.0).waveform middle (SyntheticQuake.ofConfig {} 0) 0 2000).1.toList.map (·.1) := by
  obtain ⟨v, -, -, hchunks⟩ := waveform_grid (r := 20) (by decide) (by decide)
  have hrate : (atRate 20.0).sampleRate = (20 : ℕ).toFloat := sampleRate_atRate 20.0
  have hfirst : (0 : Int64).toInt + (1000 : ℕ) = (1000 : Int64).toInt := by decide
  have hsecond : (1000 : Int64).toInt + (1000 : ℕ) = (2000 : Int64).toInt := by decide
  have hwhole : WholeChunks 20 2000 0 [(atRate 20.0, 1000), (atRate 20.0, 2000)] 2000 :=
    .cons hrate hfirst (by decide) (.cons hrate hsecond (by decide) .nil)
  exact ⟨by decide, (hchunks _ _ _ _ _ _ _ _ hrate hwhole (by decide)).1 (by decide)⟩

/-- At 15 Hz, each of two chunks of a second misses its last sample, and so do the two seconds at once; at 3 Hz, the
sample at 65 seconds comes a millisecond early. -/
theorem waveform_misses_sample :
    (recordChunks middle (SyntheticQuake.ofConfig {} 0) 0 [(atRate 15.0, 1000), (atRate 15.0, 2000)]).length = 28 ∧
      ((atRate 15.0).waveform middle (SyntheticQuake.ofConfig {} 0) 0 2000).1.size = 29 ∧ 2000 * 15 / 1000 = 30 ∧
      (((atRate 3.0).waveform middle (SyntheticQuake.ofConfig {} 0) 0 66000).1.toList.map (·.1))[195]? = some 64999 ∧
      1000 * 195 / 3 = 65000 := by
  have hfirst : sampleCount 15.0 0 1000 = 14 := by decide
  have hsecond : sampleCount 15.0 1000 2000 = 14 := by decide
  have hboth : sampleCount 15.0 0 2000 = 29 := by decide
  have hthird : sampleCount 3.0 0 66000 = 198 := by decide
  have hearly : sampleTime 3.0 0 195 = 64999 := by decide
  refine ⟨?_, ?_, by decide, ?_, by decide⟩
  · rw [recordChunks, recordChunks, recordChunks, List.length_append, List.length_append, Array.length_toList,
      Array.length_toList, size_waveform, size_waveform, sampleRate_atRate, hfirst, hsecond]
    rfl
  · rw [size_waveform, sampleRate_atRate, hboth]
  · rw [map_fst_waveform, sampleRate_atRate, sampleTimes, List.getElem?_map, hthird, List.getElem?_range (by decide),
      Option.map_some, hearly]

end Simulation
end Tremor
