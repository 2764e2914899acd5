import Mathlib.Tactic.Linarith
import Mathlib.Tactic.Positivity
import Mathlib.Tactic.Ring
import Tremor.Proofs.ServerRing

/-!
# The sample clock of a ring

The smoothed interval of a ring moves towards each gap by a share of the difference, as long as the gap is near the
nominal one. Read exactly, that is a weighted mean, as long as the share is at most one, so the interval stays as near
the nominal one as the gaps that move it. It is then positive, and the times of the samples rise to the newest time.

The share is `1 / (200 * rate)`. Below a rate of 1/200 it is more than one: the interval then overshoots the gaps, and
can end up below zero.

- `slotCount_eq_ok_iff` : the exact rates and lengths that a ring can be made for
- `Steady` : what holds of every ring at an exact rate that is not too low
- `Steady.smoothed` : one gap leaves the interval near the nominal one
- `steady_kept` : no change of a ring loses it
- `timeBehind_le` : with a positive interval, times do not rise backwards
- `clock_steady` : the intervals and times of all rings of a session
- `slow_clock_runs_backwards` : an interval below zero at a rate of 1/1000
-/

namespace Tremor.Ring

/-! ## Exact arithmetic -/

theorem nominalGap_eq (sampleRate : Rat) : nominalGap sampleRate = 1000 / sampleRate := rfl

theorem gapTolerance_eq : (gapTolerance : Rat) = 1 / 20 := by
  norm_num [gapTolerance]

theorem abs_eq (q : Rat) : Scalar.abs q = |q| := by
  change (if q < 0 then -q else q) = |q|
  split
  · exact (abs_of_neg ‹_›).symm
  · exact (abs_of_nonneg (not_lt.mp ‹_›)).symm

variable {r : Ring Rat}

/-- A gap that is near the nominal one moves the interval by a share of the difference. -/
theorem smoothed_eq (r : Ring Rat) (gap : Rat) :
    r.smoothed gap =
      if |gap - 1000 / r.sampleRate| / (1000 / r.sampleRate) < 1 / 20 then
        r.interval - (r.interval - gap) / (r.sampleRate * 200)
      else r.interval := by
  rw [← abs_eq, ← gapTolerance_eq]
  rfl

/-- The slots for an exact length are counted up to the next whole one; there must be some, but not too many, and a
positive rate. -/
theorem slotCount_eq_ok_iff {sampleRate seconds : Rat} {n : Nat} :
    slotCount sampleRate seconds = .ok n ↔
      0 < sampleRate ∧ 0 < n ∧ (seconds * sampleRate).ceil = n ∧ n ≤ maxSlots := by
  have hlt : Scalar.ceil (seconds * sampleRate) < 1 ↔ (seconds * sampleRate).ceil < 1 := by
    change ((seconds * sampleRate).ceil : Rat) < 1 ↔ _
    exact_mod_cast Iff.rfl
  have hcount : Scalar.truncateNat (Scalar.ceil (seconds * sampleRate)) = (seconds * sampleRate).ceil.toNat := by
    change (((seconds * sampleRate).ceil : Rat).num.tdiv ((seconds * sampleRate).ceil : Rat).den).toNat = _
    rw [Rat.num_intCast, Rat.den_intCast, Nat.cast_one, Int.tdiv_one]
  unfold slotCount
  simp only
  split
  · rename_i h
    refine iff_of_false nofun fun ⟨hrate, hn, hceil, _⟩ => ?_
    rcases h with h | h | h
    · exact h rfl
    · have := hlt.mp h
      omega
    · exact absurd hrate (not_lt.mpr h)
  · rename_i h
    simp only [not_or, hlt] at h
    obtain ⟨-, hslots, hrate⟩ := h
    rw [hcount]
    constructor
    · intro hok
      split at hok
      · cases hok
        exact ⟨not_le.mp hrate, by omega, by omega, ‹_›⟩
      · cases hok
    · rintro ⟨-, -, hceil, hmax⟩
      rw [hceil, Int.toNat_natCast, if_pos hmax]

theorem create_of_slotCount {sampleRate seconds : Rat} {n : Nat} (server : Bool)
    (h : slotCount sampleRate seconds = .ok n) :
    create sampleRate seconds server = .ok (empty sampleRate server n) := by
  rw [create, h]
  rfl

/-- A ring that was made has a positive rate, is empty and has slots. -/
theorem exists_empty_of_create {sampleRate seconds : Rat} {server : Bool}
    (h : create sampleRate seconds server = .ok r) : 0 < sampleRate ∧ ∃ n, 0 < n ∧ r = empty sampleRate server n := by
  unfold create at h
  cases hc : slotCount sampleRate seconds with
  | error e =>
    rw [hc] at h
    cases h
  | ok n =>
    rw [hc] at h
    cases h
    obtain ⟨hpos, hn, -⟩ := slotCount_eq_ok_iff.mp hc
    exact ⟨hpos, n, hn, rfl⟩

/-- A ring that was resized has slots. -/
theorem exists_withSize_of_resize {r' : Ring Rat} {seconds : Rat} (h : r.resize seconds = .ok r') :
    ∃ n, 0 < n ∧ r' = r.withSize n := by
  unfold Ring.resize at h
  cases hc : slotCount r.sampleRate seconds with
  | error e =>
    rw [hc] at h
    cases h
  | ok n =>
    rw [hc] at h
    cases h
    exact ⟨n, (slotCount_eq_ok_iff.mp hc).2.1, rfl⟩

/-! ## The interval -/

variable {sampleRate : Rat}

/-- The slots of a ring are in place, and its interval differs from the nominal one by less than the tolerance. -/
structure Steady (sampleRate : Rat) (r : Ring Rat) : Prop where
  sound : r.Sound
  rate : r.sampleRate = sampleRate
  near : |r.interval - nominalGap sampleRate| < nominalGap sampleRate / 20

theorem nominalGap_pos (hrate : 1 / 200 ≤ sampleRate) : 0 < nominalGap sampleRate :=
  div_pos (by norm_num) (by linarith)

theorem steady_create {seconds : Rat} {server : Bool} (h : create sampleRate seconds server = .ok r) :
    r.Steady sampleRate := by
  obtain ⟨hpos, n, hn, rfl⟩ := exists_empty_of_create h
  refine ⟨sound_empty sampleRate server hn, rfl, ?_⟩
  simp only [empty]
  rw [sub_self, abs_zero, nominalGap_eq]
  positivity

namespace Steady

theorem interval_pos (h : r.Steady sampleRate) : 0 < r.interval := by
  have := (abs_lt.mp h.near).1
  have := (abs_nonneg _).trans_lt h.near
  linarith

/-- The new interval is a weighted mean of the old one and the gap, and both are near the nominal one. -/
theorem smoothed (h : r.Steady sampleRate) (hrate : 1 / 200 ≤ sampleRate) (gap : Rat) :
    |r.smoothed gap - nominalGap sampleRate| < nominalGap sampleRate / 20 := by
  rw [smoothed_eq, h.rate, ← nominalGap_eq]
  split
  · rename_i hgap
    rw [div_lt_iff₀ (nominalGap_pos hrate)] at hgap
    -- the share that the interval moves by is at most one, because the rate is at least 1/200
    obtain ⟨share, hshare⟩ : ∃ share, share = (sampleRate * 200)⁻¹ := ⟨_, rfl⟩
    have hpos : 0 < share := hshare ▸ inv_pos.mpr (by linarith)
    have hle : share ≤ 1 := hshare ▸ inv_le_one_of_one_le₀ (by linarith)
    have hmean : r.interval - (r.interval - gap) / (sampleRate * 200) - nominalGap sampleRate =
        (1 - share) * (r.interval - nominalGap sampleRate) + share * (gap - nominalGap sampleRate) := by
      rw [div_eq_mul_inv, ← hshare]
      ring
    obtain ⟨hl, hu⟩ := abs_lt.mp h.near
    obtain ⟨hl', hu'⟩ := abs_lt.mp hgap
    rw [hmean, abs_lt]
    constructor <;> nlinarith
  · exact h.near

theorem store (h : r.Steady sampleRate) (hrate : 1 / 200 ≤ sampleRate) (time : Int64) (signal : Signal)
    (ratios : Ratios) : (r.store time signal ratios).Steady sampleRate where
  sound := h.sound.store time signal ratios
  rate := h.rate
  near := by
    simp only [Ring.store]
    split
    · exact h.smoothed hrate _
    · exact h.near

theorem withSize (h : r.Steady sampleRate) {n : Nat} (hn : 0 < n) : (r.withSize n).Steady sampleRate :=
  ⟨sound_withSize r hn, h.rate, h.near⟩

end Steady

/-- No change of a ring moves the interval away from the nominal one. -/
theorem steady_kept (hrate : 1 / 200 ≤ sampleRate) : Kept (Steady sampleRate) where
  create h hc := by
    rw [h.rate] at hc
    exact steady_create hc
  push time signal ratios expand h := by
    unfold Ring.push
    split
    · exact h
    · split
      · exact (h.withSize (Nat.mul_pos h.sound.size_pos Nat.two_pos)).store hrate time signal ratios
      · exact h.store hrate time signal ratios
  resize {r r' seconds} h hr := by
    obtain ⟨n, hn, rfl⟩ := exists_withSize_of_resize hr
    exact h.withSize hn

/-! ## Times -/

theorem ofIntClamp_mono {x y : Int} (h : x ≤ y) : Int64.ofIntClamp x ≤ Int64.ofIntClamp y := by
  unfold Int64.ofIntClamp
  by_cases hx : Int64.minValue.toInt ≤ x
  · rw [dif_pos hx, dif_pos (Int.le_trans hx h)]
    by_cases hy : y ≤ Int64.maxValue.toInt
    · rw [dif_pos (Int.le_trans h hy), dif_pos hy]
      exact (Int64.ofIntLE_le_iff_le ..).mpr h
    · rw [dif_neg hy]
      exact Int64.le_maxValue _
  · rw [dif_neg hx]
    exact Int64.minValue_le _

theorem saturatingSub_anti (a : Int64) {b c : Int64} (h : b ≤ c) : saturatingSub a c ≤ saturatingSub a b :=
  ofIntClamp_mono (Int.sub_le_sub_left (Int64.le_iff_toInt_le.mp h) _)

theorem truncate_eq {q : Rat} (h : 0 ≤ q) : Scalar.truncate q = Int64.ofIntClamp q.floor := by
  change Int64.ofIntClamp (q.num.tdiv q.den) = _
  rw [Int.tdiv_eq_ediv_of_nonneg (Rat.num_nonneg.mpr h), Rat.floor_def]

/-- With a positive interval, samples with more newer ones are not later. -/
theorem timeBehind_le (h : 0 < r.interval) {a b : Int} (ha : 0 ≤ a) (hab : a ≤ b) (hb : b < 2 ^ 63) :
    r.timeBehind b ≤ r.timeBehind a := by
  have htoInt : ∀ k : Int, 0 ≤ k → k ≤ b → (Scalar.ofInt64 (Int64.ofInt k) : Rat) = k := fun k hk hkb => by
    change ((Int64.ofInt k).toInt : Rat) = k
    rw [Int64.toInt_ofInt_of_le (by omega) (by omega)]
  have hab' : r.interval * (a : Rat) ≤ r.interval * (b : Rat) :=
    mul_le_mul_of_nonneg_left (Int.cast_le.mpr hab) (le_of_lt h)
  have hpos : 0 ≤ r.interval * (a : Rat) := mul_nonneg (le_of_lt h) (Int.cast_nonneg ha)
  refine saturatingSub_anti r.clock ?_
  rw [htoInt a ha hab, htoInt b (by omega) (Int.le_refl b)]
  change Scalar.truncate (r.interval * (a : Rat)) ≤ Scalar.truncate (r.interval * (b : Rat))
  rw [truncate_eq hpos, truncate_eq (hpos.trans hab')]
  exact ofIntClamp_mono (Rat.floor_monotone hab')

theorem timeBehind_zero (r : Ring Rat) : r.timeBehind 0 = r.clock := by
  have hoffset : r.interval * (Scalar.ofInt64 (Int64.ofInt 0) : Rat) = (0 : Int) := by
    change r.interval * ((0 : Int) : Rat) = _
    rw [Int.cast_zero, mul_zero]
  rw [timeBehind, hoffset, truncate_eq (Int.cast_nonneg (Int.le_refl 0)), Rat.floor_intCast, saturatingSub]
  exact (congrArg Int64.ofIntClamp (Int.sub_zero _)).trans (Int64.ofIntClamp_toInt _)

/-- What is expected of the clock of a ring: an interval near the nominal one, and times that rise to the newest one. The
number of samples is bounded because they are counted in `Int64`. -/
structure Timed (sampleRate : Rat) (r : Ring Rat) : Prop where
  near : |r.interval - 1000 / sampleRate| < 1000 / sampleRate / 20
  interval_pos : 0 < r.interval
  rising : r.len ≤ 2 ^ 63 → (r.heldSlots.map r.time).Pairwise (· ≤ ·)
  newest : (r.heldSlots.map r.time).getLast? = r.latest

theorem Steady.timed (h : r.Steady sampleRate) : r.Timed sampleRate where
  near := h.near
  interval_pos := h.interval_pos
  rising := by
    intro hlen
    rw [h.sound.times_eq, List.pairwise_map]
    refine List.pairwise_lt_range.imp_of_mem fun {i j} hi hj hij => ?_
    have hi := List.mem_range.mp hi
    have hj := List.mem_range.mp hj
    exact timeBehind_le h.interval_pos (by omega) (by omega) (by omega)
  newest := by
    rw [h.sound.times_eq, List.getLast?_map, List.getLast?_range]
    have hpos := h.sound.size_pos
    rcases len_cases h.sound with ⟨hl, -, hlen⟩ | ⟨hl, hlen⟩
    · rw [if_pos hlen, hl]
      rfl
    · have ho := h.sound.oldest_lt
      obtain ⟨t, ht⟩ := Option.isSome_iff_exists.mp hl
      have hlast : (r.len : Int) - 1 - (r.len - 1 : Nat) = 0 := by omega
      rw [if_neg (by omega), Option.map_some, hlast, timeBehind_zero, clock, ht, Option.getD_some]

/-- At every rate from 1/200 on, whatever is asked of a ring, one thing after another: the ring and all that are extracted
have an interval within a twentieth of the nominal one, and times that rise to the newest one. -/
theorem clock_steady {seconds : Rat} {server : Bool} (h : create sampleRate seconds server = .ok r)
    (hrate : 1 / 200 ≤ sampleRate) (qs : List (Request Rat)) :
    r.Timed sampleRate ∧ ∀ step ∈ r.session qs,
      step.2.Timed sampleRate ∧ ∀ r', step.1 = .ok (.ring r') → r'.Timed sampleRate := by
  have hr := steady_create h
  refine ⟨hr.timed, fun step hs => ?_⟩
  obtain ⟨hstep, hring⟩ := (steady_kept hrate).session hr qs step hs
  exact ⟨hstep.timed, fun r' ha => (hring r' ha).timed⟩

/-- A sample without content at a time. -/
def Request.tick (time : Int64) : Request Rat := .log time ⟨0, 0⟩ ⟨1, 1, 1, 1⟩ false

/-- A ring at a rate of 1/200, and gaps that are near the nominal one of 200 s. -/
theorem slow_clock_steady :
    ∃ r : Ring Rat, create (1 / 200) 2000 false = .ok r ∧ (1 / 200 : Rat) ≤ 1 / 200 ∧ r.Timed (1 / 200) ∧
      ∀ step ∈ r.session [.tick 0, .tick 208000, .resize 1000, .extract 0 208000 true, .tick 399000],
        step.2.Timed (1 / 200) := by
  have hr : create (1 / 200) 2000 false = .ok (empty (1 / 200 : Rat) false 10) :=
    create_of_slotCount false (slotCount_eq_ok_iff.mpr ⟨by norm_num, by decide, by decide +kernel, by decide⟩)
  have hrate : (1 / 200 : Rat) ≤ 1 / 200 := le_refl _
  obtain ⟨hstart, hsteps⟩ :=
    clock_steady hr hrate [.tick 0, .tick 208000, .resize 1000, .extract 0 208000 true, .tick 399000]
  exact ⟨_, hr, hrate, hstart, fun step hs => (hsteps step hs).1⟩

/-- At a rate of 1/1000 the interval overshoots: two gaps that are near the nominal one of 1000 s leave it below zero, and
the times of the samples fall. -/
theorem slow_clock_runs_backwards :
    ∃ r : Ring Rat, create (1 / 1000) 10000 false = .ok r ∧
      ∃ step ∈ r.session [.tick 0, .tick 1040000, .tick 1995000],
        step.2.interval = -25000 ∧ step.2.heldSlots.map step.2.time = [2045000, 2020000, 1995000] ∧
          ¬ step.2.Timed (1 / 1000) := by
  have hr : create (1 / 1000) 10000 false = .ok (empty (1 / 1000 : Rat) false 10) :=
    create_of_slotCount false (slotCount_eq_ok_iff.mpr ⟨by norm_num, by decide, by decide +kernel, by decide⟩)
  have hrun : ∃ step ∈ (empty (1 / 1000 : Rat) false 10).session [.tick 0, .tick 1040000, .tick 1995000],
      step.2.interval = -25000 ∧ step.2.heldSlots.map step.2.time = [2045000, 2020000, 1995000] := by
    decide +kernel
  obtain ⟨step, hs, hinterval, htimes⟩ := hrun
  refine ⟨_, hr, step, hs, hinterval, htimes, fun ht => ?_⟩
  have := ht.interval_pos
  rw [hinterval] at this
  exact absurd this (by norm_num)

end Tremor.Ring
