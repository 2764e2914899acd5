import Mathlib.Algebra.Order.Floor.Semifield
import Tremor.Cluster.Pass
import Tremor.Proofs.RelativeError

/-!
# A fifth more picks

The number of picks for the next report is a product of doubles. A cluster has one detection for each station, so its
picks are few enough for this product to have the same whole part as the exact one.

- `length_assigned_le` : how many detections a cluster can have
- `exists_hasValue_mul_growth` : the product of doubles lies above the same whole number
- `nextReportAfter_eq` : a fifth more, rounded down
- `lt_nextReportAfter` : which is more
-/

namespace Tremor.Cluster

open Number

/-! ## Stations -/

/-- There are no more detections than numbers of stations. -/
theorem length_assigned_le (c : Cluster) : c.assigned.length ≤ 2 ^ 32 := by
  have hnumbers : (c.assigned.map fun d => d.station.number.toNat).Nodup := by
    have hinj : Function.Injective fun id : StationId => id.number.toNat := fun ⟨a⟩ ⟨b⟩ h =>
      congrArg StationId.mk (UInt32.toNat_inj.mp h)
    have hmap := c.distinct.map hinj
    rw [List.map_map] at hmap
    exact hmap
  have hsub : (c.assigned.map fun d => d.station.number.toNat) ⊆ List.range (2 ^ 32) := by
    intro n hn
    obtain ⟨d, -, rfl⟩ := List.mem_map.mp hn
    exact List.mem_range.mpr d.station.number.toNat_lt
  have hle := (List.subperm_of_subset hnumbers hsub).length_le
  rwa [List.length_map, List.length_range] at hle

/-! ## The product -/

/-- The growth from one report to the next, as it is rounded to a double. -/
theorem hasValue_growth : HasValue backoffGrowth (6 / 5 - 1 / 5 / 2 ^ 52) := by
  have hunpack : backoffGrowth.toModel.unpack = .finite .positive 5404319552844595 (-52) (by decide) := rfl
  convert hasValue_of_unpack hunpack using 1
  norm_num [signed]

/-- A multiple of five is rounded back to a fifth more. -/
theorem hasValue_mul_growth_of_dvd {n : ℕ} (hpos : 0 < n) (hn : n < 2 ^ 39) (hdvd : 5 ∣ n) :
    HasValue (n.toFloat * backoffGrowth) (n * 6 / 5 : ℕ) := by
  have hlt : (n : ℚ) < 2 ^ 39 := by exact_mod_cast hn
  have hpos' : (0 : ℚ) < n := by exact_mod_cast hpos
  have hsmall : 0 < n * 6 / 5 ∧ n * 6 / 5 < 0x20000000000000 := by omega
  have hnext : (n : ℚ) * (6 / 5) = (n * 6 / 5 : ℕ) := by
    have hsplit : 5 * (n * 6 / 5) = n * 6 := Nat.mul_div_cancel' (hdvd.mul_right 6)
    have hsplit : 5 * ((n * 6 / 5 : ℕ) : ℚ) = n * 6 := by exact_mod_cast hsplit
    linarith
  refine hasValue_mul_whole (hasValue_toFloat (by omega)) hasValue_growth hpos' (by norm_num) hsmall.1 hsmall.2 ?_
  rw [← hnext, abs_lt]
  constructor <;> linarith

/-- A fifth more in doubles has the same whole part: the growth is rounded down, but so little that only a number with a
fifth that is whole could be that close to the next whole one. -/
theorem exists_hasValue_mul_growth {n : ℕ} (hpos : 0 < n) (hn : n < 2 ^ 39) :
    ∃ w, HasValue (n.toFloat * backoffGrowth) w ∧ ((n * 6 / 5 : ℕ) : ℚ) ≤ w ∧ w < (n * 6 / 5 : ℕ) + 1 := by
  by_cases hdvd : 5 ∣ n
  · exact ⟨_, hasValue_mul_growth_of_dvd hpos hn hdvd, le_refl _, lt_add_one _⟩
  · have hlt : (n : ℚ) < 2 ^ 39 := by exact_mod_cast hn
    have hpos' : (0 : ℚ) < n := by exact_mod_cast hpos
    have hcount : HasValue n.toFloat n := hasValue_toFloat (by omega)
    obtain ⟨w, hw, hnear⟩ := (faithful_mul hcount hasValue_growth).near (by
      rw [abs_of_nonneg (mul_nonneg hpos'.le (by norm_num))]
      linarith)
    obtain ⟨hlow, hhigh⟩ := abs_lt.mp hnear
    have hsplit : (n * 6 : ℚ) = 5 * (n * 6 / 5 : ℕ) + (n * 6 % 5 : ℕ) := by
      exact_mod_cast (Nat.div_add_mod (n * 6) 5).symm
    have hrest : (1 : ℚ) ≤ (n * 6 % 5 : ℕ) := by exact_mod_cast (show 1 ≤ n * 6 % 5 by omega)
    have hrest' : ((n * 6 % 5 : ℕ) : ℚ) ≤ 4 := by exact_mod_cast (show n * 6 % 5 ≤ 4 by omega)
    exact ⟨w, hw, by linarith, by linarith⟩

/-! ## The next report -/

/-- A fifth more picks, rounded down. -/
theorem nextReportAfter_eq {n : ℕ} (hn : n < 2 ^ 39) : nextReportAfter n = n * 6 / 5 := by
  rcases Nat.eq_zero_or_pos n with rfl | hpos
  · rfl
  obtain ⟨w, hw, hlow, hhigh⟩ := exists_hasValue_mul_growth hpos hn
  have hnonneg : 0 ≤ w := le_trans (Nat.cast_nonneg _) hlow
  have hbound : ((n * 6 / 5 : ℕ) : ℚ) + 1 ≤ 2 ^ 64 := by
    exact_mod_cast (show n * 6 / 5 + 1 ≤ 2 ^ 64 by omega)
  rw [nextReportAfter, truncateNat, toNat_toUInt64_of_hasValue hw hnonneg (hhigh.trans_le hbound)]
  exact (Nat.floor_eq_iff hnonneg).mpr ⟨hlow, hhigh⟩

/-- Every cluster waits for a fifth more picks than it has. -/
theorem nextReportAfter_length (c : Cluster) :
    nextReportAfter c.assigned.length = c.assigned.length * 6 / 5 :=
  nextReportAfter_eq (by have := c.length_assigned_le; omega)

/-- A fifth of 24 picks or more is a whole pick at least. -/
theorem lt_nextReportAfter {c : Cluster} (h : backoffStart ≤ c.assigned.length) :
    c.assigned.length < nextReportAfter c.assigned.length := by
  rw [backoffStart] at h
  rw [nextReportAfter_length]
  omega

theorem floor_growth (n : ℕ) : ⌊(1.2 : ℚ) * n⌋₊ = n * 6 / 5 := by
  have hvalue : (1.2 : ℚ) * n = ((n * 6 : ℕ) : ℚ) / (5 : ℕ) := by
    push_cast
    ring
  rw [hvalue, Nat.floor_div_eq_div]

end Tremor.Cluster
