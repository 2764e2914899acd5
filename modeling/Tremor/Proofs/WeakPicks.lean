import Mathlib.Data.List.TakeWhile
import Tremor.Proofs.NearbyDoubles
import Tremor.Proofs.PassChecks

/-!
# Trimming weak picks

Picks in order of ratio are trimmed from the weak end. The ratio at the 35th percentile is the threshold; picks before
that position are dropped as long as they are below it, and as long as eight remain. As the product that gives the
position is less than half of what it is taken of, rounding never carries it past the last pick.

- `truncateNat_share_le` : the integer part of a share of a count
- `percentileIndex_eq` : the position is the truncated product
- `Trimmed` : what is guaranteed of the picks that remain
- `trimWeak_trims` : trimming guarantees it
-/

namespace Tremor.Selection

open Number

variable {x : Float} {w : ℚ}

/-! ## The position of the threshold -/

/-- A share of a count that is no more than a half does not become greater than the count, however it is rounded. -/
theorem truncateNat_share_le (n : ℕ) (hx : HasValue x w) (hw : 0 ≤ w) (hhalf : w ≤ 1 / 2) :
    truncateNat (n.toFloat * x) ≤ n := by
  rcases Nat.lt_or_ge n (2 ^ 64) with hlt | hge
  · rcases Nat.eq_zero_or_pos n with rfl | hpos
    · have hzero : HasValue (Nat.toFloat 0) 0 := (faithful_toFloat 0).hasValue (by simpa using hasValue_zero)
      have hproduct := (faithful_mul hzero hx).hasValue (by simpa using hasValue_zero)
      have hnat := toNat_toUInt64_of_hasValue hproduct (by simp) (by norm_num)
      rw [zero_mul, Nat.floor_zero] at hnat
      exact Nat.le_of_eq hnat
    · -- the next power of two is a double, and half of it is no more than the count
      obtain ⟨hlow, hhigh⟩ := (Nat.log2_eq_iff hpos.ne').mp rfl
      have hlog : n.log2 < 64 := (Nat.log2_lt hpos.ne').mpr hlt
      obtain ⟨y, hy⟩ := exists_hasValue_mul (i := 1) (by decide) (show -1000 ≤ ((n.log2 + 1 : ℕ) : Int) by omega)
        (by omega)
      obtain ⟨z, hz⟩ := exists_hasValue_mul (i := 1) (by decide) (show -1000 ≤ (n.log2 : Int) by omega) (by omega)
      rw [Int.cast_one, one_mul, zpow_natCast] at hy hz
      have hcount := faithful_toFloat n
      have hbelow : (n : ℚ) ≤ 2 ^ (n.log2 + 1) := by exact_mod_cast hhigh.le
      obtain ⟨v, hv, hv0, hvle⟩ := exists_hasValue_between hasValue_zero hy
        (hcount.le_of_le hasValue_zero (Nat.cast_nonneg n)) (hcount.ge_of_ge hy hbelow)
      have hproduct := faithful_mul hv hx
      have hsmall : v * w ≤ 2 ^ n.log2 := by
        rw [pow_succ] at hvle
        nlinarith
      obtain ⟨u, hu, hu0, hule⟩ := exists_hasValue_between hasValue_zero hz
        (hproduct.le_of_le hasValue_zero (mul_nonneg hv0 hw)) (hproduct.ge_of_ge hz hsmall)
      have hfloor : ⌊u⌋₊ ≤ 2 ^ n.log2 := Nat.floor_le_of_le (by exact_mod_cast hule)
      have hword : (2 : ℚ) ^ n.log2 < 2 ^ 64 := pow_lt_pow_right₀ (by norm_num) hlog
      have hnat := toNat_toUInt64_of_hasValue hu hu0 (hule.trans_lt hword)
      exact (Nat.le_of_eq hnat).trans (hfloor.trans hlow)
  · exact (Nat.le_of_lt (n.toFloat * x).toUInt64.toNat_lt).trans hge

theorem hasValue_percentile : HasValue 0.35 (6305039478318694 / 2 ^ 54) := by
  have hunpack : (0.35 : Float).toModel.unpack = .finite .positive 6305039478318694 (-54) (by decide) := rfl
  convert hasValue_of_unpack hunpack using 1
  norm_num [signed]

/-- The position of the threshold is the truncated product, which is never beyond the last position. -/
theorem percentileIndex_eq (n : ℕ) :
    percentileIndex n = truncateNat ((n - 1).toFloat * 0.35) ∧ truncateNat ((n - 1).toFloat * 0.35) ≤ n - 1 := by
  have hle := truncateNat_share_le (n - 1) hasValue_percentile (by norm_num) (by norm_num)
  exact ⟨Nat.min_eq_left hle, hle⟩

/-! ## What remains -/

/-- Weak picks were dropped, so that `kept` remain: picks in order of ratio from some position on, no fewer than eight
of them if there are so many, and none dropped from position `i` on. All that were dropped are below the ratio at
position `i`, and if one that is below it remains, it remains because there would be fewer than eight without it. -/
structure Trimmed (picks : List Pick) (i : ℕ) (threshold : Float) (kept : List Pick) : Prop where
  suffix : ∃ dropped, picks = dropped ++ kept ∧ ∀ p ∈ dropped, p.maxRatio.toFloat < threshold
  strongest : kept.getLast? = picks.getLast?
  eight : min picks.length 8 ≤ kept.length
  percentile : picks.length - i ≤ kept.length
  floored : ∀ p ∈ kept, p.maxRatio.toFloat < threshold → kept.length = min picks.length 8

/-- The picks at the weak end that are below a threshold. -/
def weakEnd (threshold : Float) (picks : List Pick) : List Pick :=
  picks.takeWhile fun p => decide (p.maxRatio.toFloat < threshold)

variable {picks : List Pick} {threshold : Float} {p : Pick}

theorem lt_of_mem_weakEnd (h : p ∈ weakEnd threshold picks) : p.maxRatio.toFloat < threshold := by
  rw [weakEnd] at h
  exact of_decide_eq_true (List.mem_takeWhile_imp (p := fun p : Pick => decide (p.maxRatio.toFloat < threshold)) h)

/-- As many of the first picks as are at the weak end are below the threshold. -/
theorem lt_of_mem_take {k : ℕ} (hk : k ≤ (weakEnd threshold picks).length) (h : p ∈ picks.take k) :
    p.maxRatio.toFloat < threshold := by
  have hstart : picks.take k <+: weakEnd threshold picks :=
    List.prefix_of_prefix_length_le (List.take_prefix k picks) (List.takeWhile_prefix _) (by
      rw [List.length_take]
      omega)
  exact lt_of_mem_weakEnd (hstart.mem h)

/-- The pick that the threshold is taken from is not at the weak end. -/
theorem length_weakEnd_le {i : ℕ} (hi : picks[i]? = some p) : (weakEnd p.maxRatio.toFloat picks).length ≤ i := by
  by_contra hlt
  have hmem : p ∈ picks.take (i + 1) := List.mem_of_getElem? (i := i) (by rwa [List.getElem?_take_of_lt (by omega)])
  have hbelow := lt_of_mem_take (Nat.not_le.mp hlt) hmem
  exact not_lt_of_lt hbelow hbelow

/-- In order of ratio, no pick after the weak end is below the threshold. -/
theorem not_lt_of_mem_drop (hsorted : picks.Pairwise fun a b => a.maxRatio.toFloat ≤ b.maxRatio.toFloat)
    (h : p ∈ picks.drop (weakEnd threshold picks).length) : ¬ p.maxRatio.toFloat < threshold := by
  have hsplit : picks.drop (weakEnd threshold picks).length =
      picks.dropWhile fun p => decide (p.maxRatio.toFloat < threshold) := by
    have hsplit := congrArg (List.drop (weakEnd threshold picks).length)
      (List.takeWhile_append_dropWhile (p := fun p : Pick => decide (p.maxRatio.toFloat < threshold)) (l := picks))
    exact hsplit.symm.trans List.drop_left
  have hstrong := hsorted.sublist (List.drop_sublist (weakEnd threshold picks).length picks)
  rw [hsplit] at h hstrong
  have hhead := List.head_dropWhile_not (fun p : Pick => decide (p.maxRatio.toFloat < threshold)) (List.ne_nil_of_mem h)
  generalize picks.dropWhile (fun p => decide (p.maxRatio.toFloat < threshold)) = strong at h hstrong hhead
  intro hlt
  cases strong with
  | nil => cases h
  | cons first others =>
    have hfirst : ¬ first.maxRatio.toFloat < threshold := of_decide_eq_false hhead
    rcases List.mem_cons.mp h with rfl | h
    · exact hfirst hlt
    · obtain ⟨hself, -, hnot⟩ := le_iff.mp ((List.pairwise_cons.mp hstrong).1 p h)
      exact hfirst (lt_of_not_lt_of_lt hself hnot hlt)

/-- Trimming drops the weak end, but leaves eight picks. -/
theorem trimWeak_eq {i : ℕ} (hi : i = percentileIndex picks.length) (hget : picks[i]? = some p) :
    trimWeak picks = picks.drop (min (weakEnd p.maxRatio.toFloat picks).length (picks.length - 8)) := by
  subst hi
  simp only [trimWeak, hget]
  rfl

/-- Trimming drops picks below the ratio at the 35th percentile, and only these, as long as eight remain. -/
theorem trimWeak_trims (hne : picks ≠ []) (hsorted : picks.Pairwise fun a b => a.maxRatio.toFloat ≤ b.maxRatio.toFloat) :
    let i := truncateNat ((picks.length - 1).toFloat * 0.35)
    i ≤ picks.length - 1 ∧ ∃ p, picks[i]? = some p ∧ Trimmed picks i p.maxRatio.toFloat (trimWeak picks) := by
  intro i
  obtain ⟨hindex, hi⟩ := percentileIndex_eq picks.length
  have hpos := List.length_pos_of_ne_nil hne
  obtain ⟨p, hp⟩ : ∃ p, picks[i]? = some p := ⟨_, List.getElem?_eq_getElem (by omega)⟩
  have htrim := trimWeak_eq hindex.symm hp
  have hweak := length_weakEnd_le hp
  refine ⟨hi, p, hp, ?_⟩
  exact {
    suffix := ⟨_, htrim ▸ (List.take_append_drop _ _).symm, fun q hq => lt_of_mem_take (Nat.min_le_left _ _) hq⟩
    strongest := getLast?_trimWeak picks
    eight := by
      rw [htrim, List.length_drop]
      omega
    percentile := by
      rw [htrim, List.length_drop]
      omega
    floored := by
      intro q hq hlt
      rw [htrim] at hq ⊢
      rcases Nat.le_total (weakEnd p.maxRatio.toFloat picks).length (picks.length - 8) with hle | hle
      · rw [Nat.min_eq_left hle] at hq
        exact absurd hlt (not_lt_of_mem_drop hsorted hq)
      · rw [Nat.min_eq_right hle, List.length_drop]
        omega }

/-- Ten picks of which three are below the ratio at position 3. The third one stays, because it is one of the last
eight. -/
theorem trimWeak_trims_ten :
    let picks := [1.0, 2.0, 2.5, 3.0, 3.0, 3.0, 4.0, 5.0, 6.0, 50.0].map fun ratio =>
      ({ pWave := 0, place := ⟨0.0, 0.0⟩, elevation := 0.0, maxRatio := .ofFloat ratio } : Pick)
    picks ≠ [] ∧ (picks.Pairwise fun a b => a.maxRatio.toFloat ≤ b.maxRatio.toFloat) ∧
      truncateNat ((picks.length - 1).toFloat * 0.35) = 3 ∧ (trimWeak picks).head?.map (·.maxRatio.toFloat) = some 2.5 ∧
      ∃ p, picks[3]? = some p ∧ Trimmed picks 3 p.maxRatio.toFloat (trimWeak picks) := by
  intro picks
  have hne : picks ≠ [] := List.cons_ne_nil _ _
  have hsorted : picks.Pairwise fun a b => a.maxRatio.toFloat ≤ b.maxRatio.toFloat := by decide +kernel
  have hindex : truncateNat ((picks.length - 1).toFloat * 0.35) = 3 := by decide +kernel
  have hfirst : (trimWeak picks).head?.map (·.maxRatio.toFloat) = some 2.5 := by decide +kernel
  obtain ⟨-, hp⟩ := trimWeak_trims hne hsorted
  rw [hindex] at hp
  exact ⟨hne, hsorted, hindex, hfirst, hp⟩

end Tremor.Selection
