import Mathlib.Algebra.Order.Field.Power
import Mathlib.Data.Rat.Floor
import Mathlib.Tactic.FieldSimp
import Mathlib.Tactic.Linarith
import Mathlib.Tactic.NormNum
import Mathlib.Tactic.Positivity
import Mathlib.Tactic.Ring
import Tremor.Proofs.DoubleParts

/-!
A result is brought to a double in two shifts: the first leaves the places that a double has, with what is known about
the rest, and rounds to the nearest even; the second sets right a carry. What comes out is the double in whose interval
the exact result lies, where the interval is the one that the fewest digits are sought in.

- `Rests` : what an accuracy says about the rest
- `Rounds` : the interval of a double
- `roundWithAccuracy_eq` : rounding gives the double in whose interval the number lies
- `div_eq`, `mul_eq`, `round_eq` : so do quotients, products and whole numbers
-/

namespace Tremor.Number

open Float.Model (UnpackedFloat Format totalExponent)
open Float.Model.UnpackedFloat

/-! ## Whole numbers with a rest -/

/-- The share of a unit that an accuracy tells. -/
def Rests : Accuracy → ℚ → Prop
  | .exact, f => f = 0
  | .inexact .lt, f => 0 < f ∧ f < 1 / 2
  | .inexact .eq, f => f = 1 / 2
  | .inexact .gt, f => 1 / 2 < f ∧ f < 1

/-- Whether a number rounds to a whole one, a half going to the even neighbour. -/
def RoundsTo (q : ℚ) (n : ℕ) : Prop :=
  (n : ℚ) - 1 / 2 ≤ q ∧ q ≤ n + 1 / 2 ∧ (n % 2 = 1 → (n : ℚ) - 1 / 2 < q ∧ q < n + 1 / 2)

theorem Rests.bounds {acc : Accuracy} {f : ℚ} (h : Rests acc f) : 0 ≤ f ∧ f < 1 := by
  cases acc with
  | exact =>
    simp only [Rests] at h
    constructor <;> linarith
  | inexact o => cases o <;> simp only [Rests] at h <;> constructor <;> linarith

/-- Rounding by what the accuracy tells is rounding to the nearest. -/
theorem roundToNearestEven_eq {m n : ℕ} {acc : Accuracy} {q : ℚ} (h : Rests acc (q - m)) (hq : RoundsTo q n) :
    Accuracy.roundToNearestEven m acc = n := by
  obtain ⟨hlow, hhigh, hodd⟩ := hq
  obtain ⟨h0, h1⟩ := h.bounds
  have hle : m ≤ n := by
    have : (m : ℚ) < n + 1 := by linarith
    exact Nat.lt_succ_iff.mp (by exact_mod_cast this)
  have hge : n ≤ m + 1 := by
    have : (n : ℚ) < m + 2 := by linarith
    exact Nat.lt_succ_iff.mp (by exact_mod_cast this)
  -- the number lies between `m` and `m + 1`, and the rest decides between the two
  rcases Nat.lt_or_eq_of_le hge with hlt | rfl
  · have hn : n = m := by omega
    subst hn
    cases acc with
    | exact => rfl
    | inexact o =>
      cases o with
      | lt => rfl
      | eq =>
        simp only [Rests] at h
        have heven : n % 2 ≠ 1 := fun h' => by linarith [(hodd h').2]
        simp only [Accuracy.roundToNearestEven]
        omega
      | gt =>
        simp only [Rests] at h
        linarith
  · push_cast at hlow hhigh hodd
    cases acc with
    | exact =>
      simp only [Rests] at h
      linarith
    | inexact o =>
      cases o with
      | lt =>
        simp only [Rests] at h
        linarith
      | eq =>
        simp only [Rests] at h
        have heven : (m + 1) % 2 ≠ 1 := fun h' => by linarith [(hodd h').1]
        simp only [Accuracy.roundToNearestEven]
        omega
      | gt => rfl

/-- Halving keeps what is told about the rest. -/
theorem rests_shiftRightOne {em : ExtendedMantissa} {q : ℚ} (h : Rests em.accuracy (q - em.mantissa)) :
    Rests em.shiftRightOne.accuracy (q / 2 - em.shiftRightOne.mantissa) := by
  obtain ⟨m, roundBit, stickyBit⟩ := em
  have hdiv : (m : ℚ) = 2 * (m / 2 : ℕ) + (m % 2 : ℕ) := by exact_mod_cast (Nat.div_add_mod m 2).symm
  have hmod : m % 2 = 0 ∨ m % 2 = 1 := by omega
  have h0 : (0 != 0) = false := rfl
  have h1 : (1 != 0) = true := rfl
  simp only [ExtendedMantissa.shiftRightOne]
  rcases hmod with hm | hm <;> rw [hm] at hdiv ⊢ <;> push_cast at hdiv
  · cases roundBit <;> cases stickyBit <;>
      simp only [ExtendedMantissa.accuracy, Rests, h0, Bool.or_false, Bool.or_true] at h ⊢ <;>
      first | linarith | (constructor <;> linarith)
  · cases roundBit <;> cases stickyBit <;>
      simp only [ExtendedMantissa.accuracy, Rests, h1, Bool.or_false, Bool.or_true] at h ⊢ <;>
      first | linarith | (constructor <;> linarith)

theorem rests_shiftRight {em : ExtendedMantissa} {q : ℚ} (h : Rests em.accuracy (q - em.mantissa)) (k : ℕ) :
    Rests (em >>> k).accuracy (q / 2 ^ k - (em >>> k).mantissa) := by
  change Rests (k.repeat ExtendedMantissa.shiftRightOne em).accuracy
    (q / 2 ^ k - (k.repeat ExtendedMantissa.shiftRightOne em).mantissa)
  induction k with
  | zero => simpa [Nat.repeat] using h
  | succ k ih =>
    rw [Nat.repeat, pow_succ, ← div_div]
    exact rests_shiftRightOne ih

theorem accuracy_ofMantissaAndAccuracy (m : ℕ) (acc : Accuracy) :
    (ExtendedMantissa.ofMantissaAndAccuracy m acc).accuracy = acc ∧
      (ExtendedMantissa.ofMantissaAndAccuracy m acc).mantissa = m := by
  cases acc with
  | exact => exact ⟨rfl, rfl⟩
  | inexact o => cases o <;> exact ⟨rfl, rfl⟩

/-! ## Rounding to a double -/

/-- The numbers that round to a double: those in its interval, and for an odd significand not its ends. -/
structure Rounds (significand : ℕ) (exponent : Int) (q : ℚ) : Prop where
  low : ((roundingInterval significand exponent).1 : ℚ) * 2 ^ exponent ≤ 4 * q
  high : 4 * q ≤ ((roundingInterval significand exponent).2 : ℚ) * 2 ^ exponent
  odd : significand % 2 = 1 → ((roundingInterval significand exponent).1 : ℚ) * 2 ^ exponent < 4 * q ∧
    4 * q < ((roundingInterval significand exponent).2 : ℚ) * 2 ^ exponent

/-- The exponent of the last place that is kept of `m * 2 ^ e`. -/
def lastPlace (m : ℕ) (e : Int) : Int := max (m.log2 + 1 + e - 53) (-1074)

theorem targetExponent_eq (m : ℕ) (e : Int) :
    Format.binary64.targetExponent (totalExponent m e) = lastPlace m e := rfl

theorem shiftToTargetExponent_small {m : ℕ} {e : Int} (hm : m < 0x20000000000000) (he : -1074 ≤ e) :
    shiftToTargetExponent Format.binary64 m e .exact = (⟨m, false, false⟩, e) := by
  have hlog : m.log2 ≤ 52 := by
    rcases Nat.eq_zero_or_pos m with rfl | hpos
    · simp
    · have := (Nat.log2_lt (by omega : m ≠ 0)).mpr (show m < 2 ^ 53 from hm)
      omega
  have hk : (lastPlace m e - e).toNat = 0 := by
    unfold lastPlace
    omega
  simp only [shiftToTargetExponent, shiftToExponent, targetExponent_eq, hk]
  rw [Int.natCast_zero, Int.add_zero]
  rfl

theorem shiftToTargetExponent_carry {e : Int} (he : -1074 ≤ e) :
    shiftToTargetExponent Format.binary64 0x20000000000000 e .exact =
      (⟨0x10000000000000, false, false⟩, e + 1) := by
  have hlog : Nat.log2 0x20000000000000 = 53 := by decide
  have hk : (lastPlace 0x20000000000000 e - e).toNat = 1 := by
    rw [lastPlace, hlog]
    omega
  simp only [shiftToTargetExponent, shiftToExponent, targetExponent_eq, hk]
  rfl

/-- A number has its leading place 52 places before the last one that is kept, unless it is too small. -/
theorem bounds_of_lastPlace {m : ℕ} {e : Int} {q : ℚ} (hlow : (m : ℚ) ≤ q / 2 ^ e) (hhigh : q / 2 ^ e < m + 1)
    (he : e ≤ lastPlace m e) :
    q < 2 ^ (lastPlace m e + 53) ∧ (-1074 < lastPlace m e → (2 : ℚ) ^ (lastPlace m e + 52) ≤ q) := by
  have hpos : (0 : ℚ) < 2 ^ e := zpow_pos (by norm_num) e
  rw [le_div_iff₀ hpos] at hlow
  rw [div_lt_iff₀ hpos] at hhigh
  unfold lastPlace at he ⊢
  constructor
  · have hm : ((m : ℚ) + 1) ≤ 2 ^ (m.log2 + 1) := by exact_mod_cast Nat.lt_log2_self
    calc q < (m + 1) * 2 ^ e := hhigh
      _ ≤ 2 ^ (m.log2 + 1) * 2 ^ e := by gcongr
      _ = 2 ^ ((m.log2 : Int) + 1 + e) := by
        rw [zpow_add₀ (by norm_num), ← zpow_natCast]
        push_cast
        rfl
      _ ≤ 2 ^ (max ((m.log2 : Int) + 1 + e - 53) (-1074) + 53) := zpow_le_zpow_right₀ (by norm_num) (by omega)
  · intro h
    have hm0 : m ≠ 0 := by
      rintro rfl
      simp only [Nat.log2_zero] at he h
      omega
    have hm : (2 : ℚ) ^ m.log2 ≤ m := by exact_mod_cast Nat.log2_self_le hm0
    calc (2 : ℚ) ^ (max ((m.log2 : Int) + 1 + e - 53) (-1074) + 52) = 2 ^ ((m.log2 : Int) + e) := by
          congr 1
          omega
      _ = 2 ^ m.log2 * 2 ^ e := by rw [zpow_add₀ (by norm_num), zpow_natCast]
      _ ≤ m * 2 ^ e := by gcongr
      _ ≤ q := hlow

/-- The ends of the interval in units of the last place. -/
theorem Rounds.bounds {m : ℕ} {e : Int} {q : ℚ} (h : Rounds m e q) (hpos : 0 < m) :
    RoundsTo (q / 2 ^ e) m ∧
      (m = 0x10000000000000 → -1074 < e → (0x10000000000000 : ℚ) - 1 / 4 ≤ q / 2 ^ e) := by
  obtain ⟨hlow, hhigh, hodd⟩ := h
  have hp : (0 : ℚ) < 2 ^ e := zpow_pos (by norm_num) e
  have hq : q = q / 2 ^ e * 2 ^ e := by field_simp
  generalize q / 2 ^ e = share at hq ⊢
  have hscale : 4 * q = 4 * share * 2 ^ e := by rw [hq]; ring
  simp only [hscale, mul_le_mul_iff_left₀ hp, mul_lt_mul_iff_left₀ hp, roundingInterval] at hlow hhigh hodd
  by_cases hb : m = 0x10000000000000 ∧ -1074 < e
  · rw [if_pos hb] at hlow hodd
    obtain ⟨rfl, -⟩ := hb
    norm_num at hlow hhigh
    refine ⟨⟨?_, ?_, by norm_num⟩, fun _ _ => ?_⟩ <;> norm_num <;> linarith
  · rw [if_neg hb] at hlow hodd
    have hcast : ((4 * m - 2 : ℕ) : ℚ) = 4 * m - 2 := by
      rw [Nat.cast_sub (by omega)]
      push_cast
      ring
    rw [hcast] at hlow hodd
    push_cast at hhigh hodd
    refine ⟨⟨by linarith, by linarith, fun hm => ?_⟩, fun h1 h2 => absurd ⟨h1, h2⟩ hb⟩
    obtain ⟨h1, h2⟩ := hodd hm
    constructor <;> linarith

/-- The exponent of the binade of a number is that of the double that it rounds to, or the one before when the number
lies below a power of two and rounds up to it. -/
theorem Rounds.exponent_cases {m : ℕ} {e t : Int} {q : ℚ} (h : Rounds m e q) (hf : Fits m e) (hpos : 0 < m)
    (ht : -1074 ≤ t) (hlt : q < 2 ^ (t + 53)) (hge : -1074 < t → (2 : ℚ) ^ (t + 52) ≤ q) :
    t = e ∧ RoundsTo (q / 2 ^ t) m ∨
      t + 1 = e ∧ m = 0x10000000000000 ∧ RoundsTo (q / 2 ^ t) 0x20000000000000 := by
  obtain ⟨hm, he, -, hnormal⟩ := hf
  obtain ⟨hround, hquarter⟩ := h.bounds hpos
  have hlow := hround.1
  have hhigh := hround.2.1
  have hp : (0 : ℚ) < 2 ^ e := zpow_pos (by norm_num) e
  have hle : t ≤ e := by
    by_contra hgt
    have h1 : (2 : ℚ) ^ (e + 53) ≤ q := le_trans (zpow_le_zpow_right₀ (by norm_num) (by omega)) (hge (by omega))
    rw [zpow_add₀ (by norm_num), ← le_div_iff₀' hp] at h1
    have h2 : (m : ℚ) + 1 ≤ 0x20000000000000 := by exact_mod_cast hm
    norm_num at h1
    linarith
  rcases Int.lt_or_eq_of_le hle with hlt' | rfl
  · right
    -- below the exponent of the double only the quarter below a power of two is left
    have h1 : q < 2 ^ (e + 52) := lt_of_lt_of_le hlt (zpow_le_zpow_right₀ (by norm_num) (by omega))
    rw [zpow_add₀ (by norm_num), ← div_lt_iff₀' hp] at h1
    norm_num at h1
    have hpower : m = 0x10000000000000 := by
      have h2 : (m : ℚ) < 0x10000000000001 := by linarith
      have h3 : m < 0x10000000000001 := by exact_mod_cast h2
      omega
    have h4 := hquarter hpower (by omega)
    have hexponent : t + 1 = e := by
      by_contra hne
      have h5 : q < 2 ^ (e + 51) := lt_of_lt_of_le hlt (zpow_le_zpow_right₀ (by norm_num) (by omega))
      rw [zpow_add₀ (by norm_num), ← div_lt_iff₀' hp] at h5
      norm_num at h5 h4
      linarith
    have htwice : q / 2 ^ t = 2 * (q / 2 ^ e) := by
      rw [← hexponent, zpow_add₀ (by norm_num)]
      field_simp
    refine ⟨hexponent, hpower, ?_, ?_, fun hodd => by omega⟩ <;> rw [htwice] <;> norm_num <;> linarith
  · exact Or.inl ⟨rfl, hround⟩

/-- The first of the two shifts of rounding keeps what is known about the rest. -/
theorem exists_shiftToTargetExponent {m : ℕ} {e : Int} {acc : Accuracy} {q : ℚ} (hrest : Rests acc (q / 2 ^ e - m))
    (he : e ≤ lastPlace m e) : ∃ em : ExtendedMantissa,
      shiftToTargetExponent Format.binary64 m e acc = (em, lastPlace m e) ∧
        Rests em.accuracy (q / 2 ^ lastPlace m e - em.mantissa) := by
  obtain ⟨hacc, hmantissa⟩ := accuracy_ofMantissaAndAccuracy m acc
  refine ⟨ExtendedMantissa.ofMantissaAndAccuracy m acc >>> (lastPlace m e - e).toNat, ?_, ?_⟩
  · simp only [shiftToTargetExponent, shiftToExponent, targetExponent_eq]
    congr 1
    omega
  · have hunit : q / 2 ^ lastPlace m e = q / 2 ^ e / 2 ^ (lastPlace m e - e).toNat := by
      rw [div_div, ← zpow_natCast, ← zpow_add₀ (by norm_num)]
      congr 2
      omega
    rw [hunit]
    refine rests_shiftRight ?_ _
    rw [hacc, hmantissa]
    exact hrest

theorem roundWithAccuracy_of_shifts {s : Sign} {m n : ℕ} {e t t' : Int} {acc : Accuracy} {em : ExtendedMantissa}
    (h : shiftToTargetExponent Format.binary64 m e acc = (em, t))
    (h' : shiftToTargetExponent Format.binary64 em.roundedMantissa t .exact = (⟨n, false, false⟩, t'))
    (hn : 0 < n) :
    roundWithAccuracy Format.binary64 s m e acc = .finite s n t' hn := by
  unfold roundWithAccuracy
  rw [h]
  dsimp only
  rw [h']
  exact dif_neg hn.ne'

/-- Rounding with what is known about the rest gives the double in whose interval the number lies. -/
theorem roundWithAccuracy_eq {s : Sign} {m significand : ℕ} {e exponent : Int} {acc : Accuracy} {q : ℚ}
    (hrest : Rests acc (q / 2 ^ e - m)) (he : e ≤ lastPlace m e) (h : Rounds significand exponent q)
    (hf : Fits significand exponent) (hpos : 0 < significand) :
    roundWithAccuracy Format.binary64 s m e acc = .finite s significand exponent hpos := by
  obtain ⟨h0, h1⟩ := hrest.bounds
  obtain ⟨hlt, hge⟩ := bounds_of_lastPlace (sub_nonneg.mp h0) (sub_lt_iff_lt_add'.mp h1) he
  obtain ⟨em, hshift, hrest'⟩ := exists_shiftToTargetExponent hrest he
  have ht : -1074 ≤ lastPlace m e := le_max_right _ _
  refine roundWithAccuracy_of_shifts hshift ?_ hpos
  rcases h.exponent_cases hf hpos ht hlt hge with ⟨he', hround⟩ | ⟨he', rfl, hround⟩
  · have hr : em.roundedMantissa = significand := roundToNearestEven_eq hrest' hround
    rw [hr, ← he']
    exact shiftToTargetExponent_small hf.significand_lt ht
  · have hr : em.roundedMantissa = 0x20000000000000 := roundToNearestEven_eq hrest' hround
    rw [hr, ← he']
    exact shiftToTargetExponent_carry ht

/-! ## Quotients -/

/-- The rest of a division with remainder. -/
theorem rests_accuracyOfFraction {m n : ℕ} (hn : 0 < n) :
    Rests (accuracyOfFraction (m % n) n) ((m : ℚ) / n - (m / n : ℕ)) := by
  have hpos : (0 : ℚ) < n := by exact_mod_cast hn
  have hmod : m % n < n := Nat.mod_lt m hn
  have hshare : (m : ℚ) / n - (m / n : ℕ) = (m % n : ℕ) / n := by
    have hdiv : (m : ℚ) = n * (m / n : ℕ) + (m % n : ℕ) := by exact_mod_cast (Nat.div_add_mod m n).symm
    rw [sub_eq_iff_eq_add, div_eq_iff hpos.ne', add_mul, div_mul_cancel₀ _ hpos.ne']
    linarith
  rw [hshare]
  unfold accuracyOfFraction
  split
  · rename_i h0
    rw [h0]
    simp [Rests]
  · rename_i h0
    have hr : (0 : ℚ) < (m % n : ℕ) := by exact_mod_cast Nat.pos_of_ne_zero h0
    rcases Nat.lt_trichotomy (2 * (m % n)) n with h | h | h
    · rw [Nat.compare_eq_lt.mpr h]
      have hq : 2 * ((m % n : ℕ) : ℚ) < n := by exact_mod_cast h
      refine ⟨div_pos hr hpos, ?_⟩
      rw [div_lt_iff₀ hpos]
      linarith
    · rw [Nat.compare_eq_eq.mpr h]
      have hq : 2 * ((m % n : ℕ) : ℚ) = n := by exact_mod_cast h
      show _ = _
      rw [div_eq_iff hpos.ne']
      linarith
    · rw [Nat.compare_eq_gt.mpr h]
      have hq : (n : ℚ) < 2 * ((m % n : ℕ) : ℚ) := by exact_mod_cast h
      have hq' : ((m % n : ℕ) : ℚ) < n := by exact_mod_cast hmod
      refine ⟨?_, ?_⟩
      · rw [lt_div_iff₀ hpos]
        linarith
      · rw [div_lt_iff₀ hpos]
        linarith

/-- How many places a quotient has at least. -/
theorem le_log2_quotient {m₁ m₂ k n : ℕ} (h₁ : 0 < m₁) (h₂ : 0 < m₂) (h : n + (m₂.log2 + 1) ≤ m₁.log2 + k) :
    n ≤ (m₁ <<< k / m₂).log2 := by
  have hquot : 2 ^ n ≤ m₁ <<< k / m₂ := by
    rw [Nat.le_div_iff_mul_le h₂, Nat.shiftLeft_eq]
    calc 2 ^ n * m₂ ≤ 2 ^ n * 2 ^ (m₂.log2 + 1) := Nat.mul_le_mul_left _ Nat.lt_log2_self.le
      _ = 2 ^ (n + (m₂.log2 + 1)) := (Nat.pow_add ..).symm
      _ ≤ 2 ^ (m₁.log2 + k) := Nat.pow_le_pow_right (by decide) h
      _ = 2 ^ m₁.log2 * 2 ^ k := Nat.pow_add ..
      _ ≤ m₁ * 2 ^ k := Nat.mul_le_mul_right _ (Nat.log2_self_le h₁.ne')
  exact (Nat.le_log2 (Nat.ne_of_gt (lt_of_lt_of_le (Nat.two_pow_pos n) hquot))).mpr hquot

/-- A quotient of significands has enough places, and its rest is known. -/
theorem divCore_spec {m₁ m₂ : ℕ} (e₁ e₂ : Int) (h₁ : 0 < m₁) (h₂ : 0 < m₂) :
    let (m, e, acc) := divCore Format.binary64 m₁ e₁ m₂ e₂
    Rests acc ((m₁ : ℚ) * 2 ^ e₁ / (m₂ * 2 ^ e₂) / 2 ^ e - m) ∧ e ≤ lastPlace m e := by
  have hlast : Format.binary64.targetExponent (totalExponent m₁ e₁ - totalExponent m₂ e₂) =
      max ((m₁.log2 : Int) + 1 + e₁ - (m₂.log2 + 1 + e₂) - 53) (-1074) := rfl
  simp only [divCore, hlast]
  generalize hlead : (m₁.log2 : Int) + 1 + e₁ - (m₂.log2 + 1 + e₂) - 53 = lead
  have hshift : ((e₁ - e₂ - min (e₁ - e₂) (max lead (-1074))).toNat : Int) =
      e₁ - e₂ - min (e₁ - e₂) (max lead (-1074)) := by omega
  have hmin := Int.min_le_right (e₁ - e₂) (max lead (-1074))
  generalize (e₁ - e₂ - min (e₁ - e₂) (max lead (-1074))).toNat = k at hshift ⊢
  generalize min (e₁ - e₂) (max lead (-1074)) = e at hshift hmin ⊢
  have hm₂ : (m₂ : ℚ) ≠ 0 := by exact_mod_cast h₂.ne'
  constructor
  · have hvalue : (m₁ : ℚ) * 2 ^ e₁ / (m₂ * 2 ^ e₂) / 2 ^ e = ((m₁ <<< k : ℕ) : ℚ) / m₂ := by
      have he : (2 : ℚ) ^ e₁ = 2 ^ k * 2 ^ e₂ * 2 ^ e := by
        rw [← zpow_natCast, ← zpow_add₀ (by norm_num), ← zpow_add₀ (by norm_num)]
        congr 1
        omega
      rw [he, Nat.shiftLeft_eq]
      push_cast
      field_simp
    rw [hvalue]
    exact rests_accuracyOfFraction h₂
  · unfold lastPlace
    by_cases hsmall : e ≤ -1074
    · omega
    · -- the quotient is not cut off at the least exponent
      have hlog := le_log2_quotient h₁ h₂ (show 52 + (m₂.log2 + 1) ≤ m₁.log2 + k by omega)
      omega

/-- Division is rounded to the double in whose interval the quotient lies. -/
theorem div_eq {m₁ m₂ significand : ℕ} {e₁ e₂ exponent : Int} (h₁ : 0 < m₁) (h₂ : 0 < m₂)
    (h : Rounds significand exponent ((m₁ : ℚ) * 2 ^ e₁ / (m₂ * 2 ^ e₂))) (hf : Fits significand exponent)
    (hpos : 0 < significand) :
    UnpackedFloat.div Format.binary64 (.finite .positive m₁ e₁ h₁) (.finite .positive m₂ e₂ h₂) =
      .finite .positive significand exponent hpos := by
  obtain ⟨hrest, he⟩ := divCore_spec e₁ e₂ h₁ h₂
  exact roundWithAccuracy_eq hrest he h hf hpos

/-! ## Numbers without a rest -/

/-- A double lies inside its interval. -/
theorem roundingInterval_around {m : ℕ} (e : Int) (hm : 0 < m) :
    ((roundingInterval m e).1 : ℚ) * 2 ^ e < 4 * (m * 2 ^ e) ∧
      4 * ((m : ℚ) * 2 ^ e) < ((roundingInterval m e).2 : ℚ) * 2 ^ e := by
  have hp : (0 : ℚ) < 2 ^ e := zpow_pos (by norm_num) e
  have hlow : ((roundingInterval m e).1 : ℚ) < 4 * m := by
    have : (roundingInterval m e).1 < 4 * m := by
      simp only [roundingInterval]
      split <;> omega
    exact_mod_cast this
  have hhigh : (4 * m : ℚ) < (roundingInterval m e).2 := by
    simp only [roundingInterval]
    push_cast
    linarith
  rw [← mul_assoc]
  exact ⟨mul_lt_mul_of_pos_right hlow hp, mul_lt_mul_of_pos_right hhigh hp⟩

/-- A double is the one that its own value rounds to. -/
theorem rounds_self {m : ℕ} (e : Int) (hm : 0 < m) : Rounds m e ((m : ℚ) * 2 ^ e) := by
  have h := roundingInterval_around e hm
  exact ⟨h.1.le, h.2.le, fun _ => h⟩

/-- A number that is known exactly has no rest. -/
theorem rests_exact (m : ℕ) (e : Int) : Rests .exact ((m : ℚ) * 2 ^ e / 2 ^ e - m) := by
  rw [mul_div_cancel_right₀ _ (zpow_pos (by norm_num) e).ne', sub_self]
  rfl

/-- It is rounded to the double in whose interval it lies. -/
theorem roundWithAccuracy_exact {s : Sign} {m significand : ℕ} {e exponent : Int} (he : e ≤ lastPlace m e)
    (h : Rounds significand exponent ((m : ℚ) * 2 ^ e)) (hf : Fits significand exponent) (hpos : 0 < significand) :
    roundWithAccuracy Format.binary64 s m e .exact = .finite s significand exponent hpos :=
  roundWithAccuracy_eq (rests_exact m e) he h hf hpos

theorem log2_shiftLeft {m : ℕ} (hm : 0 < m) (k : ℕ) : (m <<< k).log2 = m.log2 + k := by
  rw [Nat.shiftLeft_eq]
  refine (Nat.log2_eq_iff (Nat.mul_pos hm (Nat.two_pow_pos k)).ne').mpr ⟨?_, ?_⟩
  · rw [Nat.pow_add]
    exact Nat.mul_le_mul_right _ (Nat.log2_self_le hm.ne')
  · rw [Nat.add_right_comm, Nat.pow_add]
    exact Nat.mul_lt_mul_of_pos_right Nat.lt_log2_self (Nat.two_pow_pos k)

/-- Zeros behind a number do not change its last place. -/
theorem lastPlace_shiftLeft {m : ℕ} (hm : 0 < m) (e : Int) (k : ℕ) :
    lastPlace (m <<< k) (e - k) = lastPlace m e := by
  rw [lastPlace, lastPlace, log2_shiftLeft hm]
  push_cast
  congr 1
  omega

/-- Nor do they change the number. -/
theorem cast_shiftLeft_mul (m k : ℕ) (e : Int) : ((m <<< k : ℕ) : ℚ) * 2 ^ (e - k) = m * 2 ^ e := by
  rw [Nat.shiftLeft_eq, zpow_sub₀ (by norm_num), zpow_natCast]
  push_cast
  field_simp

/-- A number without a rest is rounded to the double in whose interval it lies. -/
theorem round_eq {s : Sign} {m significand : ℕ} {e exponent : Int} (hm : 0 < m)
    (h : Rounds significand exponent ((m : ℚ) * 2 ^ e)) (hf : Fits significand exponent) (hpos : 0 < significand) :
    UnpackedFloat.round Format.binary64 s m e = .finite s significand exponent hpos := by
  unfold UnpackedFloat.round decreaseExponent
  dsimp only
  rw [targetExponent_eq]
  have hk : e - (e - lastPlace m e).toNat ≤ lastPlace m e := by omega
  generalize (e - lastPlace m e).toNat = k at hk ⊢
  refine roundWithAccuracy_exact ?_ ?_ hf hpos
  · rw [lastPlace_shiftLeft hm]
    exact hk
  · rw [cast_shiftLeft_mul]
    exact h

/-- A product is rounded to the double in whose interval it lies. -/
theorem mul_eq {m₁ m₂ significand : ℕ} {e₁ e₂ exponent : Int} (h₁ : 0 < m₁) (h₂ : 0 < m₂)
    (he : e₁ + e₂ ≤ lastPlace (m₁ * m₂) (e₁ + e₂))
    (h : Rounds significand exponent (((m₁ * m₂ : ℕ) : ℚ) * 2 ^ (e₁ + e₂))) (hf : Fits significand exponent)
    (hpos : 0 < significand) :
    UnpackedFloat.mul Format.binary64 (.finite .positive m₁ e₁ h₁) (.finite .positive m₂ e₂ h₂) =
      .finite .positive significand exponent hpos :=
  roundWithAccuracy_exact he h hf hpos

end Tremor.Number
