import Mathlib.Algebra.Order.Floor.Semifield
import Tremor.Proofs.Doubles
import Tremor.Proofs.NearestDouble

/-!
# Arithmetic of whole doubles

A whole number of at most 53 bits is a double. As long as a product stays among these, it is exact, and its integer part
is the product itself. A difference is exact when nothing is taken away, and when everything is; and zero stays zero,
whatever it is divided by, unless that is zero or no number at all.

- `ofInt64_mul`, `truncate_ofInt64` : products and integer parts of whole doubles
- `truncate_mul_zero` : a product with zero has no integer part
- `finite_of_div` : what a finite quotient is divided by is finite
- `sub_div_self` : a number less a share of nothing
-/

namespace Tremor.Number

open Float.Model (UnpackedFloat Format)
open Float.Model.UnpackedFloat (Sign roundToInt)

/-! ## Products -/

/-- The word of a whole number that is positive. -/
theorem toNat_toUInt64 {i : Int64} (hpos : 0 < i.toInt) : ¬ i < 0 ∧ i.toUInt64.toNat = i.toInt.toNat := by
  have hneg : ¬ i < 0 := by
    rw [Int64.lt_iff_toInt_lt, Int64.toInt_zero]
    omega
  exact ⟨hneg, Int64.toNat_toUInt64_of_le (Int64.not_lt.mp hneg)⟩

theorem cast_toNat {i : Int64} (hpos : 0 < i.toInt) : ((i.toInt.toNat : ℕ) : ℚ) = i.toInt := by
  exact_mod_cast Int.toNat_of_nonneg (Int.le_of_lt hpos)

/-- The parts of a whole number: its leading bit is in place. -/
theorem unpack_ofInt64 {i : Int64} (hpos : 0 < i.toInt) (hlt : i.toInt < 0x20000000000000) :
    ∃ (significand : ℕ) (exponent : Int) (h : 0 < significand),
      (ofInt64 i).toModel.unpack = .finite .positive significand exponent h ∧
        (significand : ℚ) * 2 ^ exponent = i.toInt ∧ Fits significand exponent ∧ leadingBit ≤ significand := by
  obtain ⟨hneg, hnat⟩ := toNat_toUInt64 hpos
  have hword : i.toUInt64 = i.toInt.toNat.toUInt64 := by
    refine UInt64.toNat_inj.mp ?_
    rw [hnat, Nat.toUInt64, UInt64.toNat_ofNat']
    exact (Nat.mod_eq_of_lt (by omega)).symm
  obtain ⟨m, e, hm, hunpack, hvalue⟩ :=
    unpack_toFloat (m := i.toInt.toNat) (by omega) (by omega)
  rw [← hword] at hunpack
  have hfits := fits_of_unpack hunpack
  refine ⟨m, e, hm, ?_, hvalue.trans (cast_toNat hpos), hfits, ?_⟩
  · rw [ofInt64, if_neg hneg]
    exact hunpack
  · -- with the least exponent, it would be less than one
    refine leadingBit_le_of_unpack hunpack (lt_of_le_of_ne hfits.le_exponent fun he => ?_)
    have hone : (1 : ℚ) ≤ m * 2 ^ e := by
      rw [hvalue]
      exact_mod_cast show 1 ≤ i.toInt.toNat by omega
    have hlt' : (m : ℚ) < 2 ^ (53 : Int) := by exact_mod_cast hfits.significand_lt
    have hsmall : (m : ℚ) * 2 ^ e < 2 ^ (53 : Int) * 2 ^ (-1074 : Int) := by
      rw [← he]
      exact mul_lt_mul_of_pos_right hlt' (zpow_pos (by norm_num) _)
    rw [← zpow_add₀ (by norm_num)] at hsmall
    exact absurd (hone.trans_lt hsmall) (not_lt.mpr (zpow_le_one_of_nonpos₀ (by norm_num) (by norm_num)))

/-- With the leading bit in place, no place is cut off. -/
theorem le_lastPlace {m : ℕ} (h : leadingBit ≤ m) (e : Int) : 52 ≤ m.log2 ∧ e ≤ lastPlace m e := by
  have hlog : 52 ≤ m.log2 := (Nat.le_log2 (Nat.lt_of_lt_of_le (by decide) h).ne').mpr h
  refine ⟨hlog, ?_⟩
  rw [lastPlace]
  omega

/-- A product of whole numbers is exact as long as it has at most 53 bits. -/
theorem ofInt64_mul {a b : Int64} (ha : 0 < a.toInt) (hb : 0 < b.toInt)
    (hlt : a.toInt * b.toInt < 0x20000000000000) : ofInt64 a * ofInt64 b = ofInt64 (a * b) := by
  have hle : a.toInt ≤ a.toInt * b.toInt := le_mul_of_one_le_right (Int.le_of_lt ha) hb
  have hle' : b.toInt ≤ a.toInt * b.toInt := le_mul_of_one_le_left (Int.le_of_lt hb) ha
  have hpos : 0 < a.toInt * b.toInt := Int.mul_pos ha hb
  have hab : (a * b).toInt = a.toInt * b.toInt := by
    rw [Int64.toInt_mul]
    exact Int.bmod_eq_of_le (by omega) (by omega)
  obtain ⟨m₁, e₁, h₁, hunpack₁, hvalue₁, -, hlead₁⟩ := unpack_ofInt64 ha (by omega)
  obtain ⟨m₂, e₂, h₂, hunpack₂, hvalue₂, -, -⟩ := unpack_ofInt64 hb (by omega)
  obtain ⟨m, e, hm, hunpack, hvalue, hfits, -⟩ := unpack_ofInt64 (i := a * b) (by omega) (by omega)
  obtain ⟨-, hlast⟩ := le_lastPlace (Nat.le_trans hlead₁ (Nat.le_mul_of_pos_right m₁ h₂)) (e₁ + e₂)
  have hproduct : ((m₁ * m₂ : ℕ) : ℚ) * 2 ^ (e₁ + e₂) = (m : ℚ) * 2 ^ e := by
    rw [hvalue, hab, Int.cast_mul, ← hvalue₁, ← hvalue₂, zpow_add₀ (by norm_num)]
    push_cast
    ring
  refine eq_of_unpack ?_
  show (Float.Model.pack (UnpackedFloat.mul Format.binary64 (ofInt64 a).toModel.unpack
    (ofInt64 b).toModel.unpack)).unpack = _
  rw [hunpack₁, hunpack₂, mul_eq h₁ h₂ hlast (hproduct ▸ rounds_self e hm) hfits hm, hunpack]
  exact unpack_pack hfits hm false

/-! ## Integer parts -/

/-- The integer part is the greatest whole number that is not above. -/
theorem roundToInt_floor (m : ℕ) (e : Int) : roundToInt .positive m e = ⌊(m : ℚ) * 2 ^ e⌋₊ := by
  have hshift : (m <<< e.toNat) >>> (0 - (e - e.toNat)).toNat = ⌊(m : ℚ) * 2 ^ e⌋₊ := by
    have hk : (0 - (e - e.toNat)).toNat = (-e).toNat := by omega
    have hvalue : (m : ℚ) * 2 ^ e = ((m * 2 ^ e.toNat : ℕ) : ℚ) / (2 ^ (-e).toNat : ℕ) := by
      rw [zpow_eq_div (by norm_num), ← mul_div_assoc]
      push_cast
      rfl
    rw [hk, Nat.shiftLeft_eq, Nat.shiftRight_eq_div_pow, hvalue, Nat.floor_div_eq_div]
  simp only [roundToInt, UnpackedFloat.decreaseExponent, UnpackedFloat.shiftToExponent, mantissa_shiftRight,
    Int.sub_zero]
  exact congrArg Int.ofNat hshift

/-- The integer part of a whole number. -/
theorem roundToInt_eq {m : ℕ} {e : Int} {n : ℕ} (h : (m : ℚ) * 2 ^ e = n) : roundToInt .positive m e = n := by
  rw [roundToInt_floor, h, Nat.floor_natCast]

theorem truncate_ofInt64 {i : Int64} (hpos : 0 < i.toInt) (hlt : i.toInt < 0x20000000000000) :
    truncate (ofInt64 i) = i := by
  obtain ⟨m, e, hm, hunpack, hvalue, hfits, -⟩ := unpack_ofInt64 hpos hlt
  obtain ⟨-, hnat⟩ := toNat_toUInt64 hpos
  have habs : (ofInt64 i).abs.toModel.unpack = .finite .positive m e hm := by
    show (Float.Model.pack (ofInt64 i).toModel.unpack.abs).unpack = _
    rw [hunpack]
    exact unpack_pack hfits hm false
  have hword : (ofInt64 i).abs.toUInt64 = i.toUInt64 := by
    have hsize : i.toInt.toNat < UInt64.size := Nat.lt_of_lt_of_le (by omega) (by decide : 0x20000000000000 ≤ _)
    show UInt64.ofNatClamp ((ofInt64 i).abs.toModel.unpack.toInt 0 (UInt64.size - 1)).toNat = _
    rw [habs]
    show UInt64.ofNatClamp (roundToInt .positive m e).toNat = _
    rw [roundToInt_eq (hvalue.trans (cast_toNat hpos).symm), Int.toNat_natCast, UInt64.ofNatClamp, dif_pos hsize]
    exact UInt64.toNat_inj.mp (UInt64.toNat_ofNatLT.trans hnat.symm)
  have hsign : ¬ ofInt64 i < 0 := by
    rw [lt_iff_unpack, hunpack]
    exact Bool.false_ne_true
  have hsmall : i.toUInt64 < 0x8000000000000000 := by
    rw [UInt64.lt_iff_toNat_lt, hnat]
    exact Nat.lt_of_lt_of_le (by omega) (by decide : 0x20000000000000 ≤ _)
  simp only [truncate, hword, if_neg hsign, if_pos hsmall]
  exact i.toInt64_toUInt64

/-- A product with zero is zero or no number. -/
theorem truncate_mul_zero (x : Float) : truncate (x * ofInt64 0) = 0 := by
  have hproduct : x * ofInt64 0 = ⟨Float.Model.pack (.mul Format.binary64 x.toModel.unpack (.zero .positive))⟩ := rfl
  have hzero : ∀ s, truncate ⟨Float.Model.pack (.zero s)⟩ = 0 := by
    intro s
    cases s <;> decide
  have hnone : truncate ⟨Float.Model.pack .notANumber⟩ = 0 := by decide
  rw [hproduct]
  cases x.toModel.unpack with
  | notANumber | infinity s => exact hnone
  | zero s | finite s m e hm => exact hzero _

/-! ## Quotients and differences -/

/-- A number above zero that something is divided by with a finite result is finite. -/
theorem finite_of_div {x y : Float} (hy : ¬ y ≤ 0) {s : Sign} {m : ℕ} {e : Int} {hm : 0 < m}
    (h : (x / y).toModel.unpack = .finite s m e hm) :
    ∃ (m : ℕ) (e : Int) (hm : 0 < m), y.toModel.unpack = .finite .positive m e hm := by
  have hzero : ∀ t, (Float.Model.pack (.zero t)).unpack = .zero t := unpack_pack_zero
  have hnone : (Float.Model.pack .notANumber).unpack = .notANumber := rfl
  have h : (Float.Model.pack (.div Format.binary64 x.toModel.unpack y.toModel.unpack)).unpack = .finite s m e hm := h
  rw [le_iff_unpack] at hy
  cases hu : y.toModel.unpack with
  | notANumber =>
    have hdiv : ∀ u, UnpackedFloat.div Format.binary64 u .notANumber = .notANumber := by
      intro u
      cases u <;> rfl
    rw [hu, hdiv, hnone] at h
    cases h
  | zero t =>
    rw [hu] at hy
    exact absurd rfl hy
  | infinity t =>
    cases t with
    | negative =>
      rw [hu] at hy
      exact absurd rfl hy
    | positive =>
      rw [hu] at h
      cases hv : x.toModel.unpack with
      | notANumber | infinity r =>
        rw [hv] at h
        exact absurd (hnone.symm.trans h) nofun
      | zero r | finite r m e hm =>
        rw [hv] at h
        exact absurd ((hzero _).symm.trans h) nofun
  | finite t m e hm =>
    cases t with
    | negative =>
      rw [hu] at hy
      exact absurd rfl hy
    | positive => exact ⟨m, e, hm, rfl⟩

/-- Nothing is left of a number less itself, and no share of that. -/
theorem sub_div_self {x y : Float} {s : Sign} {m : ℕ} {e : Int} {hm : 0 < m}
    (hx : x.toModel.unpack = .finite s m e hm) (hzero : ∀ t, y.toModel.unpack ≠ .zero t)
    (hnumber : y.toModel.unpack ≠ .notANumber) : x - (x - x) / y = x := by
  have hself : (x - x).toModel.unpack = .zero .positive := by
    show (Float.Model.pack (.sub Format.binary64 x.toModel.unpack x.toModel.unpack)).unpack = _
    rw [hx]
    show (Float.Model.pack (.normalize Format.binary64 (_ - _) _ .positive)).unpack = _
    rw [Int.sub_self]
    exact unpack_pack_zero .positive
  have hshare : ∃ t, ((x - x) / y).toModel.unpack = .zero t := by
    show ∃ t, (Float.Model.pack (.div Format.binary64 (x - x).toModel.unpack y.toModel.unpack)).unpack = .zero t
    rw [hself]
    cases hy : y.toModel.unpack with
    | notANumber => exact absurd hy hnumber
    | zero t => exact absurd hy (hzero t)
    | infinity t | finite t m e hm => exact ⟨_, unpack_pack_zero _⟩
  obtain ⟨t, ht⟩ := hshare
  refine eq_of_unpack ?_
  show (Float.Model.pack (.sub Format.binary64 x.toModel.unpack ((x - x) / y).toModel.unpack)).unpack = _
  have hsub : UnpackedFloat.sub Format.binary64 x.toModel.unpack (.zero t) = x.toModel.unpack := by
    rw [hx]
    rfl
  rw [ht, hsub]
  exact congrArg (UnpackedFloat.unpack Format.binary64) (pack_unpack_toModel x)

end Tremor.Number
