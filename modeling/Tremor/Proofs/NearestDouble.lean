import Tremor.Proofs.Rounding

/-!
# Reading a decimal as the nearest double

Small whole numbers are divided by a power of ten from a table, the others go through a long division; either way a
decimal is read as the double in whose interval it lies.

- `unpack_toFloat`, `unpack_powerOfTen` : the whole numbers and the powers of ten that are doubles
- `ofFloat_ofScientific` : a quotient by a power of ten is read as the double in whose interval it lies
- `nearest_eq` : so is a decimal
-/

namespace Tremor.Number

open Float.Model (UnpackedFloat Format)
open Float.Model.UnpackedFloat

/-! ## Whole numbers and powers of ten -/

/-- Parts that fit are kept in a word. -/
theorem unpack_pack {significand : ℕ} {exponent : Int} (hf : Fits significand exponent) (hpos : 0 < significand)
    (negative : Bool) :
    (Float.Model.pack (.finite (signOf negative) significand exponent hpos)).unpack =
      .finite (signOf negative) significand exponent hpos := by
  have h := unpack_eq ⟨Float.Model.pack (.finite (signOf negative) significand exponent hpos)⟩
  rw [ofFloat_pack hf hpos] at h
  rw [h, Binary64.unpacked, dif_pos hpos]

/-- A whole number of at most 53 bits fits in units of any power of two that is neither too small nor too large. -/
theorem exists_fits {m : ℕ} (hm : 0 < m) (hlt : m < 0x20000000000000) {j : Int} (hlow : -1000 ≤ j) (hhigh : j ≤ 900) :
    ∃ (significand : ℕ) (exponent : Int), 0 < significand ∧ Fits significand exponent ∧
      (significand : ℚ) * 2 ^ exponent = m * 2 ^ j := by
  have hlog : m.log2 ≤ 52 := by
    have := (Nat.log2_lt hm.ne').mpr (show m < 2 ^ 53 from hlt)
    omega
  have hshift := log2_shiftLeft hm (52 - m.log2)
  have hpos : 0 < m <<< (52 - m.log2) := by
    rw [Nat.shiftLeft_eq]
    exact Nat.mul_pos hm (Nat.two_pow_pos _)
  have h52 : (m <<< (52 - m.log2)).log2 = 52 := by omega
  obtain ⟨hleading, hbelow⟩ := (Nat.log2_eq_iff hpos.ne').mp h52
  exact ⟨_, j - (52 - m.log2 : ℕ), hpos, ⟨hbelow, by omega, by omega, Or.inr hleading⟩, cast_shiftLeft_mul m _ j⟩

/-- A whole number of at most 53 bits is a double. -/
theorem unpack_toFloat {m : ℕ} (hm : 0 < m) (hlt : m < 0x20000000000000) :
    ∃ (significand : ℕ) (exponent : Int) (hpos : 0 < significand),
      m.toUInt64.toFloat.toModel.unpack = .finite .positive significand exponent hpos ∧
        (significand : ℚ) * 2 ^ exponent = m := by
  obtain ⟨significand, exponent, hpos, hf, hvalue⟩ :=
    exists_fits hm hlt (show -1000 ≤ (0 : Int) by decide) (by decide)
  have hround := rounds_self exponent hpos
  rw [hvalue] at hround
  have hnat : m.toUInt64.toNat = m := by
    rw [Nat.toUInt64, UInt64.toNat_ofNat']
    exact Nat.mod_eq_of_lt (by omega)
  have hmodel : m.toUInt64.toFloat.toModel =
      Float.Model.pack (.finite .positive significand exponent hpos) := by
    show Float.Model.pack (UnpackedFloat.normalize Format.binary64 (m.toUInt64.toNat : Int) 0 .positive) = _
    have hc : compare (m : Int) 0 = .gt := Int.compare_eq_gt.mpr (by omega)
    rw [hnat, UnpackedFloat.normalize, hc]
    exact congrArg Float.Model.pack (round_eq hm hround hf hpos)
  refine ⟨_, _, hpos, ?_, by simpa using hvalue⟩
  rw [hmodel]
  exact unpack_pack hf hpos false

/-- The powers of ten that are doubles. -/
theorem unpack_powerOfTen : ∀ k : Fin 23, ∃ (significand : ℕ) (exponent : Int) (hpos : 0 < significand),
    (Float.exactlyRepresentablePowersOfTen[k]).toModel.unpack = .finite .positive significand exponent hpos ∧
      (significand : ℚ) * 2 ^ exponent = 10 ^ (k : ℕ) := by
  intro k
  have htable : ∀ k : Fin 23, Binary64.ofFloat Float.exactlyRepresentablePowersOfTen[k] =
      .finite false (10 ^ (k : ℕ) * 2 ^ (52 - (10 ^ (k : ℕ)).log2) / 2 ^ ((10 ^ (k : ℕ)).log2 - 52))
        ((10 ^ (k : ℕ)).log2 - 52) ∧
      2 ^ ((10 ^ (k : ℕ)).log2 - 52) ∣ 10 ^ (k : ℕ) * 2 ^ (52 - (10 ^ (k : ℕ)).log2) := by
    decide +kernel
  obtain ⟨hk, hdvd⟩ := htable k
  have hpos : 0 < 10 ^ (k : ℕ) * 2 ^ (52 - (10 ^ (k : ℕ)).log2) / 2 ^ ((10 ^ (k : ℕ)).log2 - 52) :=
    Nat.div_pos (Nat.le_of_dvd (by positivity) hdvd) (Nat.two_pow_pos _)
  refine ⟨_, ((10 ^ (k : ℕ)).log2 : Int) - 52, hpos, ?_, ?_⟩
  · rw [unpack_eq, hk, Binary64.unpacked, dif_pos hpos]
    rfl
  · obtain ⟨c, hc⟩ := hdvd
    rw [hc, Nat.mul_div_cancel_left c (Nat.two_pow_pos _)]
    have he : (((10 ^ (k : ℕ)).log2 : Int) - 52) =
        (((10 ^ (k : ℕ)).log2 - 52 : ℕ) : Int) - ((52 - (10 ^ (k : ℕ)).log2 : ℕ) : Int) := by omega
    have hc' : (10 : ℚ) ^ (k : ℕ) * 2 ^ (52 - (10 ^ (k : ℕ)).log2) = 2 ^ ((10 ^ (k : ℕ)).log2 - 52) * c := by
      exact_mod_cast hc
    rw [he, zpow_sub₀ (by norm_num), zpow_natCast, zpow_natCast, ← mul_div_assoc, div_eq_iff (by positivity), hc']
    ring

/-! ## Quotients by a power of ten -/

/-- A number that rounds to a double is not below half of the least one. -/
theorem Rounds.least_le {significand : ℕ} {exponent : Int} {q : ℚ} (h : Rounds significand exponent q)
    (hf : Fits significand exponent) (hpos : 0 < significand) : (2 : ℚ) ^ (-1075 : Int) ≤ q := by
  have hp : (0 : ℚ) < 2 ^ exponent := zpow_pos (by norm_num) exponent
  have hlow := (h.bounds hpos).1.1
  rw [le_div_iff₀ hp] at hlow
  have hone : (1 : ℚ) ≤ significand := by exact_mod_cast hpos
  have he := hf.le_exponent
  calc (2 : ℚ) ^ (-1075 : Int) ≤ 2 ^ (exponent - 1) := zpow_le_zpow_right₀ (by norm_num) (by omega)
    _ = 1 / 2 * 2 ^ exponent := by
      rw [zpow_sub₀ (by norm_num)]
      ring
    _ ≤ (significand - 1 / 2) * 2 ^ exponent := by
      gcongr
      linarith
    _ ≤ q := hlow

/-- A number that rounds to a double is below the first power of two that is none. -/
theorem Rounds.lt_greatest {significand : ℕ} {exponent : Int} {q : ℚ} (h : Rounds significand exponent q)
    (hf : Fits significand exponent) (hpos : 0 < significand) : q < (2 : ℚ) ^ (1024 : Int) := by
  have hp : (0 : ℚ) < 2 ^ exponent := zpow_pos (by norm_num) exponent
  have hhigh := (h.bounds hpos).1.2.1
  rw [div_le_iff₀ hp] at hhigh
  have hone : (significand : ℚ) + 1 ≤ 2 ^ (53 : Int) := by exact_mod_cast hf.significand_lt
  have he := hf.exponent_le
  calc q ≤ (significand + 1 / 2) * 2 ^ exponent := hhigh
    _ < 2 ^ (53 : Int) * 2 ^ exponent := by
      gcongr
      linarith
    _ = 2 ^ (53 + exponent) := (zpow_add₀ (by norm_num) _ _).symm
    _ ≤ 2 ^ (1024 : Int) := zpow_le_zpow_right₀ (by norm_num) (by omega)

/-- The general way of reading a quotient by a power of ten. -/
theorem ofScientific_eq {m k significand : ℕ} {exponent : Int} (hm : 0 < m)
    (h : Rounds significand exponent ((m : ℚ) / 10 ^ k)) (hf : Fits significand exponent) (hpos : 0 < significand) :
    UnpackedFloat.ofScientific Format.binary64 m (Int.negOfNat k) = .finite .positive significand exponent hpos := by
  have hneg : Int.negOfNat k = -(k : Int) := Int.negOfNat_eq
  have hbits : (2 : Int) ^ Format.binary64.exponentBits = 2048 := rfl
  rw [UnpackedFloat.ofScientific, hneg, hbits, dif_neg hm.ne', if_neg (by omega)]
  have hlarge : ¬ -(k : Int) < -(2048 + (m.log2 : Int)) := by
    intro hlt
    have hmlt : (m : ℚ) < 2 ^ (m.log2 + 1) := by exact_mod_cast Nat.lt_log2_self
    have hten : (2 : ℚ) ^ k ≤ 10 ^ k := pow_le_pow_left₀ (by norm_num) (by norm_num) k
    have hq : (m : ℚ) / 10 ^ k < 2 ^ (-1075 : Int) := by
      rw [div_lt_iff₀ (by positivity)]
      calc (m : ℚ) < 2 ^ (m.log2 + 1) := hmlt
        _ = 2 ^ ((m.log2 + 1 : ℕ) : Int) := (zpow_natCast _ _).symm
        _ ≤ 2 ^ ((-1075 : Int) + k) := zpow_le_zpow_right₀ (by norm_num) (by omega)
        _ = 2 ^ (-1075 : Int) * 2 ^ k := by rw [zpow_add₀ (by norm_num), zpow_natCast]
        _ ≤ 2 ^ (-1075 : Int) * 10 ^ k := by gcongr
    exact absurd (h.least_le hf hpos) (not_le.mpr hq)
  have hmantissa : Format.binary64.mantissaBits = 53 := rfl
  rw [if_neg hlarge]
  by_cases hnonneg : 0 ≤ -(k : Int)
  · -- there is no power of ten
    have hk : k = 0 := by omega
    have hten : 10 ^ (-(k : Int)).toNat = 1 := by rw [hk]; rfl
    rw [if_pos hnonneg]
    refine mul_eq _ _ ?_ ?_ hf hpos
    · rw [hten, hmantissa, Nat.mul_one, lastPlace, log2_shiftLeft hm]
      omega
    · have hvalue : ((m <<< 53 * 1 : ℕ) : ℚ) * 2 ^ (-((53 : ℕ) : Int) + 0) = (m : ℚ) / 10 ^ k := by
        rw [Nat.mul_one, Nat.shiftLeft_eq, hk, Int.add_zero, zpow_neg, zpow_natCast]
        push_cast
        field_simp
        norm_num
      rw [hten, hmantissa, hvalue]
      exact h
  · have hten : (- -(k : Int)).toNat = k := by omega
    rw [if_neg hnonneg]
    refine div_eq hm _ ?_ hf hpos
    rw [hten]
    simpa using h

/-- A quotient by a power of ten is read as the double in whose interval it lies. -/
theorem ofFloat_ofScientific {m k significand : ℕ} {exponent : Int} (hm : 0 < m)
    (h : Rounds significand exponent ((m : ℚ) / 10 ^ k)) (hf : Fits significand exponent) (hpos : 0 < significand) :
    Binary64.ofFloat (Float.ofScientific m true k) = .finite false significand exponent := by
  have hfinite := ofFloat_pack hf hpos false
  unfold Float.ofScientific
  split
  · rename_i hsmall
    obtain ⟨m', e', hm', hunpack, hvalue⟩ := unpack_toFloat hm hsmall.1
    obtain ⟨t, f, ht, hunpack', hvalue'⟩ := unpack_powerOfTen ⟨k, by omega⟩
    have hdiv : UnpackedFloat.div Format.binary64 (.finite .positive m' e' hm') (.finite .positive t f ht) =
        .finite .positive significand exponent hpos := by
      refine div_eq hm' ht ?_ hf hpos
      rw [hvalue, hvalue']
      exact h
    have hquotient : ∀ power : Float, power.toModel.unpack = .finite .positive t f ht →
        Binary64.ofFloat (m.toUInt64.toFloat / power) = .finite false significand exponent := by
      intro power hpower
      show Binary64.ofFloat ⟨Float.Model.pack (UnpackedFloat.div Format.binary64
        m.toUInt64.toFloat.toModel.unpack power.toModel.unpack)⟩ = _
      rw [hunpack, hpower, hdiv]
      exact hfinite
    exact hquotient _ hunpack'
  · show Binary64.ofFloat ⟨Float.Model.pack (UnpackedFloat.ofScientific Format.binary64 m (Int.negOfNat k))⟩ = _
    rw [ofScientific_eq hm h hf hpos]
    exact hfinite

/-! ## Decimals -/

/-- The number of digits tells the size of a number. -/
theorem decimalDigits_bounds {n : ℕ} (hn : 0 < n) :
    10 ^ ((decimalDigits n).length - 1) ≤ n ∧ n < 10 ^ (decimalDigits n).length := by
  have hlen : 0 < (decimalDigits n).length := Nat.length_toDigits_pos
  refine ⟨?_, (Nat.length_toDigits_le_iff (by decide) hlen).mp (Nat.le_refl _)⟩
  rcases Nat.eq_zero_or_pos ((decimalDigits n).length - 1) with h | h
  · rw [h]
    exact hn
  · refine Nat.not_lt.mp fun hlt => ?_
    have hle : (decimalDigits n).length ≤ (decimalDigits n).length - 1 :=
      (Nat.length_toDigits_le_iff (by decide) h).mpr hlt
    omega

@[simp]
theorem cast_tenTo (n : ℕ) : ((tenTo n : ℕ) : ℚ) = 10 ^ n := Nat.cast_pow 10 n

/-- A power as a quotient of powers with natural exponents, one of which is zero. -/
theorem zpow_eq_div {base : ℚ} (hb : base ≠ 0) (e : Int) : base ^ e = base ^ e.toNat / base ^ (-e).toNat := by
  rw [← zpow_natCast base, ← zpow_natCast base, ← zpow_sub₀ hb]
  congr 1
  omega

/-- The value of a decimal. -/
def Decimal.value (d : Decimal) : ℚ := d.digits * 10 ^ d.exponent

/-- The number of digits and the exponent tell the size of a decimal. -/
theorem Decimal.value_bounds {d : Decimal} (hd : 0 < d.digits) :
    (10 : ℚ) ^ (((decimalDigits d.digits).length : Int) - 1 + d.exponent) ≤ d.value ∧
      d.value < 10 ^ (((decimalDigits d.digits).length : Int) + d.exponent) := by
  have hten : (0 : ℚ) < 10 ^ d.exponent := zpow_pos (by norm_num) _
  obtain ⟨hlow, hhigh⟩ := decimalDigits_bounds hd
  have hlen : 0 < (decimalDigits d.digits).length := Nat.length_toDigits_pos
  generalize (decimalDigits d.digits).length = len at hlow hhigh hlen ⊢
  constructor
  · have he : (len : Int) - 1 = ((len - 1 : ℕ) : Int) := by omega
    rw [he, zpow_add₀ (by norm_num), zpow_natCast, Decimal.value]
    refine mul_le_mul_of_nonneg_right ?_ hten.le
    exact_mod_cast hlow
  · rw [zpow_add₀ (by norm_num), zpow_natCast, Decimal.value]
    refine mul_lt_mul_of_pos_right ?_ hten
    exact_mod_cast hhigh

/-- What is too small for any double, by powers of ten and of two. -/
theorem ten_zpow_le_least : (10 : ℚ) ^ (-330 : Int) ≤ 2 ^ (-1075 : Int) := by
  have hnat : 2 ^ 1075 ≤ 10 ^ 330 := by decide +kernel
  have hpow : (2 : ℚ) ^ 1075 ≤ 10 ^ 330 := by exact_mod_cast hnat
  rw [zpow_neg, zpow_neg]
  exact inv_anti₀ (by positivity) (by exact_mod_cast hpow)

/-- What is too great for any double. -/
theorem greatest_le_ten_zpow : (2 : ℚ) ^ (1024 : Int) ≤ 10 ^ (310 : Int) := by
  have hnat : 2 ^ 1024 ≤ 10 ^ 310 := by decide +kernel
  exact_mod_cast hnat

/-- A decimal that rounds to a double is neither too small nor too great to be read. -/
theorem Rounds.size_bounds {significand : ℕ} {exponent : Int} {d : Decimal} (h : Rounds significand exponent d.value)
    (hf : Fits significand exponent) (hpos : 0 < significand) :
    d.digits ≠ 0 ∧ -330 ≤ ((decimalDigits d.digits).length : Int) + d.exponent ∧
      ((decimalDigits d.digits).length : Int) + d.exponent ≤ 310 := by
  have hleast := h.least_le hf hpos
  have hgreatest := h.lt_greatest hf hpos
  have h0 : d.digits ≠ 0 := by
    intro h0
    rw [Decimal.value, h0, Nat.cast_zero, zero_mul] at hleast
    exact absurd hleast (not_le.mpr (zpow_pos (by norm_num) _))
  obtain ⟨hlow, hhigh⟩ := Decimal.value_bounds (Nat.pos_of_ne_zero h0)
  refine ⟨h0, ?_, ?_⟩
  · by_contra hlt
    have hsmall := zpow_le_zpow_right₀ (show (1 : ℚ) ≤ 10 by norm_num) (Int.le_of_lt (not_le.mp hlt))
    exact absurd (hleast.trans_lt hhigh) (not_lt.mpr (hsmall.trans ten_zpow_le_least))
  · by_contra hlt
    have hlarge : (10 : ℚ) ^ (310 : Int) ≤ 10 ^ (((decimalDigits d.digits).length : Int) - 1 + d.exponent) :=
      zpow_le_zpow_right₀ (by norm_num) (by omega)
    exact absurd (hlow.trans_lt hgreatest) (not_lt.mpr (greatest_le_ten_zpow.trans hlarge))

theorem ofFloat_neg {x : Float} {significand : ℕ} {exponent : Int} (hpos : 0 < significand)
    (h : Binary64.ofFloat x = .finite false significand exponent) :
    Binary64.ofFloat (-x) = .finite true significand exponent := by
  have hunpack := unpack_eq x
  rw [h, Binary64.unpacked, dif_pos hpos] at hunpack
  show Binary64.ofFloat ⟨Float.Model.pack x.toModel.unpack.neg⟩ = _
  rw [hunpack]
  exact ofFloat_pack (fits_ofFloat h) hpos true

/-- A decimal is read as the double in whose interval it lies. -/
theorem nearest_eq {negative : Bool} {significand : ℕ} {exponent : Int} {x : Float} {d : Decimal}
    (hx : Binary64.ofFloat x = .finite negative significand exponent) (hpos : 0 < significand)
    (h : Rounds significand exponent d.value) : nearest negative d = x := by
  have hf := fits_ofFloat hx
  obtain ⟨h0, hlow, hhigh⟩ := h.size_bounds hf hpos
  have hvalue : d.value = ((d.digits * tenTo d.exponent.toNat : ℕ) : ℚ) / 10 ^ (-d.exponent).toNat := by
    rw [Decimal.value, zpow_eq_div (by norm_num), Nat.cast_mul, cast_tenTo]
    exact (mul_div_assoc _ _ _).symm
  have hdigits : 0 < d.digits * tenTo d.exponent.toNat :=
    Nat.mul_pos (Nat.pos_of_ne_zero h0) (Nat.pow_pos (by decide))
  rw [hvalue] at h
  have hread := ofFloat_ofScientific hdigits h hf hpos
  refine (ofFloat_inj ?_).symm
  simp only [nearest]
  have hsmall : ¬ (d.digits = 0 ∨ ((decimalDigits d.digits).length : Int) + d.exponent < -330) := by
    rintro (h | h)
    · exact h0 h
    · omega
  have hlarge : ¬ 310 < ((decimalDigits d.digits).length : Int) + d.exponent := by omega
  rw [if_neg hsmall, if_neg hlarge, hx]
  cases negative with
  | false => exact hread.symm
  | true => exact (ofFloat_neg hpos hread).symm

end Tremor.Number
