import Mathlib.Tactic.Qify
import Tremor.Proofs.FaithfulRounding

/-!
# Doubles near a rational

The whole numbers of at most 53 bits are doubles, in units of any power of two that is neither too small nor too large.
So a number that is not too large has doubles close by on either side; what it is rounded to lies between these, and its
integer part between the same whole numbers.

- `exists_hasValue_mul` : whole numbers of a unit
- `faithful_ofInt64`, `hasValue_ofInt64` : 64-bit integers
- `faithful_toFloat`, `hasValue_toFloat` : natural numbers
- `Faithful.near`, `Faithful.abs_lt_of_abs_lt` : what is not too large is off by less than a fraction
- `toInt_truncate`, `Faithful.truncate_mem` : the integer part of a double
- `hasValue_floor`, `hasValue_ceil` : the whole doubles on either side
-/

namespace Tremor.Number

open Float.Model (UnpackedFloat Format)

variable {x y z : Float} {v w q : ℚ}

/-! ## Doubles near a rational -/

/-- A double that stands for a rational is what the rational is rounded to. -/
theorem Faithful.hasValue (h : Faithful z q) (hx : HasValue x q) : HasValue z q := by
  obtain ⟨u, hz, hlow, hhigh⟩ := exists_hasValue_between hx hx (h.le_of_le hx (le_refl q)) (h.ge_of_ge hx (le_refl q))
  rwa [le_antisymm hhigh hlow] at hz

/-- Whole numbers of at most 53 bits are doubles, in units of any power of two that is neither too small nor too
large. -/
theorem exists_hasValue_mul {i j : Int} (hi : |i| < 0x20000000000000) (hlow : -1000 ≤ j) (hhigh : j ≤ 900) :
    ∃ x, HasValue x (i * 2 ^ j) := by
  rcases eq_or_ne i 0 with rfl | hne
  · have hz : HasValue ⟨Float.Model.pack (.zero .positive)⟩ 0 := hasValue_of_zero (unpack_pack_zero _)
    rw [Int.cast_zero, zero_mul]
    exact ⟨_, hz⟩
  · obtain ⟨hi, hi'⟩ := abs_lt.mp hi
    obtain ⟨m, e, hm, hf, hvalue⟩ := exists_fits (m := i.natAbs) (by omega) (by omega) hlow hhigh
    rw [Nat.cast_natAbs] at hvalue
    rcases lt_or_gt_of_ne hne with hneg | hpos
    · have hz := hasValue_pack (s := .negative) hf hm
      have hopposite : signed .negative (((-i : Int) : ℚ) * 2 ^ j) = i * 2 ^ j := by simp [signed]
      rw [hvalue, abs_of_neg hneg, hopposite] at hz
      exact ⟨_, hz⟩
    · have hz := hasValue_pack (s := .positive) hf hm
      rw [hvalue, abs_of_pos hpos] at hz
      exact ⟨_, hz⟩

theorem exists_hasValue_whole {i : Int} (hi : |i| < 0x20000000000000) : ∃ x, HasValue x i := by
  simpa using exists_hasValue_mul hi (show -1000 ≤ (0 : Int) by decide) (by decide)

/-- Rounding does not depend on the sign. -/
theorem Faithful.neg (h : Faithful z q) (hz : HasValue z v) : Faithful (-z) (-q) where
  le_of_le hx hle := by
    have hge := (le_iff_of_hasValue hz hx.neg).mp (h.ge_of_ge hx.neg (le_neg_of_le_neg hle))
    exact (le_iff_of_hasValue hx hz.neg).mpr (le_neg_of_le_neg hge)
  ge_of_ge hx hge := by
    have hle := (le_iff_of_hasValue hx.neg hz).mp (h.le_of_le hx.neg (neg_le_of_neg_le hge))
    exact (le_iff_of_hasValue hz.neg hx).mpr (neg_le_of_neg_le hle)

/-- The word of a negative number without its sign, the least one among them. -/
theorem toNat_zero_sub {i : Int64} (hneg : i.toInt < 0) : ((0 - i).toUInt64.toNat : Int) = -i.toInt := by
  show ((0#64 - i.toBitVec).toNat : Int) = -i.toBitVec.toInt
  change i.toBitVec.toInt < 0 at hneg
  have hlt := i.toBitVec.isLt
  rw [BitVec.toInt_eq_toNat_cond] at hneg ⊢
  rw [BitVec.toNat_sub]
  split at hneg
  · omega
  · rw [if_neg (by assumption)]
    simp
    omega

/-- A 64-bit integer becomes what it is rounded to. -/
theorem faithful_ofInt64 (i : Int64) : Faithful (ofInt64 i) i.toInt := by
  have hnat : ∀ u : UInt64, Faithful u.toFloat u.toNat := by
    intro u
    have hfaithful : Faithful u.toFloat ((u.toNat : Int) * 2 ^ (0 : Int)) := faithful_normalize u.toNat 0 .positive
    simpa using hfaithful
  unfold ofInt64
  by_cases hneg : i < 0
  · rw [if_pos hneg]
    rw [Int64.lt_iff_toInt_lt, Int64.toInt_zero] at hneg
    have hminus : (((0 - i).toUInt64.toNat : ℕ) : ℚ) = -i.toInt := by exact_mod_cast toNat_zero_sub hneg
    have hlarge : (((0 - i).toUInt64.toNat : ℕ) : ℚ) ≤ 2 ^ 64 := by
      exact_mod_cast (0 - i).toUInt64.toNat_lt.le
    have hfaithful := hnat (0 - i).toUInt64
    obtain ⟨x, hx⟩ := exists_hasValue_whole (i := 0) (by decide)
    obtain ⟨y, hy⟩ := exists_hasValue_mul (i := 1) (by decide) (show -1000 ≤ (64 : Int) by decide) (by decide)
    obtain ⟨v, hv, -⟩ := exists_hasValue_between hx hy (hfaithful.le_of_le hx (by simp))
      (hfaithful.ge_of_ge hy (by simpa using hlarge))
    have hminus' := hfaithful.neg hv
    rwa [hminus, neg_neg] at hminus'
  · rw [if_neg hneg]
    have hle := Int64.not_lt.mp hneg
    have hplus : ((i.toUInt64.toNat : ℕ) : ℚ) = i.toInt := by
      rw [Int64.toNat_toUInt64_of_le hle]
      rw [Int64.le_iff_toInt_le, Int64.toInt_zero] at hle
      exact_mod_cast Int.toNat_of_nonneg hle
    exact hplus ▸ hnat i.toUInt64

/-- A natural number becomes what it is rounded to, too. -/
theorem faithful_toFloat (n : ℕ) : Faithful n.toFloat n := by
  have hscientific : n.toFloat = Float.ofScientific n false 0 := rfl
  rw [hscientific, Float.ofScientific]
  split
  · rename_i hsmall
    have hword : n.toUInt64.toNat = n := by
      rw [Nat.toUInt64, UInt64.toNat_ofNat']
      exact Nat.mod_eq_of_lt (by omega)
    have hfaithful : Faithful n.toUInt64.toFloat ((n.toUInt64.toNat : Int) * 2 ^ (0 : Int)) :=
      faithful_normalize n.toUInt64.toNat 0 .positive
    rw [hword, zpow_zero, mul_one] at hfaithful
    obtain ⟨x, hx⟩ := exists_hasValue_whole (i := n) (abs_lt.mpr (by omega))
    have hone : HasValue Float.exactlyRepresentablePowersOfTen[0] 1 := hasValue_one
    have hmul := faithful_mul (hfaithful.hasValue hx) hone
    simpa using hmul
  · rename_i hlarge
    have hpos : 0 < n := by omega
    have hbits : (2 : Int) ^ Format.binary64.exponentBits = 2048 := rfl
    change Faithful ⟨Float.Model.pack (UnpackedFloat.ofScientific Format.binary64 n (0 : Int))⟩ n
    rw [UnpackedFloat.ofScientific, hbits, dif_neg hpos.ne', if_neg (by omega), if_neg (by omega), if_pos (le_refl _)]
    -- a significand that is shifted so far loses no place
    have hlast : -((53 : ℕ) : Int) + 0 ≤ lastPlace (n <<< 53 * 1) (-((53 : ℕ) : Int) + 0) := by
      rw [Nat.mul_one, lastPlace, log2_shiftLeft hpos]
      omega
    have hvalue : signed .positive ((n <<< 53 : ℕ) * 2 ^ (-((53 : ℕ) : Int))) *
        signed .positive ((1 : ℕ) * 2 ^ (0 : Int)) = n := by
      simp only [signed, Nat.shiftLeft_eq, zpow_neg, zpow_natCast]
      push_cast
      field_simp
      norm_num
    rw [← hvalue]
    exact faithful_mul_parts _ _ hlast

/-- A 64-bit integer of at most 53 bits is kept as a double. -/
theorem hasValue_ofInt64 {i : Int64} (hi : |i.toInt| < 0x20000000000000) : HasValue (ofInt64 i) i.toInt := by
  obtain ⟨x, hx⟩ := exists_hasValue_whole hi
  exact (faithful_ofInt64 i).hasValue hx

/-- So is a natural number. -/
theorem hasValue_toFloat {n : ℕ} (hn : n < 0x20000000000000) : HasValue n.toFloat n := by
  obtain ⟨x, hx⟩ := exists_hasValue_whole (i := n) (abs_lt.mpr (by omega))
  exact (faithful_toFloat n).hasValue hx

theorem hasValue_thousand : HasValue 1000.0 1000 := by
  have hunpack : (1000.0 : Float).toModel.unpack = .finite .positive 8796093022208000 (-43) (by decide) := rfl
  convert hasValue_of_unpack hunpack using 1
  norm_num [signed]

/-- Every number that is not too large is just below a double. -/
theorem exists_hasValue_ceil (hq : |q| ≤ 2 ^ 40) : ∃ x v, HasValue x v ∧ q ≤ v ∧ v < q + 1 / 4096 := by
  obtain ⟨hlow, hhigh⟩ := abs_le.mp hq
  have hle := Int.le_ceil (q * 4096)
  have hlt := Int.ceil_lt_add_one (q * 4096)
  generalize ⌈q * 4096⌉ = i at hle hlt
  have hi : |i| < 0x20000000000000 := by
    rw [abs_lt]
    constructor <;> (qify; linarith)
  obtain ⟨x, hx⟩ := exists_hasValue_mul hi (show -1000 ≤ (-12 : Int) by decide) (by decide)
  have hunit : (i : ℚ) * 2 ^ (-12 : Int) = i / 4096 := by
    rw [zpow_neg]
    norm_num
    ring
  rw [hunit] at hx
  refine ⟨x, _, hx, ?_, ?_⟩ <;> linarith

/-- Every number that is not too large is just above a double. -/
theorem exists_hasValue_floor (hq : |q| ≤ 2 ^ 40) : ∃ x v, HasValue x v ∧ v ≤ q ∧ q - 1 / 4096 < v := by
  obtain ⟨x, v, hx, hle, hlt⟩ := exists_hasValue_ceil (q := -q) (by rwa [abs_neg])
  exact ⟨-x, -v, hx.neg, by linarith, by linarith⟩

/-- What is not too large is off by less than a fraction. -/
theorem Faithful.near (h : Faithful z q) (hq : |q| ≤ 2 ^ 40) : ∃ v, HasValue z v ∧ |v - q| < 1 / 4096 := by
  obtain ⟨x, v, hx, hle, hlt⟩ := exists_hasValue_floor hq
  obtain ⟨y, w, hy, hle', hlt'⟩ := exists_hasValue_ceil hq
  obtain ⟨u, hz, hlow, hhigh⟩ := exists_hasValue_between hx hy (h.le_of_le hx hle) (h.ge_of_ge hy hle')
  exact ⟨u, hz, abs_lt.mpr ⟨by linarith, by linarith⟩⟩

/-- What becomes small when it is rounded has been hardly larger before. -/
theorem Faithful.abs_lt_of_abs_lt (h : Faithful z q) (hz : HasValue z v) (hv : |v| < w) (hw : w ≤ 2 ^ 40) :
    |q| < w + 1 / 4096 := by
  have hpos : 0 ≤ w := (abs_nonneg v).trans hv.le
  obtain ⟨x, u, hx, hle, hlt⟩ := exists_hasValue_ceil (q := w) (by rwa [abs_of_nonneg hpos])
  obtain ⟨hlow, hhigh⟩ := abs_lt.mp hv
  rw [abs_lt]
  constructor
  · by_contra hge
    have := (le_iff_of_hasValue hz hx.neg).mp (h.ge_of_ge hx.neg (by linarith))
    linarith
  · by_contra hge
    have := (le_iff_of_hasValue hx hz).mp (h.le_of_le hx (by linarith))
    linarith

/-! ## Integer parts -/

/-- The integer part, as far as a 64-bit word goes. -/
theorem truncateNat_of_hasValue (h : HasValue x v) (hv : 0 ≤ v) : truncateNat x = min ⌊v⌋₊ (2 ^ 64 - 1) := by
  have hword : x.toUInt64 = UInt64.ofNatClamp (x.toModel.unpack.toInt 0 (UInt64.size - 1)).toNat := rfl
  have hsize : UInt64.size = 2 ^ 64 := rfl
  have hpart : x.toModel.unpack.toInt 0 (UInt64.size - 1) = ⌊v⌋₊ := by
    unfold HasValue at h
    generalize x.toModel.unpack = u at h
    cases h with
    | zero s => rfl
    | @finite s m e hm hf =>
      cases s with
      | positive => exact roundToInt_floor m e
      | negative =>
        have hw : (0 : ℚ) < m * 2 ^ e := by positivity
        exact absurd hv (not_le.mpr (neg_lt_zero.mpr hw))
  rw [truncateNat, hword, hpart, Int.toNat_natCast, UInt64.ofNatClamp]
  split
  · rw [UInt64.toNat_ofNatLT]
    omega
  · rw [UInt64.toNat_ofNatLT]
    omega

/-- The integer part as a 64-bit word. -/
theorem toNat_toUInt64_of_hasValue (h : HasValue x v) (hv : 0 ≤ v) (hlt : v < 2 ^ 64) : x.toUInt64.toNat = ⌊v⌋₊ := by
  have hfloor : ⌊v⌋₊ < 2 ^ 64 := (Nat.floor_lt hv).mpr (by exact_mod_cast hlt)
  have hpart := truncateNat_of_hasValue h hv
  rw [truncateNat] at hpart
  omega

/-- The integer part of a number that is not too large drops the fraction. -/
theorem toInt_truncate (h : HasValue x v) (hv : |v| < 2 ^ 62) :
    (truncate x).toInt = if v < 0 then ⌈v⌉ else ⌊v⌋ := by
  have hword := toNat_toUInt64_of_hasValue h.abs (abs_nonneg v) (hv.trans (by norm_num))
  have hsmall : ⌊|v|⌋₊ < 2 ^ 62 := (Nat.floor_lt (abs_nonneg v)).mpr (by exact_mod_cast hv)
  have hfits : x.abs.toUInt64 < 0x8000000000000000 := by
    rw [UInt64.lt_iff_toNat_lt, hword]
    exact Nat.lt_of_lt_of_le hsmall (by decide)
  have hcast : ((⌊|v|⌋₊ : ℕ) : Int) = ⌊|v|⌋ := Int.natCast_floor_eq_floor (abs_nonneg v)
  have hplus : x.abs.toUInt64.toInt64.toInt = ⌊|v|⌋ := by
    show x.abs.toUInt64.toBitVec.toInt = _
    rw [BitVec.toInt_eq_toNat_of_lt]
    · exact (congrArg Nat.cast hword).trans hcast
    · show 2 * x.abs.toUInt64.toNat < 2 ^ 64
      omega
  simp only [truncate, if_pos hfits, lt_iff_of_hasValue h hasValue_zero]
  by_cases hneg : v < 0
  · rw [if_pos hneg, if_pos hneg, UInt64.toInt64_sub, Int64.toInt_sub, hplus, abs_of_neg hneg, Int.floor_neg]
    rw [abs_of_neg hneg] at hsmall hcast
    rw [Int.floor_neg] at hcast
    show (0 - -⌈v⌉).bmod (2 ^ 64) = ⌈v⌉
    rw [Int.zero_sub, neg_neg]
    refine Int.bmod_eq_of_le ?_ ?_ <;> omega
  · rw [if_neg hneg, if_neg hneg, hplus, abs_of_nonneg (not_lt.mp hneg)]

/-- The integer part lies between the same whole numbers. -/
theorem toInt_truncate_mem {l u : Int} (h : HasValue x v) (hv : |v| < 2 ^ 62) (hl : (l : ℚ) ≤ v) (hu : v ≤ u) :
    l ≤ (truncate x).toInt ∧ (truncate x).toInt ≤ u := by
  rw [toInt_truncate h hv]
  split
  · exact ⟨by exact_mod_cast hl.trans (Int.le_ceil v), Int.ceil_le.mpr hu⟩
  · exact ⟨Int.le_floor.mpr hl, by exact_mod_cast (Int.floor_le v).trans hu⟩

/-- Rounding does not move the integer part past a whole number. -/
theorem Faithful.truncate_mem {l u : Int} (h : Faithful z q) (hl : |l| < 0x20000000000000) (hu : |u| < 0x20000000000000)
    (hlow : l ≤ q) (hhigh : q ≤ u) : l ≤ (truncate z).toInt ∧ (truncate z).toInt ≤ u := by
  obtain ⟨x, hx⟩ := exists_hasValue_whole hl
  obtain ⟨y, hy⟩ := exists_hasValue_whole hu
  obtain ⟨v, hv, hlow', hhigh'⟩ := exists_hasValue_between hx hy (h.le_of_le hx hlow) (h.ge_of_ge hy hhigh)
  have hsmall : |v| < 2 ^ 62 := by
    have hl' : (-0x20000000000000 : ℚ) < l := by exact_mod_cast (abs_lt.mp hl).1
    have hu' : (u : ℚ) < 0x20000000000000 := by exact_mod_cast (abs_lt.mp hu).2
    rw [abs_lt]
    constructor <;> linarith
  exact toInt_truncate_mem hv hsmall hlow' hhigh'

/-! ## Floor and ceiling -/

theorem hasValue_wholeFrom : HasValue wholeFrom (2 ^ 52) := by
  have hunpack : wholeFrom.toModel.unpack = .finite .positive 0x10000000000000 0 (by decide) := rfl
  have h := hasValue_of_unpack hunpack
  norm_num [signed] at h ⊢
  exact h

/-- Doubles without a fraction bit are whole. -/
theorem HasValue.floor_eq_self (h : HasValue x v) (hv : 2 ^ 52 ≤ |v|) : (⌊v⌋ : ℚ) = v := by
  obtain ⟨m, e, hf, habs⟩ := h.magnitude
  have hlt : (2 : ℚ) ^ (52 : Int) < 2 ^ (53 + e) := by
    have := hf.value_lt
    rw [← habs] at this
    exact lt_of_le_of_lt (by exact_mod_cast hv) this
  have he : 0 ≤ e := by
    have := (zpow_lt_zpow_iff_right₀ (by norm_num : (1 : ℚ) < 2)).mp hlt
    omega
  obtain ⟨n, rfl⟩ := Int.eq_ofNat_of_zero_le he
  have hwhole : |v| = ((m * 2 ^ n : ℕ) : Int) := by
    rw [habs]
    push_cast
    rw [zpow_natCast]
  rcases abs_cases v with ⟨heq, -⟩ | ⟨heq, -⟩
  · rw [heq] at hwhole
    rw [hwhole, Int.floor_intCast]
  · rw [heq, neg_eq_iff_eq_neg] at hwhole
    rw [hwhole, ← Int.cast_neg, Int.floor_intCast]

theorem eq_zero_of_beq (h : HasValue x v) (hx : x == 0) : v = 0 :=
  le_antisymm ((le_iff_of_hasValue h hasValue_zero).mp (le_of_beq hx))
    ((le_iff_of_hasValue hasValue_zero h).mp (le_of_beq (beq_symm hx)))

/-- The integer part is the floor, or one above it where a fraction was dropped from a negative number. -/
theorem floor_eq_of_integerPart {i : Int} (hi : i = if v < 0 then ⌈v⌉ else ⌊v⌋) :
    ⌊v⌋ = if v < i then i - 1 else i := by
  have hceil := Int.ceil_lt_add_one v
  split at hi <;> subst hi
  · split
    · exact Int.floor_eq_iff.mpr ⟨by push_cast; linarith, by push_cast; linarith⟩
    · exact Int.floor_eq_iff.mpr ⟨by linarith, by linarith [Int.le_ceil v]⟩
  · rw [if_neg (not_lt.mpr (Int.floor_le v))]

/-- Rounding down to a whole double gives the floor. -/
theorem hasValue_floor (h : HasValue x v) : HasValue (floor x) ⌊v⌋ := by
  unfold floor
  by_cases hsmall : |v| < 2 ^ 52
  · rw [if_pos ((lt_iff_of_hasValue h.abs hasValue_wholeFrom).mpr hsmall)]
    obtain ⟨hlow, hhigh⟩ := abs_lt.mp hsmall
    have hfloor : -0x10000000000000 ≤ ⌊v⌋ ∧ ⌊v⌋ < 0x10000000000000 :=
      ⟨Int.le_floor.mpr (by push_cast; linarith), Int.floor_lt.mpr (by push_cast; linarith)⟩
    have hpart := floor_eq_of_integerPart (toInt_truncate h (hsmall.trans (by norm_num)))
    have hbound : |(truncate x).toInt| < 0x20000000000000 := by
      rw [abs_lt]
      split at hpart <;> omega
    have hwhole := hasValue_ofInt64 hbound
    simp only
    split
    · rename_i hzero
      have hzero := eq_zero_of_beq h hzero
      simpa [hzero] using h
    · rw [hpart]
      split
      · rename_i hlt
        rw [if_pos ((lt_iff_of_hasValue h hwhole).mp hlt)] at hpart ⊢
        obtain ⟨y, hy⟩ := exists_hasValue_whole (i := (truncate x).toInt - 1) (abs_lt.mpr (by omega))
        have hless := faithful_sub hwhole hasValue_one
        rw [← Int.cast_one, ← Int.cast_sub] at hless
        exact hless.hasValue hy
      · rename_i hnot
        rwa [if_neg fun hlt => hnot ((lt_iff_of_hasValue h hwhole).mpr hlt)]
  · have hlarge : ¬ x.abs < wholeFrom := by rwa [lt_iff_of_hasValue h.abs hasValue_wholeFrom]
    rwa [if_neg hlarge, h.floor_eq_self (not_lt.mp hsmall)]

/-- Rounding up to a whole double gives the ceiling. -/
theorem hasValue_ceil (h : HasValue x v) : HasValue (ceil x) ⌈v⌉ := by
  have hfloor := (hasValue_floor h.neg).neg
  rw [Int.floor_neg, Int.cast_neg, neg_neg] at hfloor
  exact hfloor

/-- A double is finite when its floor is. -/
theorem exists_hasValue_of_floor (h : HasValue (floor x) v) : ∃ u, HasValue x u := by
  unfold floor at h
  split at h
  · rename_i hlt
    exact exists_hasValue_of_abs_mul_lt hasValue_one one_pos ((mul_one_eq x.abs).symm ▸ hlt)
  · exact ⟨v, h⟩

theorem exists_hasValue_of_neg (h : HasValue (-x) v) : ∃ u, HasValue x u := by
  have hunpack : (-x).toModel.unpack = (Float.Model.pack x.toModel.unpack.neg).unpack := rfl
  unfold HasValue at h
  refine exists_hasValue (fun hx => ?_) (fun s hx => ?_)
  · rw [hunpack, hx] at h
    cases h
  · have hneg : (Float.Model.pack (UnpackedFloat.infinity s).neg).unpack = .infinity (-s) := unpack_infinity (-s)
    rw [hunpack, hx, hneg] at h
    cases h

/-- A double is finite when its ceiling is. -/
theorem exists_hasValue_of_ceil (h : HasValue (ceil x) v) : ∃ u, HasValue x u := by
  obtain ⟨u, hu⟩ := exists_hasValue_of_neg h
  obtain ⟨w, hw⟩ := exists_hasValue_of_floor hu
  exact exists_hasValue_of_neg hw

end Tremor.Number
