import Tremor.Number.Double
import Tremor.Number.Reading

/-!
# The parts of a double

A double is computed with by its sign, its significand and its exponent, which stand in the fields of its word.
`Binary64.ofFloat` reads these fields; so a double is known by what they say, and every significand and exponent that
fit are those of a double.

- `unpack_eq` : the parts of a double are what its word stands for
- `Fits`, `fits_ofFloat`, `fits_of_unpack` : the significands and exponents that there are
- `ofFloat_inj`, `eq_of_unpack` : a double is known by its parts
- `ofBits_toBits`, `Double.toFloat_ofFloat` : a word that is stored is read back
- `ofFloat_pack` : parts that fit make up a double
-/

namespace Tremor.Number

open Float.Model (UnpackedFloat Format)
open Float.Model.UnpackedFloat

/-! ## Fields of a word -/

theorem toNat_unpackMantissa (b : BitVec Format.binary64.numBits) :
    (unpackMantissa b).toNat = b.toNat % 0x10000000000000 := by
  simp [unpackMantissa, BitVec.extractLsb_toNat]

theorem toNat_unpackExponent (b : BitVec Format.binary64.numBits) :
    (unpackExponent b).toNat = b.toNat >>> 52 % 2048 := by
  simp [unpackExponent, BitVec.extractLsb_toNat]

theorem toNat_unpackSign (b : BitVec Format.binary64.numBits) :
    (unpackSign b).toNat = b.toNat >>> 63 := by
  have hb : b.toNat < 2 ^ 64 := b.isLt
  show (BitVec.extractLsb 63 63 b).toNat = _
  rw [BitVec.extractLsb_toNat, Nat.shiftRight_eq_div_pow]
  omega

theorem toNat_packComponents (s : Sign) (e : BitVec 11) (m : BitVec 52) :
    (packComponents Format.binary64 s e m).toNat =
      s.toBitVec.toNat * 0x8000000000000000 + e.toNat * 0x10000000000000 + m.toNat := by
  have he := e.isLt
  have hm := m.isLt
  simp only [packComponents, BitVec.toNat_append]
  rw [← Nat.shiftLeft_add_eq_or_of_lt he, ← Nat.shiftLeft_add_eq_or_of_lt hm]
  simp only [Nat.shiftLeft_eq]
  omega

/-! ## Parts -/

/-- The sign that a flag tells. -/
def signOf (negative : Bool) : Sign := if negative then .negative else .positive

/-- The parts that a double is computed with. -/
def Binary64.unpacked : Binary64 → UnpackedFloat
  | .nan => .notANumber
  | .infinite negative => .infinity (signOf negative)
  | .finite negative significand exponent =>
    if h : 0 < significand then .finite (signOf negative) significand exponent h else .zero (signOf negative)

theorem ofBitVec_unpackSign (b : BitVec Format.binary64.numBits) :
    Sign.ofBitVec (unpackSign b) = signOf (decide (0x8000000000000000 ≤ b.toNat)) := by
  have hb : b.toNat < 2 ^ 64 := b.isLt
  have hs := toNat_unpackSign b
  rw [Nat.shiftRight_eq_div_pow] at hs
  by_cases h : 0x8000000000000000 ≤ b.toNat
  · have h1 : unpackSign b = 1#1 := BitVec.eq_of_toNat_eq (by rw [hs]; simp; omega)
    rw [h1, decide_eq_true h]
    rfl
  · have h0 : unpackSign b = 0#1 := BitVec.eq_of_toNat_eq (by rw [hs]; simp; omega)
    rw [h0, decide_eq_false h]
    rfl

theorem toNat_one_append (m : BitVec 52) : (1#1 ++ m).toNat = 0x10000000000000 + m.toNat := by
  have hm := m.isLt
  rw [BitVec.toNat_append, ← Nat.shiftLeft_add_eq_or_of_lt hm]
  simp

/-- The parts of a double are what its word stands for. -/
theorem unpack_eq (x : Float) : x.toModel.unpack = (Binary64.ofFloat x).unpacked := by
  have hm := toNat_unpackMantissa x.toModel.toBits.toBitVec
  have he := toNat_unpackExponent x.toModel.toBits.toBitVec
  have hs := ofBitVec_unpackSign x.toModel.toBits.toBitVec
  have hone := toNat_one_append (@unpackMantissa Format.binary64 x.toModel.toBits.toBitVec)
  have hbits : x.toBits.toNat = x.toModel.toBits.toBitVec.toNat := rfl
  have hexp : ∀ n : BitVec 11, @unpackExponent Format.binary64 x.toModel.toBits.toBitVec = n ↔
      x.toModel.toBits.toBitVec.toNat >>> 52 % 2048 = n.toNat := by
    intro n
    rw [← he, ← BitVec.toNat_inj]
  have hmant : @unpackMantissa Format.binary64 x.toModel.toBits.toBitVec = 0#52 ↔
      x.toModel.toBits.toBitVec.toNat % 0x10000000000000 = 0 := by
    rw [← hm, ← BitVec.toNat_inj]
    rfl
  unfold Float.Model.unpack UnpackedFloat.unpack Binary64.ofFloat
  dsimp only
  rw [hs, hbits]
  by_cases h1 : x.toModel.toBits.toBitVec.toNat >>> 52 % 2048 = 2047
  · rw [if_pos ((hexp (-1#11)).mpr h1), if_pos h1]
    by_cases h0 : x.toModel.toBits.toBitVec.toNat % 0x10000000000000 = 0
    · rw [if_pos (hmant.mpr h0), if_pos h0]
      rfl
    · rw [if_neg fun h => h0 (hmant.mp h), if_neg h0]
      rfl
  · rw [if_neg fun h => h1 ((hexp (-1#11)).mp h), if_neg h1]
    by_cases h2 : x.toModel.toBits.toBitVec.toNat >>> 52 % 2048 = 0
    · rw [if_pos ((hexp 0#11).mpr h2), if_pos h2]
      by_cases h0 : x.toModel.toBits.toBitVec.toNat % 0x10000000000000 = 0
      · rw [dif_pos (hmant.mpr h0), Binary64.unpacked, dif_neg (by omega)]
      · rw [dif_neg fun h => h0 (hmant.mp h), Binary64.unpacked, dif_pos (by omega)]
        rw [UnpackedFloat.finite.injEq, hm, he, h2]
        exact ⟨rfl, rfl, by decide⟩
    · rw [if_neg fun h => h2 ((hexp 0#11).mp h), if_neg h2, Binary64.unpacked, dif_pos (by omega)]
      rw [UnpackedFloat.finite.injEq, hone, hm, he]
      exact ⟨rfl, rfl, rfl⟩

/-! ## Words -/

/-- The word of a double, as a number. -/
def Binary64.word : Binary64 → Nat
  | .nan => 0x7ff8000000000000
  | .infinite negative => (if negative then 0x8000000000000000 else 0) + 0x7ff0000000000000
  | .finite negative significand exponent =>
    (if negative then 0x8000000000000000 else 0) + ((exponent + 1074).toNat * 0x10000000000000 + significand)

/-- The word of a double is made of its parts; there is one NaN. -/
theorem toNat_toBits (x : Float) : x.toBits.toNat = (Binary64.ofFloat x).word := by
  have hlt : x.toBits.toNat < 0x10000000000000000 := x.toBits.toNat_lt
  have hnan : x.toBits.toNat >>> 52 % 2048 = 2047 → x.toBits.toNat % 0x10000000000000 ≠ 0 →
      x.toBits.toNat = 0x7ff8000000000000 := by
    intro he hm
    have hexponent : @unpackExponent Format.binary64 x.toModel.toBits.toBitVec = -1#11 :=
      BitVec.eq_of_toNat_eq ((toNat_unpackExponent _).trans he)
    have hmantissa : @unpackMantissa Format.binary64 x.toModel.toBits.toBitVec ≠ 0#52 := fun h0 =>
      hm ((toNat_unpackMantissa _).symm.trans (congrArg BitVec.toNat h0))
    exact congrArg BitVec.toNat (x.toModel.valid.eq_packedNaN hexponent hmantissa)
  have hsign : ∀ rest : Nat, x.toBits.toNat % 0x8000000000000000 = rest → x.toBits.toNat =
      (if decide (0x8000000000000000 ≤ x.toBits.toNat) then 0x8000000000000000 else 0) + rest := by
    intro rest hrest
    by_cases h : 0x8000000000000000 ≤ x.toBits.toNat
    · rw [decide_eq_true h, if_pos rfl]
      omega
    · rw [decide_eq_false h, if_neg Bool.false_ne_true]
      omega
  simp only [Nat.shiftRight_eq_div_pow] at hnan
  simp only [Binary64.ofFloat, Nat.shiftRight_eq_div_pow]
  split
  · split
    · exact hsign _ (by omega)
    · exact hnan ‹_› ‹_›
  · split
    · exact hsign _ (by omega)
    · exact hsign _ (by omega)

theorem eq_of_toBits {x y : Float} (h : x.toBits = y.toBits) : x = y := by
  obtain ⟨⟨_, _⟩⟩ := x
  obtain ⟨⟨_, _⟩⟩ := y
  cases h
  rfl

/-- A double is known by its parts. -/
theorem ofFloat_inj {x y : Float} (h : Binary64.ofFloat x = Binary64.ofFloat y) : x = y :=
  eq_of_toBits (UInt64.toNat_inj.mp (by rw [toNat_toBits, toNat_toBits, h]))

/-- The significands and exponents of doubles. -/
structure Fits (significand : Nat) (exponent : Int) : Prop where
  significand_lt : significand < 0x20000000000000
  le_exponent : -1074 ≤ exponent
  exponent_le : exponent ≤ 971
  normal : exponent = -1074 ∨ 0x10000000000000 ≤ significand

theorem fits_ofFloat {x : Float} {negative : Bool} {significand : Nat} {exponent : Int}
    (h : Binary64.ofFloat x = .finite negative significand exponent) : Fits significand exponent := by
  have hfraction := Nat.mod_lt x.toBits.toNat (show 0x10000000000000 > 0 by decide)
  have hbiased := Nat.mod_lt (x.toBits.toNat >>> 52) (show 2048 > 0 by decide)
  simp only [Binary64.ofFloat] at h
  split at h
  · split at h <;> cases h
  · split at h
    · cases h
      exact ⟨by omega, by omega, by omega, Or.inl rfl⟩
    · cases h
      exact ⟨by omega, by omega, by omega, Or.inr (by omega)⟩

/-- The significand and the exponent that a finite double is computed with. -/
theorem fits_of_unpack {x : Float} {s : Sign} {m : Nat} {e : Int} {hm : 0 < m}
    (h : x.toModel.unpack = .finite s m e hm) : Fits m e := by
  rw [unpack_eq] at h
  cases hx : Binary64.ofFloat x with
  | nan | infinite negative =>
    rw [hx] at h
    cases h
  | finite negative significand exponent =>
    rw [hx, Binary64.unpacked] at h
    by_cases hpos : 0 < significand
    · rw [dif_pos hpos] at h
      cases h
      exact fits_ofFloat hx
    · rw [dif_neg hpos] at h
      cases h

/-- A finite double can be made of its parts. -/
theorem toNat_pack {significand : Nat} {exponent : Int} (h : Fits significand exponent) (hpos : 0 < significand)
    (negative : Bool) :
    (UnpackedFloat.pack Format.binary64 (.finite (signOf negative) significand exponent hpos)).toNat =
      (Binary64.finite negative significand exponent).word := by
  obtain ⟨hlt, hlow, hhigh, hnormal⟩ := h
  have hsign : (signOf negative).toBitVec.toNat * 0x8000000000000000 =
      if negative then 0x8000000000000000 else 0 := by
    cases negative <;> rfl
  have hbias : (exponent + (Format.binary64.exponentBias : Int) +
      (Format.binary64.mantissaBitsWithoutImplicit : Int)).toNat = (exponent + 1075).toNat := by
    show (exponent + (1023 : Nat) + (52 : Nat)).toNat = _
    omega
  delta UnpackedFloat.pack
  simp only [hbias]
  rw [if_neg (by show ¬ 2048 ≤ _; omega)]
  by_cases hlog : 0x10000000000000 ≤ significand
  · have h52 : significand.log2 = 52 := (Nat.log2_eq_iff (by omega)).mpr ⟨by omega, by omega⟩
    rw [h52, if_pos (by rfl), toNat_packComponents, hsign, BitVec.toNat_ofNat, BitVec.toNat_ofNat]
    simp only [Binary64.word]
    show _ + (exponent + 1075).toNat % 2048 * _ + significand % 4503599627370496 = _
    omega
  · have h52 : significand.log2 < 52 := (Nat.log2_lt (by omega)).mpr (by omega)
    rw [if_neg (by show ¬ _ = 53; omega), toNat_packComponents, hsign, BitVec.toNat_ofNat, BitVec.toNat_ofNat]
    simp only [Binary64.word]
    show _ + 0 % 2048 * _ + significand % 4503599627370496 = _
    omega

/-- The parts that a double is computed with make up its word. -/
theorem pack_unpack_toModel (x : Float) :
    UnpackedFloat.pack Format.binary64 x.toModel.unpack = x.toModel.toBits.toBitVec := by
  refine BitVec.eq_of_toNat_eq (Eq.trans ?_ (toNat_toBits x).symm)
  rw [unpack_eq]
  cases hx : Binary64.ofFloat x with
  | nan => rfl
  | infinite negative => cases negative <;> rfl
  | finite negative significand exponent =>
    have hfits := fits_ofFloat hx
    by_cases hpos : 0 < significand
    · rw [Binary64.unpacked, dif_pos hpos]
      exact toNat_pack hfits hpos negative
    · -- a zero has the least exponent
      obtain rfl : significand = 0 := by omega
      obtain rfl : exponent = -1074 := hfits.normal.resolve_right (by decide)
      rw [Binary64.unpacked, dif_neg hpos]
      cases negative <;> rfl

/-- A double is known by the parts that it is computed with. -/
theorem eq_of_unpack {x y : Float} (h : x.toModel.unpack = y.toModel.unpack) : x = y := by
  refine eq_of_toBits (UInt64.toBitVec_inj.mp ?_)
  show x.toModel.toBits.toBitVec = y.toModel.toBits.toBitVec
  rw [← pack_unpack_toModel x, ← pack_unpack_toModel y, h]

theorem unpack_pack_zero (s : Sign) : (Float.Model.pack (.zero s)).unpack = .zero s := by
  cases s <;> rfl

theorem ofBits_toBits (x : Float) : Float.ofBits x.toBits = x :=
  eq_of_toBits (UInt64.toBitVec_inj.mp (pack_unpack_toModel x))

theorem ofFloat_pack {significand : Nat} {exponent : Int} (h : Fits significand exponent) (hpos : 0 < significand)
    (negative : Bool) :
    Binary64.ofFloat ⟨Float.Model.pack (.finite (signOf negative) significand exponent hpos)⟩ =
      .finite negative significand exponent := by
  have hword : (Float.toBits ⟨Float.Model.pack (.finite (signOf negative) significand exponent hpos)⟩).toNat =
      (Binary64.finite negative significand exponent).word := toNat_pack h hpos negative
  obtain ⟨hlt, hlow, hhigh, hnormal⟩ := h
  have hnegative : decide (0x8000000000000000 ≤ (Binary64.finite negative significand exponent).word) = negative := by
    cases negative
    · simp only [Binary64.word, Bool.false_eq_true, if_false, decide_eq_false_iff_not]
      omega
    · simp only [Binary64.word, if_true, decide_eq_true_eq]
      omega
  have hparts : (Binary64.finite negative significand exponent).word % 0x8000000000000000 =
      (exponent + 1074).toNat * 0x10000000000000 + significand := by
    cases negative
    · simp only [Binary64.word, Bool.false_eq_true, if_false]
      omega
    · simp only [Binary64.word, if_true]
      omega
  unfold Binary64.ofFloat
  rw [hword]
  simp only [hnegative, Nat.shiftRight_eq_div_pow]
  generalize (Binary64.finite negative significand exponent).word = word at hparts
  rw [if_neg (by omega)]
  split
  · have he : exponent = -1074 := by omega
    rw [he]
    congr 1
    omega
  · congr 1
    · omega
    · omega

end Tremor.Number

namespace Tremor.Double

/-- A result of arithmetic that is stored is read back. -/
@[simp] theorem toFloat_ofFloat (x : Float) : (ofFloat x).toFloat = x := Number.ofBits_toBits x

end Tremor.Double
