import Mathlib.Tactic.Linarith
import Mathlib.Tactic.NormNum
import Mathlib.Tactic.Ring
import Tremor.Number.Conversion
import Tremor.Number.Scalar

/-!
# Integer parts and order of doubles

A double is a sign, a significand and a power of two. Only subnormal ones lack the leading bit of the significand, and
they are all below one; so what is not below one keeps a bit at or before the point. The order goes by these parts,
too, and only a NaN has no place in it.

- `truncateNat_pos` : a finite double that is not below one has a positive integer part
- `truncateNat_max_one_pos` : and so has the larger of any double and one
- `not_lt_of_lt`, `lt_of_not_lt_of_lt` : doubles are ordered, as far as they are numbers
- `le_iff`, `Number.le_trans`, `min_cases` : one number is at most another when that one is not below it
- `unpack_of_beq` : equal doubles are the same but for the sign of zero
- `beq_of_le_of_le`, `beq_symm`, `beq_trans` : equality of doubles that are numbers
-/

namespace Tremor.Number

open Float.Model (UnpackedFloat Format)
open Float.Model.UnpackedFloat (unpack ExtendedMantissa roundToInt)

/-! ## Integer parts -/

/-- The leading bit of a significand. -/
def leadingBit : Nat := 0x10000000000000

/-- The significand of a double that is not subnormal has its leading bit. -/
theorem leadingBit_le_of_unpack {b : BitVec Format.binary64.numBits} {s : UnpackedFloat.Sign} {m : Nat} {e : Int}
    {hm : 0 < m} (h : unpack Format.binary64 b = .finite s m e hm) (he : -1074 < e) : leadingBit ≤ m := by
  unfold unpack at h
  dsimp only at h
  -- the greatest exponent marks what is not finite, the least one zeros and subnormal doubles
  by_cases hx : UnpackedFloat.unpackExponent b = -1#11
  · rw [if_pos hx] at h
    by_cases h0 : UnpackedFloat.unpackMantissa b = 0#52
    · rw [if_pos h0] at h
      cases h
    · rw [if_neg h0] at h
      cases h
  · rw [if_neg hx] at h
    by_cases h0 : UnpackedFloat.unpackExponent b = 0#11
    · rw [if_pos h0] at h
      by_cases hz : UnpackedFloat.unpackMantissa b = 0#52
      · rw [dif_pos hz] at h
        cases h
      · rw [dif_neg hz] at h
        cases h
        rw [h0] at he
        simp [Format.exponentBias] at he
    · rw [if_neg h0] at h
      cases h
      rw [BitVec.toNat_append]
      exact Nat.le_trans (by decide) Nat.left_le_or

theorem mantissa_shiftRight (em : ExtendedMantissa) (n : Nat) : (em >>> n).mantissa = em.mantissa >>> n := by
  change (n.repeat ExtendedMantissa.shiftRightOne em).mantissa = _
  induction n with
  | zero => simp [Nat.repeat]
  | succ n ih =>
    rw [Nat.repeat, ExtendedMantissa.shiftRightOne, ih, Nat.shiftRight_succ]

/-- The integer part of a number is positive when its significand has a bit at or before the point. -/
theorem roundToInt_pos {m : Nat} {e : Int} (hm : leadingBit ≤ m) (he : -52 ≤ e) :
    0 < roundToInt .positive m e := by
  have hpos : 0 < (m <<< e.toNat) >>> (0 - (e - e.toNat)).toNat := by
    have hle : (0 - (e - e.toNat)).toNat ≤ 52 := by omega
    have hp := Nat.pow_le_pow_right (n := 2) (by decide) hle
    rw [Nat.shiftRight_eq_div_pow]
    exact Nat.div_pos (Nat.le_trans hp (Nat.le_trans hm Nat.le_shiftLeft)) (Nat.two_pow_pos _)
  simp only [roundToInt, UnpackedFloat.decreaseExponent, UnpackedFloat.shiftToExponent, mantissa_shiftRight,
    Int.sub_zero]
  exact Int.natCast_pos.mpr hpos

theorem toNat_ofNatClamp_pos {n : Nat} (h : 0 < n) : 0 < (UInt64.ofNatClamp n).toNat := by
  unfold UInt64.ofNatClamp
  split
  · exact h
  · decide

theorem unpack_one : (1 : Float).toModel.unpack = .finite .positive leadingBit (-52) (by decide) := by
  rfl

/-- A finite double that is not below one has a positive integer part. -/
theorem truncateNat_pos {x : Float} (hf : x.isFinite = true) (h : ¬ x < 1) : 0 < truncateNat x := by
  have hc : x.toModel.unpack.compare (.finite .positive leadingBit (-52) (by decide)) ≠ some .lt := by
    intro hc
    refine h ?_
    change decide (x.toModel.unpack.lt (1 : Float).toModel.unpack = true) = true
    rw [unpack_one, UnpackedFloat.lt, hc]
    rfl
  change 0 < (UInt64.ofNatClamp (x.toModel.unpack.toInt 0 (UInt64.size - 1)).toNat).toNat
  refine toNat_ofNatClamp_pos ?_
  have hf : x.toModel.unpack.isFinite = true := hf
  generalize hu : x.toModel.unpack = u at hc hf
  cases u with
  | infinity | notANumber => cases hf
  | zero => exact absurd rfl hc
  | finite s m e hm =>
    cases s with
    | negative => exact absurd rfl hc
    | positive =>
      have hthen : (compare e (-52)).then (compare m leadingBit) ≠ .lt := fun ht => hc (congrArg some ht)
      have he : -52 ≤ e := by
        refine Int.not_lt.mp fun hlt => hthen ?_
        rw [Int.compare_eq_lt.mpr hlt]
        rfl
      have hm' : leadingBit ≤ m := by
        rcases Int.le_iff_eq_or_lt.mp he with rfl | hlt
        · refine Nat.not_lt.mp fun hlt => hthen ?_
          rw [Int.compare_eq_eq.mpr rfl]
          exact Nat.compare_eq_lt.mpr hlt
        · exact leadingBit_le_of_unpack hu (by omega)
      have hpos := roundToInt_pos hm' he
      show 0 < (roundToInt .positive m e).toNat
      omega

/-- A NaN is not above anything. -/
theorem not_isNaN_of_le {x y : Float} (h : y ≤ x) : x.isNaN = false := by
  have h : decide (y.toModel.unpack.le x.toModel.unpack = true) = true := h
  change x.toModel.unpack.isNaN = false
  generalize x.toModel.unpack = u at h
  generalize y.toModel.unpack = v at h
  cases u with
  | notANumber => cases v <;> cases h
  | infinity | zero | finite => rfl

/-- Of the two infinities the positive one has the greatest integer part, and the negative one is below one. -/
theorem truncateNat_pos_of_not_isNaN {x : Float} (hn : x.isNaN = false) (h : ¬ x < 1) : 0 < truncateNat x := by
  by_cases hf : x.isFinite = true
  · exact truncateNat_pos hf h
  · have hf : x.toModel.unpack.isFinite ≠ true := hf
    have hn : x.toModel.unpack.isNaN = false := hn
    have h : ¬ decide (x.toModel.unpack.lt (1 : Float).toModel.unpack = true) = true := h
    change 0 < (UInt64.ofNatClamp (x.toModel.unpack.toInt 0 (UInt64.size - 1)).toNat).toNat
    generalize x.toModel.unpack = u at hf hn h
    cases u with
    | zero | finite => exact absurd rfl hf
    | notANumber => cases hn
    | infinity s =>
      cases s with
      | negative => exact absurd rfl h
      | positive => decide

/-- The larger of any double and one has a positive integer part. -/
theorem truncateNat_max_one_pos (x : Float) : 0 < truncateNat (Scalar.max x 1.0) := by
  have hone : 0 < truncateNat 1.0 := by decide
  unfold Scalar.max
  by_cases h : x < 1.0
  · rwa [if_pos h]
  · rw [if_neg h]
    split
    · exact truncateNat_pos_of_not_isNaN (not_isNaN_of_le ‹_›) h
    · split
      · exact truncateNat_pos_of_not_isNaN (not_isNaN_of_le ‹_›) h
      · exact hone

/-! ## Order -/

theorem lt_iff_unpack {x y : Float} : x < y ↔ x.toModel.unpack.lt y.toModel.unpack = true := by
  change decide (x.toModel.unpack.lt y.toModel.unpack = true) = true ↔ _
  rw [decide_eq_true_iff]

theorem le_iff_unpack {x y : Float} : x ≤ y ↔ x.toModel.unpack.le y.toModel.unpack = true := by
  change decide (x.toModel.unpack.le y.toModel.unpack = true) = true ↔ _
  rw [decide_eq_true_iff]

/-- The place of a number in the order: its kind, its exponent and its significand, the latter two negated below
zero. -/
def place : UnpackedFloat → Option (Int × Int × Int)
  | .notANumber => none
  | .infinity .negative => some (-2, 0, 0)
  | .finite .negative m e _ => some (-1, -e, -m)
  | .zero _ => some (0, 0, 0)
  | .finite .positive m e _ => some (1, e, m)
  | .infinity .positive => some (2, 0, 0)

/-- The order of places, by kind, exponent and significand. -/
def Before (a b : Int × Int × Int) : Prop := a.1 < b.1 ∨ a.1 = b.1 ∧ (a.2.1 < b.2.1 ∨ a.2.1 = b.2.1 ∧ a.2.2 < b.2.2)

section Places

variable {u v : UnpackedFloat} {a b : Int × Int × Int}

theorem exists_places (hu : place u = some a) (hv : place v = some b) :
    (∃ a b, place u = some a ∧ place v = some b ∧ Before a b) ↔ Before a b := by
  constructor
  · rintro ⟨a', b', hu', hv', hbefore⟩
    cases hu.symm.trans hu'
    cases hv.symm.trans hv'
    exact hbefore
  · exact fun hbefore => ⟨a, b, hu, hv, hbefore⟩

/-- Two numbers are compared by their places. -/
theorem lt_iff_before {o : Ordering} (hu : place u = some a) (hv : place v = some b) (ho : u.compare v = some o)
    (h : o = .lt ↔ Before a b) : u.lt v = true ↔ ∃ a b, place u = some a ∧ place v = some b ∧ Before a b := by
  rw [exists_places hu hv, UnpackedFloat.lt, ho, beq_iff_eq, Option.some_inj, h]

/-- A NaN is not compared. -/
theorem lt_iff_of_nan (h : place u = none ∨ place v = none) (ho : u.compare v = none) :
    u.lt v = true ↔ ∃ a b, place u = some a ∧ place v = some b ∧ Before a b := by
  rw [UnpackedFloat.lt, ho]
  constructor
  · intro hlt
    cases hlt
  · rintro ⟨a, b, hu, hv, -⟩
    rw [hu, hv] at h
    cases h with
    | inl h => cases h
    | inr h => cases h

/-- One double is below another when it comes before it; a NaN has no place. -/
theorem lt_iff_place : u.lt v = true ↔ ∃ a b, place u = some a ∧ place v = some b ∧ Before a b := by
  cases u with
  | notANumber => exact lt_iff_of_nan (Or.inl rfl) rfl
  | infinity s =>
    cases s <;> cases v with
    | notANumber => exact lt_iff_of_nan (Or.inr rfl) rfl
    | infinity t => cases t <;> exact lt_iff_before rfl rfl rfl (by unfold Before; decide)
    | zero t => exact lt_iff_before rfl rfl rfl (by simp [Before])
    | finite t m e h => cases t <;> exact lt_iff_before rfl rfl rfl (by simp [Before])
  | zero s =>
    cases v with
    | notANumber => exact lt_iff_of_nan (Or.inr rfl) rfl
    | infinity t => cases t <;> exact lt_iff_before rfl rfl rfl (by simp [Before])
    | zero t => exact lt_iff_before rfl rfl rfl (by simp [Before])
    | finite t m e h => cases t <;> exact lt_iff_before rfl rfl rfl (by simp [Before])
  | finite s m e h =>
    cases s <;> cases v with
    | notANumber => exact lt_iff_of_nan (Or.inr rfl) rfl
    | infinity t => cases t <;> exact lt_iff_before rfl rfl rfl (by simp [Before])
    | zero t => exact lt_iff_before rfl rfl rfl (by simp [Before])
    | finite t m' e' h' =>
      cases t <;> refine lt_iff_before rfl rfl rfl ?_ <;> simp [Before, Ordering.then_eq_lt, Ordering.then_eq_gt,
        Int.compare_eq_lt, Int.compare_eq_gt, Nat.compare_eq_lt, Nat.compare_eq_gt]

theorem lt_iff_of_places (hu : place u = some a) (hv : place v = some b) : u.lt v = true ↔ Before a b :=
  lt_iff_place.trans (exists_places hu hv)

end Places

/-- Only a NaN has no place in the order, and only a NaN is not at most itself. -/
theorem le_self_iff {x : Float} : x ≤ x ↔ ∃ a, place x.toModel.unpack = some a := by
  rw [le_iff_unpack]
  generalize x.toModel.unpack = u
  cases u with
  | notANumber =>
    constructor
    · intro h
      cases h
    · rintro ⟨a, h⟩
      cases h
  | infinity s | zero s => cases s <;> exact ⟨fun _ => ⟨_, rfl⟩, fun _ => rfl⟩
  | finite s m e hm =>
    -- a number compares as equal with itself, also below zero
    have heq : (compare e e).then (compare m m) = .eq := by
      rw [Ordering.then_eq_eq, Int.compare_eq_eq, Nat.compare_eq_eq]
      exact ⟨rfl, rfl⟩
    cases s with
    | positive =>
      refine ⟨fun _ => ⟨_, rfl⟩, fun _ => ?_⟩
      change ((compare e e).then (compare m m)).isLE = true
      rw [heq]
      rfl
    | negative =>
      refine ⟨fun _ => ⟨_, rfl⟩, fun _ => ?_⟩
      change ((compare e e).then (compare m m)).swap.isLE = true
      rw [heq]
      rfl

/-- What is no NaN is at most itself. -/
theorem le_self_of_not_isNaN {x : Float} (h : x.isNaN = false) : x ≤ x := by
  have h : x.toModel.unpack.isNaN = false := h
  rw [le_self_iff]
  generalize x.toModel.unpack = u at h
  cases u with
  | notANumber => cases h
  | infinity s | finite s m e hm => cases s <;> exact ⟨_, rfl⟩
  | zero s => exact ⟨_, rfl⟩

/-- What something is below is no NaN. -/
theorem le_self_of_lt {x y : Float} (h : x < y) : y ≤ y := by
  rw [lt_iff_unpack, lt_iff_place] at h
  obtain ⟨-, b, -, hb, -⟩ := h
  exact le_self_iff.mpr ⟨b, hb⟩

theorem not_lt_of_lt {x y : Float} (h : x < y) : ¬ y < x := by
  rw [lt_iff_unpack, lt_iff_place] at h ⊢
  obtain ⟨a, b, ha, hb, hab⟩ := h
  rintro ⟨b', a', hb', ha', hba⟩
  cases Option.some.inj (ha.symm.trans ha')
  cases Option.some.inj (hb.symm.trans hb')
  simp only [Before] at hab hba
  omega

/-- A number `x` is below all that `y` is below, when `y` is not below `x`. -/
theorem lt_of_not_lt_of_lt {x y z : Float} (hx : x ≤ x) (hyx : ¬ y < x) (hyz : y < z) : x < z := by
  obtain ⟨a, ha⟩ := le_self_iff.mp hx
  rw [lt_iff_unpack, lt_iff_place] at hyx hyz ⊢
  obtain ⟨b, c, hb, hc, hbc⟩ := hyz
  refine ⟨a, c, ha, hc, ?_⟩
  have hba : ¬ Before b a := fun h => hyx ⟨b, a, hb, ha, h⟩
  simp only [Before] at hbc hba ⊢
  omega

/-- The other way round, numbers compare the other way. -/
theorem compare_swap (u v : UnpackedFloat) : v.compare u = (u.compare v).map Ordering.swap := by
  cases u with
  | notANumber => cases v <;> rfl
  | infinity s => cases v with
    | infinity t => cases s <;> cases t <;> rfl
    | finite t m e h => cases s <;> cases t <;> rfl
    | notANumber | zero t => cases s <;> rfl
  | zero s => cases v with
    | infinity t | finite t m e h => cases t <;> rfl
    | notANumber | zero t => rfl
  | finite s m e h => cases v with
    | infinity t => cases s <;> cases t <;> rfl
    | finite t m' e' h' =>
      have hparts : (compare e' e).then (compare m' m) = ((compare e e').then (compare m m')).swap := by
        rw [Ordering.swap_then, Int.compare_swap, Nat.compare_swap]
      cases s with
      | positive => cases t with
        | positive => exact congrArg some hparts
        | negative => rfl
      | negative => cases t with
        | positive => rfl
        | negative => exact congrArg (fun o => some (Ordering.swap o)) hparts
    | notANumber | zero t => cases s <;> rfl

/-- Only with a NaN there is nothing to compare. -/
theorem isSome_compare (u v : UnpackedFloat) : (u.compare v).isSome = ((place u).isSome && (place v).isSome) := by
  cases u with
  | notANumber => cases v <;> rfl
  | infinity s => cases v with
    | infinity t | finite t m e h => cases s <;> cases t <;> rfl
    | notANumber | zero t => cases s <;> rfl
  | zero s => cases v with
    | infinity t | finite t m e h => cases t <;> rfl
    | notANumber | zero t => rfl
  | finite s m e h => cases v with
    | infinity t | finite t m' e' h' => cases s <;> cases t <;> rfl
    | notANumber | zero t => cases s <;> rfl

/-- A double is at most another when both are numbers and the other one is not below it. -/
theorem le_iff {x y : Float} : x ≤ y ↔ x ≤ x ∧ y ≤ y ∧ ¬ y < x := by
  have hsome := isSome_compare x.toModel.unpack y.toModel.unpack
  have hswap := compare_swap x.toModel.unpack y.toModel.unpack
  rw [le_self_iff, le_self_iff, ← Option.isSome_iff_exists, ← Option.isSome_iff_exists, ← and_assoc,
    ← Bool.and_eq_true, ← hsome, le_iff_unpack, lt_iff_unpack, UnpackedFloat.le, UnpackedFloat.lt, hswap]
  cases x.toModel.unpack.compare y.toModel.unpack with
  | none => simp
  | some o => cases o <;> simp

protected theorem le_of_not_lt {x y : Float} (hx : x ≤ x) (hy : y ≤ y) (h : ¬ y < x) : x ≤ y := le_iff.mpr ⟨hx, hy, h⟩

protected theorem le_of_lt {x y : Float} (h : x < y) : x ≤ y := by
  obtain ⟨a, b, ha, hb, -⟩ := lt_iff_place.mp (lt_iff_unpack.mp h)
  exact Number.le_of_not_lt (le_self_iff.mpr ⟨a, ha⟩) (le_self_iff.mpr ⟨b, hb⟩) (not_lt_of_lt h)

protected theorem lt_trans {x y z : Float} (hxy : x < y) (hyz : y < z) : x < z :=
  lt_of_not_lt_of_lt (le_iff.mp (Number.le_of_lt hxy)).1 (not_lt_of_lt hxy) hyz

protected theorem le_trans {x y z : Float} (hxy : x ≤ y) (hyz : y ≤ z) : x ≤ z := by
  obtain ⟨hx, hy, hyx⟩ := le_iff.mp hxy
  obtain ⟨-, hz, hzy⟩ := le_iff.mp hyz
  exact Number.le_of_not_lt hx hz fun hzx => hyx (lt_of_not_lt_of_lt hy hzy hzx)

protected theorem lt_of_lt_of_le {x y z : Float} (hxy : x < y) (hyz : y ≤ z) : x < z := by
  obtain ⟨hx, -, -⟩ := le_iff.mp (Number.le_of_lt hxy)
  obtain ⟨-, hz, -⟩ := le_iff.mp hyz
  by_contra hnot
  have hzx := Number.le_of_not_lt hz hx hnot
  exact (le_iff.mp (Number.le_trans hyz hzx)).2.2 hxy

/-- The smaller of two numbers. -/
theorem min_cases {x y : Float} (hx : x ≤ x) (hy : y ≤ y) :
    (Scalar.min x y = x ∧ x ≤ y) ∨ (Scalar.min x y = y ∧ y ≤ x) := by
  unfold Scalar.min
  by_cases h : y < x
  · exact Or.inr ⟨if_pos h, Number.le_of_lt h⟩
  · have hle := Number.le_of_not_lt hx hy h
    exact Or.inl ⟨by rw [if_neg h, if_pos hle], hle⟩

/-- The larger of a number and anything, a NaN included. -/
theorem max_cases {x y : Float} (hx : x ≤ x) :
    (Scalar.max x y = x ∧ ¬ x < y) ∨ (Scalar.max x y = y ∧ x < y) := by
  unfold Scalar.max
  by_cases h : x < y
  · exact Or.inr ⟨if_pos h, h⟩
  · refine Or.inl ⟨?_, h⟩
    rw [if_neg h, if_pos hx, ite_self]

/-! ## Equality -/

/-- Doubles that are equal as numbers have the same parts, but for the sign of zero. -/
theorem unpack_of_beq {x y : Float} (h : x == y) :
    x.toModel.unpack = y.toModel.unpack ∨
      (∃ s, x.toModel.unpack = .zero s) ∧ ∃ s, y.toModel.unpack = .zero s := by
  have h : (x.toModel.unpack.compare y.toModel.unpack == some .eq) = true := h
  generalize x.toModel.unpack = u at h
  generalize y.toModel.unpack = v at h
  rw [beq_iff_eq] at h
  cases u with
  | notANumber => cases v <;> cases h
  | infinity s => cases v with
    | infinity t =>
      have hst : s = t := by
        cases s <;> cases t <;> first | rfl | cases h
      exact Or.inl (hst ▸ rfl)
    | notANumber | zero t | finite t m e hm => cases s <;> cases h
  | zero s => cases v with
    | zero t => exact Or.inr ⟨⟨s, rfl⟩, t, rfl⟩
    | notANumber => cases h
    | infinity t | finite t m e hm => cases t <;> cases h
  | finite s m e hm => cases v with
    | finite t m' e' hm' =>
      have heq : s = t ∧ (compare e e').then (compare m m') = .eq := by
        cases s with
        | positive => cases t with
          | positive => exact ⟨rfl, Option.some.inj h⟩
          | negative => cases h
        | negative => cases t with
          | positive => cases h
          | negative => exact ⟨rfl, by simpa using Option.some.inj h⟩
      rw [Ordering.then_eq_eq, Int.compare_eq_eq, Nat.compare_eq_eq] at heq
      obtain ⟨rfl, rfl, rfl⟩ := heq
      exact Or.inl rfl
    | notANumber => cases s <;> cases h
    | zero t | infinity t => cases s <;> cases t <;> cases h

/-- Doubles that are at most one another are equal as numbers. -/
theorem beq_of_le_of_le {x y : Float} (hxy : x ≤ y) (hyx : y ≤ x) : x == y := by
  have hswap := compare_swap x.toModel.unpack y.toModel.unpack
  rw [le_iff_unpack, UnpackedFloat.le] at hxy hyx
  rw [hswap] at hyx
  change (x.toModel.unpack.compare y.toModel.unpack == some .eq) = true
  cases hc : x.toModel.unpack.compare y.toModel.unpack with
  | none => rw [hc] at hxy; cases hxy
  | some o =>
    rw [hc] at hxy hyx
    cases o with
    | eq => rfl
    | lt => cases hyx
    | gt => cases hxy

theorem le_of_beq {x y : Float} (h : x == y) : x ≤ y := by
  have h : x.toModel.unpack.compare y.toModel.unpack = some .eq := beq_iff_eq.mp h
  rw [le_iff_unpack, UnpackedFloat.le, h]
  rfl

theorem beq_symm {x y : Float} (h : x == y) : y == x := by
  have h : x.toModel.unpack.compare y.toModel.unpack = some .eq := beq_iff_eq.mp h
  change (y.toModel.unpack.compare x.toModel.unpack == some .eq) = true
  rw [compare_swap, h]
  rfl

theorem beq_trans {x y z : Float} (hxy : x == y) (hyz : y == z) : x == z :=
  beq_of_le_of_le (Number.le_trans (le_of_beq hxy) (le_of_beq hyz))
    (Number.le_trans (le_of_beq (beq_symm hyz)) (le_of_beq (beq_symm hxy)))

theorem abs_of_beq {x y : Float} (h : x == y) : x.abs = y.abs := by
  have hparts : x.toModel.unpack.abs = y.toModel.unpack.abs := by
    rcases unpack_of_beq h with he | ⟨⟨s, hs⟩, t, ht⟩
    · rw [he]
    · rw [hs, ht]
      rfl
  change Float.ofModel (Float.Model.pack x.toModel.unpack.abs) = Float.ofModel (Float.Model.pack y.toModel.unpack.abs)
  rw [hparts]

theorem le_iff_of_beq {x y : Float} (h : x == y) (z : Float) : z ≤ x ↔ z ≤ y := by
  rw [le_iff_unpack, le_iff_unpack]
  rcases unpack_of_beq h with he | ⟨⟨s, hs⟩, t, ht⟩
  · rw [he]
  · rw [hs, ht]
    generalize z.toModel.unpack = u
    cases u with
    | notANumber | zero r => rfl
    | infinity r | finite r m e hm => cases r <;> rfl

end Tremor.Number
