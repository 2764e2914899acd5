import Tremor.Proofs.WholeDoubles

/-!
# The values of doubles

A finite double stands for a rational, and the order of doubles is that of these; an infinity is beyond all of them.
The sign of zero does not matter.

- `HasValue` : the rational that a finite double stands for
- `Magnitude` : the absolute values of these rationals
- `lt_iff_of_hasValue`, `le_iff_of_hasValue` : the order of doubles is that of their values
- `exists_hasValue_between` : what lies between two finite doubles is finite
- `isFinite_iff` : the doubles that stand for rationals
- `exists_hasValue_of_abs_mul_lt`, `exists_hasValue_of_sub`, `le_self_of_mul` : finite results come from numbers
-/

namespace Tremor.Number

open Float.Model (UnpackedFloat Format)
open Float.Model.UnpackedFloat (Sign)

/-! ## Values -/

/-- A magnitude with a sign. -/
def signed : Sign → ℚ → ℚ
  | .positive, w => w
  | .negative, w => -w

@[simp]
theorem signed_zero (s : Sign) : signed s 0 = 0 := by
  cases s
  · exact neg_zero
  · rfl

theorem signed_neg (s : Sign) (w : ℚ) : signed (-s) w = -signed s w := by
  cases s
  · exact (neg_neg w).symm
  · rfl

theorem signed_mul (s₁ s₂ : Sign) (v w : ℚ) : signed (s₁ * s₂) (v * w) = signed s₁ v * signed s₂ w := by
  cases s₁ <;> cases s₂
  · exact (neg_mul_neg v w).symm
  · exact (neg_mul v w).symm
  · exact (mul_neg v w).symm
  · rfl

theorem signed_div (s₁ s₂ : Sign) (v w : ℚ) : signed (s₁ / s₂) (v / w) = signed s₁ v / signed s₂ w := by
  cases s₁ <;> cases s₂
  · exact (neg_div_neg_eq v w).symm
  · exact (neg_div w v).symm
  · exact (div_neg v).symm
  · rfl

/-- The rational that the parts of a finite double stand for. -/
inductive Stands : UnpackedFloat → ℚ → Prop
  | zero (s : Sign) : Stands (.zero s) 0
  | finite (s : Sign) {m : ℕ} {e : Int} (hm : 0 < m) (h : Fits m e) :
      Stands (.finite s m e hm) (signed s (m * 2 ^ e))

/-- The rational that a finite double stands for. -/
def HasValue (x : Float) (v : ℚ) : Prop := Stands x.toModel.unpack v

variable {x y z : Float} {v w : ℚ}

theorem hasValue_of_unpack {s : Sign} {m : ℕ} {e : Int} {hm : 0 < m}
    (h : x.toModel.unpack = .finite s m e hm) : HasValue x (signed s (m * 2 ^ e)) := by
  unfold HasValue
  rw [h]
  exact .finite s hm (fits_of_unpack h)

theorem hasValue_of_zero {s : Sign} (h : x.toModel.unpack = .zero s) : HasValue x 0 := by
  unfold HasValue
  rw [h]
  exact .zero s

theorem hasValue_zero : HasValue (0 : Float) 0 := hasValue_of_zero (s := .positive) rfl

theorem hasValue_one : HasValue (1 : Float) 1 := by
  have h := hasValue_of_unpack unpack_one
  norm_num [signed, leadingBit] at h
  exact h

/-- A double that is no NaN and no infinity stands for a rational. -/
theorem exists_hasValue (hnumber : x.toModel.unpack ≠ .notANumber) (hfinite : ∀ s, x.toModel.unpack ≠ .infinity s) :
    ∃ v, HasValue x v := by
  cases hx : x.toModel.unpack with
  | notANumber => exact absurd hx hnumber
  | infinity s => exact absurd hx (hfinite s)
  | zero s => exact ⟨0, hasValue_of_zero hx⟩
  | finite s m e hm => exact ⟨_, hasValue_of_unpack hx⟩

/-- The finite doubles are those that stand for a rational. -/
theorem isFinite_iff : x.isFinite = true ↔ ∃ v, HasValue x v := by
  have hfinite : x.isFinite = x.toModel.unpack.isFinite := rfl
  rw [hfinite]
  constructor
  · intro h
    refine exists_hasValue (fun hu => ?_) (fun s hu => ?_) <;> rw [hu] at h <;> cases h
  · rintro ⟨v, h⟩
    unfold HasValue at h
    generalize x.toModel.unpack = u at h
    cases h <;> rfl

/-- Parts that fit are kept, so that they are those of a double. -/
theorem hasValue_pack {s : Sign} {m : ℕ} {e : Int} (h : Fits m e) (hm : 0 < m) :
    HasValue ⟨Float.Model.pack (.finite s m e hm)⟩ (signed s (m * 2 ^ e)) := by
  have hunpack : (Float.Model.pack (.finite s m e hm)).unpack = .finite s m e hm := by
    cases s with
    | negative => exact unpack_pack h hm true
    | positive => exact unpack_pack h hm false
  exact hasValue_of_unpack hunpack

theorem HasValue.abs (h : HasValue x v) : HasValue x.abs |v| := by
  have habs : x.abs = ⟨Float.Model.pack x.toModel.unpack.abs⟩ := rfl
  rw [habs]
  unfold HasValue at h
  generalize x.toModel.unpack = a at h
  cases h with
  | zero s =>
    rw [abs_zero]
    exact hasValue_of_zero (unpack_pack_zero _)
  | @finite s m e hm hf =>
    have hw : (0 : ℚ) ≤ m * 2 ^ e := by positivity
    have hsigned : |signed s (m * 2 ^ e)| = signed .positive (m * 2 ^ e) := by
      cases s with
      | positive => exact abs_of_nonneg hw
      | negative => exact (abs_neg _).trans (abs_of_nonneg hw)
    rw [hsigned]
    exact hasValue_pack hf hm

theorem Stands.neg {a : UnpackedFloat} (h : Stands a v) : Stands a.neg (-v) := by
  cases h with
  | zero s =>
    rw [neg_zero]
    exact .zero (-s)
  | @finite s m e hm hf =>
    rw [← signed_neg]
    exact .finite (-s) hm hf

theorem HasValue.neg (h : HasValue x v) : HasValue (-x) (-v) := by
  have hneg : -x = ⟨Float.Model.pack x.toModel.unpack.neg⟩ := rfl
  have hstands := Stands.neg h
  rw [hneg]
  generalize x.toModel.unpack.neg = a at hstands
  generalize -v = w at hstands
  cases hstands with
  | zero s => exact hasValue_of_zero (unpack_pack_zero _)
  | finite s hm hf => exact hasValue_pack hf hm

/-- The magnitudes of finite doubles. -/
def Magnitude (w : ℚ) : Prop := ∃ (m : ℕ) (e : Int), Fits m e ∧ w = m * 2 ^ e

theorem Stands.magnitude {u : UnpackedFloat} (h : Stands u v) : Magnitude |v| := by
  cases h with
  | zero s => exact ⟨0, -1074, ⟨by decide, le_refl _, by decide, Or.inl rfl⟩, by simp⟩
  | @finite s m e hm h =>
    have hw : (0 : ℚ) ≤ m * 2 ^ e := by positivity
    refine ⟨m, e, h, ?_⟩
    cases s with
    | positive => exact abs_of_nonneg hw
    | negative => exact (abs_neg _).trans (abs_of_nonneg hw)

/-! ## Order -/

/-- The power of two that a magnitude is below. -/
theorem Fits.value_lt {m : ℕ} {e : Int} (h : Fits m e) : (m : ℚ) * 2 ^ e < 2 ^ (53 + e) := by
  have hm : (m : ℚ) < 2 ^ (53 : Int) := by exact_mod_cast h.significand_lt
  rw [zpow_add₀ (by norm_num)]
  exact mul_lt_mul_of_pos_right hm (zpow_pos (by norm_num) e)

/-- A greater exponent makes a greater double. -/
theorem Fits.lt_of_exponent_lt {m m' : ℕ} {e e' : Int} (h : Fits m e) (h' : Fits m' e') (hlt : e < e') :
    (m : ℚ) * 2 ^ e < m' * 2 ^ e' := by
  have hm' : (2 : ℚ) ^ (52 : Int) ≤ m' := by
    have hnormal := h'.normal.resolve_left (by have := h.le_exponent; omega)
    exact_mod_cast hnormal
  calc (m : ℚ) * 2 ^ e < 2 ^ (53 + e) := h.value_lt
    _ ≤ 2 ^ (52 + e') := zpow_le_zpow_right₀ (by norm_num) (by omega)
    _ = 2 ^ (52 : Int) * 2 ^ e' := zpow_add₀ (by norm_num) _ _
    _ ≤ m' * 2 ^ e' := mul_le_mul_of_nonneg_right hm' (zpow_pos (by norm_num) e').le

/-- Doubles above zero are ordered by exponent and significand. -/
theorem Fits.lt_iff {m m' : ℕ} {e e' : Int} (h : Fits m e) (h' : Fits m' e') :
    (m : ℚ) * 2 ^ e < m' * 2 ^ e' ↔ e < e' ∨ e = e' ∧ m < m' := by
  rcases lt_trichotomy e e' with hlt | rfl | hlt
  · exact iff_of_true (h.lt_of_exponent_lt h' hlt) (Or.inl hlt)
  · have hp : (0 : ℚ) < 2 ^ e := zpow_pos (by norm_num) e
    rw [mul_lt_mul_iff_left₀ hp, Nat.cast_lt]
    simp
  · exact iff_of_false (h'.lt_of_exponent_lt h hlt).le.not_gt (by omega)

/-- The order of parts is that of the rationals that they stand for. -/
theorem Stands.lt_iff {u u' : UnpackedFloat} {v' : ℚ} (h : Stands u v) (h' : Stands u' v') :
    u.lt u' = true ↔ v < v' := by
  cases h with
  | zero s =>
    cases h' with
    | zero s' => exact (lt_iff_of_places rfl rfl).trans (by simp [Before])
    | @finite s' m' e' hm' h' =>
      have hw' : (0 : ℚ) < m' * 2 ^ e' := by positivity
      cases s' <;> refine (lt_iff_of_places rfl rfl).trans ?_ <;> simp [Before, signed] <;> linarith
  | @finite s m e hm h =>
    have hw : (0 : ℚ) < m * 2 ^ e := by positivity
    cases h' with
    | zero s' => cases s <;> refine (lt_iff_of_places rfl rfl).trans ?_ <;> simp [Before, signed] <;> linarith
    | @finite s' m' e' hm' h' =>
      have hw' : (0 : ℚ) < m' * 2 ^ e' := by positivity
      have hlt := h.lt_iff h'
      have hlt' := h'.lt_iff h
      cases s <;> cases s' <;> refine (lt_iff_of_places rfl rfl).trans ?_
      · simp only [signed, neg_lt_neg_iff, hlt']
        simp [Before, eq_comm]
      · have hneg : -((m : ℚ) * 2 ^ e) < m' * 2 ^ e' := by linarith
        simp [Before, signed, hneg]
      · have hneg : ¬ (m : ℚ) * 2 ^ e < -(m' * 2 ^ e') := by linarith
        simp [Before, signed, hneg]
      · simp only [signed, hlt]
        simp [Before]

theorem lt_iff_of_hasValue (hx : HasValue x v) (hy : HasValue y w) : x < y ↔ v < w := by
  rw [lt_iff_unpack]
  exact Stands.lt_iff hx hy

theorem HasValue.le_self (h : HasValue x v) : x ≤ x := by
  rw [le_self_iff]
  unfold HasValue at h
  generalize x.toModel.unpack = u at h
  cases h with
  | zero s => exact ⟨_, rfl⟩
  | finite s hm h => cases s <;> exact ⟨_, rfl⟩

theorem le_iff_of_hasValue (hx : HasValue x v) (hy : HasValue y w) : x ≤ y ↔ v ≤ w := by
  rw [le_iff, lt_iff_of_hasValue hy hx, not_lt]
  exact ⟨fun h => h.2.2, fun h => ⟨hx.le_self, hy.le_self, h⟩⟩

/-- Every finite double lies between the infinities. -/
theorem HasValue.lt_infinity (h : HasValue x v) (hy : y.toModel.unpack = .infinity .positive) : x < y := by
  obtain ⟨a, ha⟩ := le_self_iff.mp h.le_self
  rw [lt_iff_unpack, lt_iff_place, hy]
  refine ⟨a, _, ha, rfl, Or.inl ?_⟩
  unfold HasValue at h
  generalize x.toModel.unpack = u at h ha
  cases h with
  | zero s =>
    cases ha
    decide
  | finite s hm h => cases s <;> (cases ha; simp)

theorem HasValue.infinity_lt (h : HasValue x v) (hy : y.toModel.unpack = .infinity .negative) : y < x := by
  obtain ⟨a, ha⟩ := le_self_iff.mp h.le_self
  rw [lt_iff_unpack, lt_iff_place, hy]
  refine ⟨_, a, rfl, ha, Or.inl ?_⟩
  unfold HasValue at h
  generalize x.toModel.unpack = u at h ha
  cases h with
  | zero s =>
    cases ha
    decide
  | finite s hm h => cases s <;> (cases ha; simp)

/-- What lies between two finite doubles is finite. -/
theorem exists_hasValue_between (hx : HasValue x v) (hy : HasValue y w) (hxz : x ≤ z) (hzy : z ≤ y) :
    ∃ u, HasValue z u ∧ v ≤ u ∧ u ≤ w := by
  obtain ⟨-, hz, hzx⟩ := le_iff.mp hxz
  obtain ⟨-, -, hyz⟩ := le_iff.mp hzy
  have hvalue : ∃ u, HasValue z u := by
    refine exists_hasValue (fun hu => ?_) (fun s hu => ?_)
    · obtain ⟨a, ha⟩ := le_self_iff.mp hz
      rw [hu] at ha
      cases ha
    · cases s with
      | positive => exact hyz (hy.lt_infinity hu)
      | negative => exact hzx (hx.infinity_lt hu)
  obtain ⟨u, hu⟩ := hvalue
  exact ⟨u, hu, (le_iff_of_hasValue hx hu).mp hxz, (le_iff_of_hasValue hu hy).mp hzy⟩

/-! ## Finite results -/

theorem not_notANumber_lt (h : x.toModel.unpack = .notANumber) : ¬ x < y := by
  rw [lt_iff_unpack, lt_iff_place, h]
  rintro ⟨a, -, ha, -⟩
  cases ha

theorem not_infinity_lt (h : x.toModel.unpack = .infinity .positive) : ¬ x < y := by
  rw [lt_iff_unpack, h]
  cases y.toModel.unpack with
  | notANumber | zero s | finite s m e hm => exact Bool.false_ne_true
  | infinity s => cases s <;> exact Bool.false_ne_true

theorem unpack_notANumber : (Float.Model.pack .notANumber).unpack = .notANumber := rfl

theorem unpack_infinity (s : Sign) : (Float.Model.pack (.infinity s)).unpack = .infinity s := by
  cases s <;> rfl

/-- What is below something after it has been scaled is finite. -/
theorem exists_hasValue_of_abs_mul_lt (hy : HasValue y w) (hw : 0 < w) (h : x.abs * y < z) : ∃ v, HasValue x v := by
  have hunpack : (x.abs * y).toModel.unpack =
    (Float.Model.pack (.mul .binary64 (Float.Model.pack x.toModel.unpack.abs).unpack y.toModel.unpack)).unpack := rfl
  unfold HasValue at hy
  generalize y.toModel.unpack = b at hy hunpack
  refine exists_hasValue (fun hx => not_notANumber_lt ?_ h) (fun s hx => not_infinity_lt ?_ h)
  · have habs : (Float.Model.pack (UnpackedFloat.abs .notANumber)).unpack = .notANumber := unpack_notANumber
    rw [hunpack, hx, habs]
    cases hy <;> exact unpack_notANumber
  · have habs : (Float.Model.pack (UnpackedFloat.abs (.infinity s))).unpack = .infinity .positive := unpack_infinity _
    rw [hunpack, hx, habs]
    cases hy with
    | zero t => exact absurd hw (lt_irrefl 0)
    | @finite t m e hm hf =>
      cases t with
      | positive => exact unpack_infinity _
      | negative => exact absurd hw (not_lt.mpr (neg_nonpos.mpr (by positivity)))

/-- What a finite difference is taken from is finite. -/
theorem exists_hasValue_of_sub (h : HasValue (x - y) v) (hy : HasValue y w) : ∃ u, HasValue x u := by
  have hunpack : (x - y).toModel.unpack =
    (Float.Model.pack (.sub .binary64 x.toModel.unpack y.toModel.unpack)).unpack := rfl
  unfold HasValue at h hy
  generalize y.toModel.unpack = b at hy hunpack
  refine exists_hasValue (fun hx => ?_) (fun s hx => ?_)
  · have hnone : (x - y).toModel.unpack = .notANumber := by
      rw [hunpack, hx]
      cases hy <;> exact unpack_notANumber
    rw [hnone] at h
    cases h
  · have hinfinite : (x - y).toModel.unpack = .infinity s := by
      rw [hunpack, hx]
      cases hy <;> exact unpack_infinity s
    rw [hinfinite] at h
    cases h

theorem le_self_of_mul (h : HasValue (x * y) v) : y ≤ y := by
  have hunpack : (x * y).toModel.unpack =
    (Float.Model.pack (.mul .binary64 x.toModel.unpack y.toModel.unpack)).unpack := rfl
  unfold HasValue at h
  rw [le_self_iff]
  cases hy : y.toModel.unpack with
  | notANumber =>
    have hnone : (x * y).toModel.unpack = .notANumber := by
      rw [hunpack, hy]
      cases x.toModel.unpack <;> exact unpack_notANumber
    rw [hnone] at h
    cases h
  | infinity s | zero s | finite s m e hm => cases s <;> exact ⟨_, rfl⟩

end Tremor.Number
