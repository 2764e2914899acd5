import Tremor.Proofs.NearbyDoubles

/-!
# Relative errors

A product or a quotient that is neither too small nor too large keeps 53 binary places: what it is rounded to is off by
no more than half of the last one, so by a share of `1 / 2 ^ 53` at most.

- `Close` : a double that keeps the places of a rational
- `close_round` : rounding keeps them
- `close_mul`, `close_div` : so do products and quotients
- `hasValue_mul_whole` : a product that is close enough to a whole number becomes that
- `floor_rounded` : the whole part of what was rounded
-/

namespace Tremor.Number

open Float.Model (UnpackedFloat Format)
open Float.Model.UnpackedFloat (Accuracy Sign roundWithAccuracy)

variable {x y z : Float} {v w q : ℚ}

/-- A double that is off from a rational by a share of `1 / 2 ^ 53` at most. -/
def Close (z : Float) (q : ℚ) : Prop := ∃ u, HasValue z u ∧ |u - q| ≤ |q| / 2 ^ 53

/-- Zero, or neither too small nor too large to keep all places. -/
def Ordinary (q : ℚ) : Prop := q = 0 ∨ 2 ^ (-1000 : Int) ≤ |q| ∧ |q| ≤ 2 ^ (1000 : Int)

theorem ordinary_of_bounds (hlow : 1 / 2 ^ 20 ≤ q) (hhigh : q ≤ 2 ^ 64) : Ordinary q := by
  refine Or.inr ?_
  rw [abs_of_nonneg (le_trans (by norm_num) hlow)]
  constructor
  · calc (2 : ℚ) ^ (-1000 : Int) ≤ 2 ^ (-20 : Int) := zpow_le_zpow_right₀ (by norm_num) (by norm_num)
      _ = 1 / 2 ^ 20 := by norm_num
      _ ≤ q := hlow
  · calc q ≤ 2 ^ 64 := hhigh
      _ = 2 ^ (64 : Int) := by norm_num
      _ ≤ 2 ^ (1000 : Int) := zpow_le_zpow_right₀ (by norm_num) (by norm_num)

theorem HasValue.close (h : HasValue z q) : Close z q := by
  refine ⟨q, h, ?_⟩
  rw [sub_self, abs_zero]
  positivity

/-- What is off by so little is neither negative nor more than twice as large. -/
theorem bounds_of_near {u : ℚ} (hq : 0 ≤ q) (h : |u - q| ≤ |q| / 2 ^ 53) : 0 ≤ u ∧ u ≤ 2 * q := by
  rw [abs_of_nonneg hq] at h
  obtain ⟨hlow, hhigh⟩ := abs_le.mp h
  constructor <;> linarith

theorem signed_sub (s : Sign) (v w : ℚ) : signed s (v - w) = signed s v - signed s w := by
  cases s
  · exact (neg_sub v w).trans (neg_sub_neg v w).symm
  · rfl

@[simp]
theorem abs_signed (s : Sign) (v : ℚ) : |signed s v| = |v| := by
  cases s
  · exact abs_neg v
  · rfl

theorem ordinary_signed {s : Sign} : Ordinary (signed s q) ↔ Ordinary q := by
  have hzero : signed s q = 0 ↔ q = 0 := by rw [← abs_eq_zero, abs_signed, abs_eq_zero]
  rw [Ordinary, abs_signed, hzero, Ordinary]

/-- What rounding makes of a magnitude is a double, unless it is too large. -/
theorem Rounded.hasValue {s : Sign} {u : UnpackedFloat} (h : Rounded s v u) (hv : 0 < v) (hv' : v ≤ 2 ^ (1001 : Int)) :
    HasValue ⟨Float.Model.pack u⟩ (signed s v) := by
  cases h with
  | zero hzero => exact absurd hzero hv.ne'
  | @finite m e hm hlt hleast hnormal hr =>
    have he : e ≤ 971 := by
      by_contra hlarge
      have hm' : (2 : ℚ) ^ (52 : Int) ≤ m := by exact_mod_cast hnormal.resolve_left (by omega)
      have hgreat : (2 : ℚ) ^ (1024 : Int) ≤ v := by
        calc (2 : ℚ) ^ (1024 : Int) ≤ 2 ^ (52 + e) := zpow_le_zpow_right₀ (by norm_num) (by omega)
          _ = 2 ^ (52 : Int) * 2 ^ e := zpow_add₀ (by norm_num) _ _
          _ ≤ m * 2 ^ e := mul_le_mul_of_nonneg_right hm' (zpow_pos (by norm_num) e).le
          _ = v := hr.symm
      have hlt : (2 : ℚ) ^ (1001 : Int) < 2 ^ (1024 : Int) := zpow_lt_zpow_right₀ (by norm_num) (by norm_num)
      exact absurd (hgreat.trans hv') (not_le.mpr hlt)
    rw [hr]
    exact hasValue_pack ⟨hlt, hleast, he, hnormal⟩ hm

/-- Rounding keeps the places of an ordinary number. -/
theorem close_round (s : Sign) {m : ℕ} {e : Int} {acc : Accuracy} (hpos : 0 < q) (h : Ordinary q)
    (hrest : Rests acc (q / 2 ^ e - m)) (he : e ≤ lastPlace m e) :
    Close ⟨Float.Model.pack (roundWithAccuracy Format.binary64 s m e acc)⟩ (signed s q) := by
  obtain ⟨n, t, hneighbour, hhalf, hrounded⟩ := exists_neighbour s hrest he
  obtain ⟨hlow, hhigh⟩ := h.resolve_left hpos.ne'
  rw [abs_of_pos hpos] at hlow hhigh
  have hp : (0 : ℚ) < 2 ^ t := zpow_pos (by norm_num) t
  -- half of the last place, whether that is as small as can be or as small as the number allows
  have hplace : (2 : ℚ) ^ t ≤ q / 2 ^ 52 := by
    rw [le_div_iff₀ (by positivity)]
    rcases hneighbour.le_exponent.lt_or_eq with hlt | rfl
    · calc (2 : ℚ) ^ t * 2 ^ 52 = 2 ^ (t + 52) := by
            rw [zpow_add₀ (by norm_num)]
            rfl
        _ ≤ q := hneighbour.normal hlt
    · calc (2 : ℚ) ^ (-1074 : Int) * 2 ^ 52 = 2 ^ (-1022 : Int) := by
            rw [← zpow_natCast, ← zpow_add₀ (by norm_num)]
            rfl
        _ ≤ 2 ^ (-1000 : Int) := zpow_le_zpow_right₀ (by norm_num) (by norm_num)
        _ ≤ q := hlow
  have herror : |n * 2 ^ t - q| ≤ q / 2 ^ 53 := by
    have hscaled : |n * 2 ^ t - q| = |q / 2 ^ t - n| * 2 ^ t := by
      rw [abs_sub_comm, ← abs_of_pos hp, ← abs_mul, abs_of_pos hp, sub_mul, div_mul_cancel₀ _ hp.ne']
    rw [hscaled]
    calc |q / 2 ^ t - n| * 2 ^ t ≤ 1 / 2 * (q / 2 ^ 52) := mul_le_mul hhalf hplace hp.le (by norm_num)
      _ = q / 2 ^ 53 := by ring
  obtain ⟨hbelow, habove⟩ := abs_le.mp herror
  have hdouble : (n : ℚ) * 2 ^ t ≤ 2 * q := by linarith
  have htwice : (n : ℚ) * 2 ^ t ≤ 2 ^ (1001 : Int) := by
    calc (n : ℚ) * 2 ^ t ≤ 2 * q := hdouble
      _ ≤ 2 * 2 ^ (1000 : Int) := mul_le_mul_of_nonneg_left hhigh (by norm_num)
      _ = 2 ^ (1001 : Int) := (zpow_one_add₀ (by norm_num) 1000).symm
  have hvalue := hrounded.hasValue (by linarith) htwice
  refine ⟨_, hvalue, ?_⟩
  rw [← signed_sub, abs_signed, abs_signed, abs_of_pos hpos]
  exact herror

/-- An ordinary product keeps its places. -/
theorem close_mul (hx : HasValue x v) (hy : HasValue y w) (h : Ordinary (v * w)) : Close (x * y) (v * w) := by
  have hmul : x * y = ⟨Float.Model.pack (.mul Format.binary64 x.toModel.unpack y.toModel.unpack)⟩ := rfl
  have hzero : ∀ s, Close ⟨Float.Model.pack (.zero s)⟩ 0 := fun s => HasValue.close (hasValue_of_zero (unpack_pack_zero _))
  rw [hmul]
  unfold HasValue at hx hy
  generalize x.toModel.unpack = a at hx
  generalize y.toModel.unpack = b at hy
  cases hx with
  | zero s =>
    rw [zero_mul]
    cases hy <;> exact hzero _
  | @finite s₁ m₁ e₁ hm₁ h₁ =>
    cases hy with
    | zero s =>
      rw [mul_zero]
      exact hzero _
    | @finite s₂ m₂ e₂ hm₂ h₂ =>
      have hvalue : ((m₁ * m₂ : ℕ) : ℚ) * 2 ^ (e₁ + e₂) = m₁ * 2 ^ e₁ * (m₂ * 2 ^ e₂) := by
        rw [zpow_add₀ (by norm_num)]
        push_cast
        ring
      rw [← signed_mul, ← hvalue] at h ⊢
      rw [ordinary_signed] at h
      exact close_round (s₁ * s₂) (by positivity) h (rests_exact _ _) (h₁.le_lastPlace_mul h₂ hm₁ hm₂)

/-- An ordinary quotient keeps its places. -/
theorem close_div (hx : HasValue x v) (hy : HasValue y w) (hw : w ≠ 0) (h : Ordinary (v / w)) :
    Close (x / y) (v / w) := by
  have hdiv : x / y = ⟨Float.Model.pack (.div Format.binary64 x.toModel.unpack y.toModel.unpack)⟩ := rfl
  rw [hdiv]
  unfold HasValue at hx hy
  generalize x.toModel.unpack = a at hx
  generalize y.toModel.unpack = b at hy
  cases hy with
  | zero s => exact absurd rfl hw
  | @finite s₂ m₂ e₂ hm₂ h₂ =>
    cases hx with
    | zero s =>
      rw [zero_div] at h ⊢
      exact HasValue.close (hasValue_of_zero (unpack_pack_zero _))
    | @finite s₁ m₁ e₁ hm₁ h₁ =>
      obtain ⟨hrest, he⟩ := divCore_spec e₁ e₂ hm₁ hm₂
      rw [← signed_div, ordinary_signed] at h
      rw [← signed_div]
      refine close_round (s₁ / s₂) (by positivity) ?_ hrest he
      exact h

/-! ## Whole numbers -/

/-- What is closer to a whole number than the doubles next to it is rounded to it. -/
theorem exists_rounds_whole {n : ℕ} (hn : 0 < n) (hlt : n < 0x20000000000000) (h : |q - n| < n / 2 ^ 54) :
    ∃ (m : ℕ) (e : Int), 0 < m ∧ Fits m e ∧ (m : ℚ) * 2 ^ e = n ∧ Rounds m e q := by
  obtain ⟨m, e, hm, hf, hvalue⟩ := exists_fits hn hlt (show -1000 ≤ (0 : Int) by decide) (by decide)
  rw [zpow_zero, mul_one] at hvalue
  refine ⟨m, e, hm, hf, hvalue, ?_⟩
  have hp : (0 : ℚ) < 2 ^ e := zpow_pos (by norm_num) e
  obtain ⟨hlow, hhigh⟩ := abs_lt.mp h
  rw [← hvalue] at hlow hhigh
  have hm' : (m : ℚ) < 2 ^ 53 := by exact_mod_cast hf.significand_lt
  have hbelow : ((roundingInterval m e).1 : ℚ) ≤ 4 * m - m / 2 ^ 52 := by
    simp only [roundingInterval]
    split
    · rename_i hlead
      rw [hlead.1]
      norm_num
    · have htwo : ((4 * m - 2 : ℕ) : ℚ) = 4 * m - 2 := by
        push_cast [show 2 ≤ 4 * m by omega]
        rfl
      rw [htwo]
      linarith
  have habove : 4 * m + m / 2 ^ 52 ≤ ((roundingInterval m e).2 : ℚ) := by
    simp only [roundingInterval]
    push_cast
    linarith
  have hlow' : ((roundingInterval m e).1 : ℚ) * 2 ^ e < 4 * q := by
    calc ((roundingInterval m e).1 : ℚ) * 2 ^ e ≤ (4 * m - m / 2 ^ 52) * 2 ^ e := by gcongr
      _ = 4 * (m * 2 ^ e) - 4 * (m * 2 ^ e / 2 ^ 54) := by ring
      _ < 4 * q := by linarith
  have hhigh' : 4 * q < ((roundingInterval m e).2 : ℚ) * 2 ^ e := by
    calc 4 * q < 4 * (m * 2 ^ e) + 4 * (m * 2 ^ e / 2 ^ 54) := by linarith
      _ = (4 * m + m / 2 ^ 52) * 2 ^ e := by ring
      _ ≤ ((roundingInterval m e).2 : ℚ) * 2 ^ e := by gcongr
  exact ⟨hlow'.le, hhigh'.le, fun _ => ⟨hlow', hhigh'⟩⟩

/-- So a product becomes a whole number that it is as close to. -/
theorem hasValue_mul_whole {n : ℕ} (hx : HasValue x v) (hy : HasValue y w) (hv : 0 < v) (hw : 0 < w) (hn : 0 < n)
    (hlt : n < 0x20000000000000) (h : |v * w - n| < n / 2 ^ 54) : HasValue (x * y) n := by
  have hmul : x * y = ⟨Float.Model.pack (.mul Format.binary64 x.toModel.unpack y.toModel.unpack)⟩ := rfl
  have hpositive : ∀ {s : Sign} {u : ℚ}, 0 ≤ u → 0 < signed s u → s = .positive := by
    intro s u hu hs
    cases s with
    | positive => rfl
    | negative => exact absurd hs (not_lt.mpr (neg_nonpos.mpr hu))
  obtain ⟨m, e, hm, hf, hvalue, hround⟩ := exists_rounds_whole hn hlt h
  rw [hmul, ← hvalue]
  unfold HasValue at hx hy
  generalize x.toModel.unpack = a at hx
  generalize y.toModel.unpack = b at hy
  cases hx with
  | zero s => exact absurd hv (lt_irrefl 0)
  | @finite s₁ m₁ e₁ hm₁ h₁ =>
    cases hy with
    | zero s => exact absurd hw (lt_irrefl 0)
    | @finite s₂ m₂ e₂ hm₂ h₂ =>
      obtain rfl := hpositive (by positivity) hv
      obtain rfl := hpositive (by positivity) hw
      have hproduct : ((m₁ * m₂ : ℕ) : ℚ) * 2 ^ (e₁ + e₂) =
          signed .positive (m₁ * 2 ^ e₁) * signed .positive (m₂ * 2 ^ e₂) := by
        rw [signed, signed, zpow_add₀ (by norm_num)]
        push_cast
        ring
      rw [mul_eq hm₁ hm₂ (h₁.le_lastPlace_mul h₂ hm₁ hm₂) (hproduct ▸ hround) hf hm]
      exact hasValue_pack (s := .positive) hf hm

/-- A rounded number that is off from a fraction by less than the unit of the latter has the same whole part, or one
less where the fraction is whole and the number below it before it was rounded. -/
theorem floor_rounded {k n : ℕ} (hz : HasValue z w) (hf : Faithful z v) (hw : 0 ≤ w) (hn : 0 < n)
    (hk : k < 0x20000000000000) (h : |w * n - k| < 1) : ⌊w⌋₊ = k / n ∨ n ∣ k ∧ v * n < k ∧ ⌊w⌋₊ + 1 = k / n := by
  have hn' : (0 : ℚ) < n := by exact_mod_cast hn
  have hsplit : (k : ℚ) = n * (k / n : ℕ) + (k % n : ℕ) := by exact_mod_cast (Nat.div_add_mod k n).symm
  have hrest : ((k % n : ℕ) : ℚ) + 1 ≤ n := by exact_mod_cast Nat.mod_lt k hn
  obtain ⟨hlow, hhigh⟩ := abs_lt.mp h
  have hbelow : w < (k / n : ℕ) + 1 := by
    refine lt_of_mul_lt_mul_right ?_ hn'.le
    linarith
  rcases le_or_gt ((k / n : ℕ) : ℚ) w with hle | hlt
  · exact Or.inl ((Nat.floor_eq_iff hw).mpr ⟨hle, hbelow⟩)
  · -- only a whole fraction can be missed
    have hmod : k % n = 0 := by
      by_contra hne
      have hone : (1 : ℚ) ≤ (k % n : ℕ) := by exact_mod_cast Nat.pos_of_ne_zero hne
      have := mul_lt_mul_of_pos_right hlt hn'
      linarith
    rw [hmod, Nat.cast_zero, add_zero] at hsplit
    refine Or.inr ⟨Nat.dvd_of_mod_eq_zero hmod, ?_, ?_⟩
    · have hsmall : |((k / n : ℕ) : Int)| < 0x20000000000000 := by
        rw [abs_of_nonneg (Int.natCast_nonneg _)]
        exact_mod_cast (Nat.div_le_self k n).trans_lt hk
      obtain ⟨x, hx⟩ := exists_hasValue_whole hsmall
      rw [hsplit, mul_comm]
      refine mul_lt_mul_of_pos_left (lt_of_not_ge fun hge => ?_) hn'
      have hle := (le_iff_of_hasValue hx hz).mp (hf.le_of_le hx (by exact_mod_cast hge))
      exact absurd hlt (not_lt.mpr (by exact_mod_cast hle))
    · have hfloor : ⌊w⌋₊ < k / n := (Nat.floor_lt hw).mpr hlt
      have hclose : ((k / n : ℕ) : ℚ) < w + 1 := by
        refine lt_of_mul_lt_mul_right ?_ hn'.le
        have hone : (1 : ℚ) ≤ n := by exact_mod_cast hn
        linarith
      have hceil : k / n < ⌊w⌋₊ + 2 := by
        have := Nat.lt_floor_add_one w
        exact_mod_cast (show ((k / n : ℕ) : ℚ) < ⌊w⌋₊ + 2 by linarith)
      omega

end Tremor.Number
