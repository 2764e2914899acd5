import Tremor.Proofs.DoubleValues

/-!
# Rounding keeps to its side of every double

Every operation rounds its exact result to a neighbour, so that no double lies strictly between the two: what is at most
the exact result is at most the rounded one, and the other way round. An infinity is no exception, since it only
replaces what is beyond all doubles. So an exact result can be compared with a double by comparing the rounded one.

- `Faithful` : a double that is on the same side of every double as a rational
- `exists_neighbour`, `Neighbour.near` : rounding gives a neighbour, and no double lies between
- `faithful_round` : rounding is faithful
- `faithful_mul`, `faithful_div`, `faithful_sub`, `faithful_add` : so are products, quotients, differences and sums
- `unpack_mul_ne`, `mul_one_eq` : a product with a number that is not below one, and with one
-/

namespace Tremor.Number

open Float.Model (UnpackedFloat Format)
open Float.Model.UnpackedFloat (Accuracy Sign ExtendedMantissa roundWithAccuracy decreaseExponent)

variable {x y z : Float} {v w q : ℚ}

/-! ## Rounding -/

/-- A double is on the same side of every finite double as a rational. -/
structure Faithful (z : Float) (q : ℚ) : Prop where
  le_of_le : ∀ {x : Float} {v : ℚ}, HasValue x v → v ≤ q → x ≤ z
  ge_of_ge : ∀ {x : Float} {v : ℚ}, HasValue x v → q ≤ v → z ≤ x

/-- A double is on its own side. -/
theorem HasValue.faithful (h : HasValue z q) : Faithful z q where
  le_of_le hx hle := (le_iff_of_hasValue hx h).mpr hle
  ge_of_ge hx hle := (le_iff_of_hasValue h hx).mpr hle

/-- A rounded rational is a number, though it may be an infinity. -/
theorem Faithful.le_self (h : Faithful z q) : z ≤ z := by
  rcases le_total 0 q with hq | hq
  · exact (le_iff.mp (h.le_of_le hasValue_zero hq)).2.1
  · exact (le_iff.mp (h.ge_of_ge hasValue_zero hq)).1

theorem Faithful.lt_of_lt (h : Faithful z q) (hy : HasValue y w) (hlt : z < y) : q < w :=
  lt_of_not_ge fun hle => (le_iff.mp (h.le_of_le hy hle)).2.2 hlt

/-- The magnitudes of doubles do not separate two magnitudes. -/
structure Near (v q : ℚ) : Prop where
  le_of_le : ∀ w, Magnitude w → w ≤ q → w ≤ v
  ge_of_ge : ∀ w, Magnitude w → q ≤ w → v ≤ w

/-- What rounds a magnitude faithfully does so with either sign. -/
theorem faithful_of_near {s : Sign} (hz : HasValue z (signed s v)) (hq : 0 ≤ q) (hv : 0 ≤ v) (h : Near v q) :
    Faithful z (signed s q) where
  le_of_le {x u} hx hle := by
    have hu := Stands.magnitude hx
    rw [le_iff_of_hasValue hx hz]
    cases s with
    | positive =>
      rcases le_total u 0 with hneg | hpos
      · exact hneg.trans hv
      · exact h.le_of_le u (abs_of_nonneg hpos ▸ hu) hle
    | negative =>
      have hle' : u ≤ -q := hle
      rw [abs_of_nonpos (by linarith)] at hu
      have := h.ge_of_ge (-u) hu (by linarith)
      change u ≤ -v
      linarith
  ge_of_ge {x u} hx hle := by
    have hu := Stands.magnitude hx
    rw [le_iff_of_hasValue hz hx]
    cases s with
    | positive =>
      have hle' : q ≤ u := hle
      rw [abs_of_nonneg (by linarith)] at hu
      exact h.ge_of_ge u hu hle'
    | negative =>
      have hle' : -q ≤ u := hle
      change -v ≤ u
      rcases le_total u 0 with hneg | hpos
      · rw [abs_of_nonpos hneg] at hu
        have := h.le_of_le (-u) hu (by linarith)
        linarith
      · linarith

/-- An infinity rounds what is beyond all doubles. -/
theorem faithful_of_infinity {s : Sign} (hz : z.toModel.unpack = .infinity s) (hq : 0 ≤ q)
    (h : ∀ w, Magnitude w → w < q) : Faithful z (signed s q) where
  le_of_le {x u} hx hle := by
    cases s with
    | positive => exact Number.le_of_lt (hx.lt_infinity hz)
    | negative =>
      have hle' : u ≤ -q := hle
      have := h _ (Stands.magnitude hx)
      rw [abs_of_nonpos (by linarith)] at this
      linarith
  ge_of_ge {x u} hx hle := by
    cases s with
    | positive =>
      have hle' : q ≤ u := hle
      have := h _ (Stands.magnitude hx)
      rw [abs_of_nonneg (by linarith)] at this
      linarith
    | negative => exact Number.le_of_lt (hx.infinity_lt hz)

/-- Rounding stays or goes one up. -/
theorem roundToNearestEven_bounds (m : ℕ) (acc : Accuracy) :
    m ≤ acc.roundToNearestEven m ∧ acc.roundToNearestEven m ≤ m + 1 := by
  cases acc with
  | exact => exact ⟨Nat.le_refl m, Nat.le_succ m⟩
  | inexact o =>
    cases o <;> simp only [Accuracy.roundToNearestEven] <;> omega

/-- Rounding by what the accuracy tells is off by a half at most. -/
theorem Rests.abs_sub_le {acc : Accuracy} {m : ℕ} (h : Rests acc (q - m)) :
    |q - (acc.roundToNearestEven m : ℕ)| ≤ 1 / 2 := by
  rw [abs_le]
  cases acc with
  | exact =>
    have hq : q - m = 0 := h
    change -(1 / 2) ≤ q - m ∧ q - m ≤ 1 / 2
    constructor <;> linarith
  | inexact o =>
    cases o with
    | lt =>
      change -(1 / 2) ≤ q - m ∧ q - m ≤ 1 / 2
      simp only [Rests] at h
      constructor <;> linarith
    | gt =>
      change -(1 / 2) ≤ q - (m + 1 : ℕ) ∧ q - (m + 1 : ℕ) ≤ 1 / 2
      simp only [Rests] at h
      push_cast
      constructor <;> linarith
    | eq =>
      -- a half goes either way
      obtain ⟨hlow, hhigh⟩ := roundToNearestEven_bounds m (.inexact .eq)
      have hlow : (m : ℚ) ≤ (Accuracy.roundToNearestEven m (.inexact .eq) : ℕ) := by exact_mod_cast hlow
      have hhigh : ((Accuracy.roundToNearestEven m (.inexact .eq) : ℕ) : ℚ) ≤ m + 1 := by exact_mod_cast hhigh
      simp only [Rests] at h
      constructor <;> linarith

/-- A whole number of units that a magnitude is rounded to: it is off by less than one, and the unit is as small as the
magnitude allows. -/
structure Neighbour (n : ℕ) (t : Int) (q : ℚ) : Prop where
  within : |q / 2 ^ t - n| < 1
  le_exponent : -1074 ≤ t
  normal : -1074 < t → (2 : ℚ) ^ (t + 52) ≤ q

theorem Neighbour.leadingBit_le {n : ℕ} {t : Int} (h : Neighbour n t q) (ht : -1074 < t) : leadingBit ≤ n := by
  have hp : (0 : ℚ) < 2 ^ t := zpow_pos (by norm_num) t
  have hq := h.normal ht
  rw [zpow_add₀ (by norm_num), ← le_div_iff₀' hp] at hq
  have hn : (2 : ℚ) ^ (52 : Int) < n + 1 := by linarith [(abs_lt.mp h.within).2]
  have hn' : leadingBit < n + 1 := by exact_mod_cast hn
  exact Nat.lt_succ_iff.mp hn'

/-- No magnitude of a double lies between a magnitude and its neighbour. -/
theorem Neighbour.near {n : ℕ} {t : Int} (h : Neighbour n t q) : Near (n * 2 ^ t) q := by
  have hp : (0 : ℚ) < 2 ^ t := zpow_pos (by norm_num) t
  obtain ⟨hlow, hhigh⟩ := abs_lt.mp h.within
  -- a double whose last place is not below the unit is a whole number of units
  have hunits : ∀ {m : ℕ} {e : Int}, t ≤ e → (m : ℚ) * 2 ^ e = (m * 2 ^ (e - t).toNat : ℕ) * 2 ^ t := by
    intro m e hle
    have he : e = ((e - t).toNat : Int) + t := by omega
    rw [he, zpow_add₀ (by norm_num), zpow_natCast]
    push_cast
    rw [← he, mul_assoc]
  -- any other one is below the leading bit of the magnitude
  have hbelow : ∀ {m : ℕ} {e : Int}, Fits m e → e < t → (m : ℚ) * 2 ^ e < 2 ^ (52 + t) :=
    fun hf hlt => hf.value_lt.trans_le (zpow_le_zpow_right₀ (by norm_num) (by omega))
  constructor
  · rintro w ⟨m, e, hf, rfl⟩ hle
    rcases Int.lt_or_le e t with hlt | hge
    · have hleast := hf.le_exponent
      have hn : (2 : ℚ) ^ (52 : Int) ≤ n := by exact_mod_cast h.leadingBit_le (by omega)
      refine (hbelow hf hlt).le.trans ?_
      rw [zpow_add₀ (by norm_num)]
      exact mul_le_mul_of_nonneg_right hn hp.le
    · rw [hunits hge] at hle ⊢
      rw [← le_div_iff₀ hp] at hle
      refine mul_le_mul_of_nonneg_right ?_ hp.le
      have hlt : ((m * 2 ^ (e - t).toNat : ℕ) : ℚ) < n + 1 := by linarith
      exact_mod_cast Nat.lt_succ_iff.mp (by exact_mod_cast hlt)
  · rintro w ⟨m, e, hf, rfl⟩ hle
    rcases Int.lt_or_le e t with hlt | hge
    · have hleast := hf.le_exponent
      have hsmall := hbelow hf hlt
      rw [add_comm] at hsmall
      exact absurd ((h.normal (by omega)).trans hle) (not_le.mpr hsmall)
    · rw [hunits hge] at hle ⊢
      rw [← div_le_iff₀ hp] at hle
      refine mul_le_mul_of_nonneg_right ?_ hp.le
      have hlt : (n : ℚ) < ((m * 2 ^ (e - t).toNat : ℕ) : ℚ) + 1 := by linarith
      exact_mod_cast Nat.lt_succ_iff.mp (by exact_mod_cast hlt)

/-- What rounding makes of a magnitude: nothing, or a significand and an exponent that fit unless they are too large. -/
inductive Rounded (s : Sign) (w : ℚ) : UnpackedFloat → Prop
  | zero (h : w = 0) : Rounded s w (.zero s)
  | finite {m : ℕ} {e : Int} (hm : 0 < m) (hlt : m < 0x20000000000000) (hlow : -1074 ≤ e)
      (hnormal : e = -1074 ∨ leadingBit ≤ m) (h : w = m * 2 ^ e) : Rounded s w (.finite s m e hm)

/-- Rounding gives a neighbour, which is off by half a unit at most. -/
theorem exists_neighbour (s : Sign) {m : ℕ} {e : Int} {acc : Accuracy} (hrest : Rests acc (q / 2 ^ e - m))
    (he : e ≤ lastPlace m e) : ∃ (n : ℕ) (t : Int), Neighbour n t q ∧ |q / 2 ^ t - n| ≤ 1 / 2 ∧
      Rounded s (n * 2 ^ t) (roundWithAccuracy Format.binary64 s m e acc) := by
  obtain ⟨h0, h1⟩ := hrest.bounds
  obtain ⟨hlt, hge⟩ := bounds_of_lastPlace (sub_nonneg.mp h0) (sub_lt_iff_lt_add'.mp h1) he
  obtain ⟨em, hshift, hrest'⟩ := exists_shiftToTargetExponent hrest he
  have ht : -1074 ≤ lastPlace m e := le_max_right _ _
  generalize lastPlace m e = t at hlt hge hshift hrest' ht
  have hp : (0 : ℚ) < 2 ^ t := zpow_pos (by norm_num) t
  obtain ⟨h0', h1'⟩ := hrest'.bounds
  have hbelow : em.mantissa < 0x20000000000000 := by
    rw [zpow_add₀ (by norm_num), ← div_lt_iff₀' hp] at hlt
    have hcast : (em.mantissa : ℚ) < 2 ^ (53 : Int) := by linarith
    exact_mod_cast hcast
  have hhalf : |q / 2 ^ t - em.roundedMantissa| ≤ 1 / 2 := hrest'.abs_sub_le
  have hnear : Neighbour em.roundedMantissa t q := ⟨hhalf.trans_lt (by norm_num), ht, hge⟩
  refine ⟨em.roundedMantissa, t, hnear, hhalf, ?_⟩
  have hnormal : t = -1074 ∨ leadingBit ≤ em.roundedMantissa :=
    ht.lt_or_eq.elim (fun hlt' => Or.inr (hnear.leadingBit_le hlt')) fun heq => Or.inl heq.symm
  have hround : em.roundedMantissa ≤ em.mantissa + 1 := (roundToNearestEven_bounds em.mantissa em.accuracy).2
  rcases Nat.lt_or_eq_of_le (Nat.le_trans hround hbelow) with hfits | hcarry
  · rcases Nat.eq_zero_or_pos em.roundedMantissa with hzero | hpos
    · have hresult : roundWithAccuracy Format.binary64 s m e acc = .zero s := by
        unfold roundWithAccuracy
        rw [hshift]
        dsimp only
        rw [hzero, shiftToTargetExponent_small (show 0 < 0x20000000000000 by decide) ht]
        rfl
      rw [hresult]
      exact .zero (by rw [hzero, Nat.cast_zero, zero_mul])
    · rw [roundWithAccuracy_of_shifts hshift (shiftToTargetExponent_small hfits ht) hpos]
      exact .finite hpos hfits ht hnormal rfl
  · have hshift' := shiftToTargetExponent_carry ht
    rw [← hcarry] at hshift'
    rw [roundWithAccuracy_of_shifts hshift hshift' (by decide), hcarry]
    refine .finite (by decide) (by decide) (by omega) (Or.inr (le_refl _)) ?_
    rw [zpow_add₀ (by norm_num)]
    norm_num
    ring

/-- A magnitude is below the first power of two that is none. -/
theorem Fits.lt_greatest {m : ℕ} {e : Int} (h : Fits m e) : (m : ℚ) * 2 ^ e < 2 ^ (1024 : Int) := by
  have he := h.exponent_le
  exact h.value_lt.trans_le (zpow_le_zpow_right₀ (by norm_num) (by omega))

/-- What has too large an exponent becomes an infinity. -/
theorem unpack_pack_infinity (s : Sign) {m : ℕ} {e : Int} (hm : 0 < m) (he : 971 < e) :
    (Float.Model.pack (.finite s m e hm)).unpack = .infinity s := by
  have hpack : UnpackedFloat.pack Format.binary64 (.finite s m e hm) =
      UnpackedFloat.pack Format.binary64 (.infinity s) := by
    refine if_pos ?_
    show 2048 ≤ (e + (1023 : ℕ) + (52 : ℕ)).toNat + 1
    omega
  show UnpackedFloat.unpack Format.binary64 (UnpackedFloat.pack Format.binary64 _) = _
  rw [hpack]
  cases s <;> rfl

/-- What a magnitude is rounded to is on its side of every double, also when it becomes an infinity. -/
theorem Rounded.faithful {s : Sign} {u : UnpackedFloat} (h : Rounded s v u) (hv : 0 ≤ v) (hq : 0 ≤ q)
    (hnear : Near v q) : Faithful ⟨Float.Model.pack u⟩ (signed s q) := by
  cases h with
  | zero h =>
    have hz : HasValue ⟨Float.Model.pack (.zero s)⟩ (signed s v) := by
      rw [h, signed_zero]
      exact hasValue_of_zero (unpack_pack_zero _)
    exact faithful_of_near hz hq hv hnear
  | @finite m e hm hlt hlow hnormal h =>
    rcases Int.lt_or_le 971 e with hlarge | hsmall
    · refine faithful_of_infinity (unpack_pack_infinity s hm hlarge) hq ?_
      rintro w ⟨m', e', hf, rfl⟩
      -- what it is rounded to is beyond all doubles
      refine lt_of_not_ge fun hle => ?_
      have hle' := (hnear.ge_of_ge _ ⟨m', e', hf, rfl⟩ hle).trans_lt hf.lt_greatest
      have hm' : (2 : ℚ) ^ (52 : Int) ≤ m := by exact_mod_cast hnormal.resolve_left (by omega)
      have hgreat : (2 : ℚ) ^ (1024 : Int) ≤ m * 2 ^ e := by
        calc (2 : ℚ) ^ (1024 : Int) ≤ 2 ^ (52 + e) := zpow_le_zpow_right₀ (by norm_num) (by omega)
          _ = 2 ^ (52 : Int) * 2 ^ e := zpow_add₀ (by norm_num) _ _
          _ ≤ m * 2 ^ e := mul_le_mul_of_nonneg_right hm' (zpow_pos (by norm_num) e).le
      rw [h] at hle'
      exact absurd hle' (not_lt.mpr hgreat)
    · have hz := hasValue_pack (s := s) ⟨hlt, hlow, hsmall, hnormal⟩ hm
      rw [← h] at hz
      exact faithful_of_near hz hq hv hnear

/-- Rounding is faithful. -/
theorem faithful_round (s : Sign) {m : ℕ} {e : Int} {acc : Accuracy} (hq : 0 ≤ q) (hrest : Rests acc (q / 2 ^ e - m))
    (he : e ≤ lastPlace m e) :
    Faithful ⟨Float.Model.pack (roundWithAccuracy Format.binary64 s m e acc)⟩ (signed s q) := by
  obtain ⟨n, t, hneighbour, -, hrounded⟩ := exists_neighbour s hrest he
  exact hrounded.faithful (by positivity) hq hneighbour.near

/-! ## Operations -/

/-- The product of two doubles has no fewer places than are kept. -/
theorem Fits.le_lastPlace_mul {m₁ m₂ : ℕ} {e₁ e₂ : Int} (h₁ : Fits m₁ e₁) (h₂ : Fits m₂ e₂) (hm₁ : 0 < m₁)
    (hm₂ : 0 < m₂) : e₁ + e₂ ≤ lastPlace (m₁ * m₂) (e₁ + e₂) := by
  rcases h₁.normal with rfl | hn₁
  · rcases h₂.normal with rfl | hn₂
    · exact le_trans (by norm_num) (le_max_right _ _)
    · exact (le_lastPlace (Nat.le_trans hn₂ (Nat.le_mul_of_pos_left m₂ hm₁)) _).2
  · exact (le_lastPlace (Nat.le_trans hn₁ (Nat.le_mul_of_pos_right m₁ hm₂)) _).2

/-- A product of parts that has no fewer places than are kept is rounded faithfully. -/
theorem faithful_mul_parts {s₁ s₂ : Sign} {m₁ m₂ : ℕ} {e₁ e₂ : Int} (hm₁ : 0 < m₁) (hm₂ : 0 < m₂)
    (he : e₁ + e₂ ≤ lastPlace (m₁ * m₂) (e₁ + e₂)) :
    Faithful ⟨Float.Model.pack (.mul Format.binary64 (.finite s₁ m₁ e₁ hm₁) (.finite s₂ m₂ e₂ hm₂))⟩
      (signed s₁ (m₁ * 2 ^ e₁) * signed s₂ (m₂ * 2 ^ e₂)) := by
  have hvalue : ((m₁ * m₂ : ℕ) : ℚ) * 2 ^ (e₁ + e₂) = m₁ * 2 ^ e₁ * (m₂ * 2 ^ e₂) := by
    rw [zpow_add₀ (by norm_num)]
    push_cast
    ring
  rw [← signed_mul, ← hvalue]
  exact faithful_round (s₁ * s₂) (by positivity) (rests_exact _ _) he

/-- A product is rounded faithfully. -/
theorem faithful_mul (hx : HasValue x v) (hy : HasValue y w) : Faithful (x * y) (v * w) := by
  have hmul : x * y = ⟨Float.Model.pack (.mul Format.binary64 x.toModel.unpack y.toModel.unpack)⟩ := rfl
  rw [hmul]
  unfold HasValue at hx hy
  generalize x.toModel.unpack = a at hx
  generalize y.toModel.unpack = b at hy
  have hzero : ∀ s, Faithful ⟨Float.Model.pack (.zero s)⟩ 0 := fun s =>
    HasValue.faithful (hasValue_of_zero (unpack_pack_zero _))
  cases hx with
  | zero s =>
    rw [zero_mul]
    cases hy <;> exact hzero _
  | @finite s₁ m₁ e₁ hm₁ h₁ =>
    cases hy with
    | zero s =>
      rw [mul_zero]
      exact hzero _
    | @finite s₂ m₂ e₂ hm₂ h₂ => exact faithful_mul_parts hm₁ hm₂ (h₁.le_lastPlace_mul h₂ hm₁ hm₂)

/-- A quotient is rounded faithfully. -/
theorem faithful_div (hx : HasValue x v) (hy : HasValue y w) (hw : w ≠ 0) : Faithful (x / y) (v / w) := by
  have hdiv : x / y = ⟨Float.Model.pack (.div Format.binary64 x.toModel.unpack y.toModel.unpack)⟩ := rfl
  rw [hdiv]
  unfold HasValue at hx hy
  generalize x.toModel.unpack = a at hx
  generalize y.toModel.unpack = b at hy
  cases hy with
  | zero s => exact absurd rfl hw
  | @finite s₂ m₂ e₂ hm₂ h₂ =>
    cases hx with
    | zero s =>
      rw [zero_div]
      exact HasValue.faithful (hasValue_of_zero (unpack_pack_zero _))
    | @finite s₁ m₁ e₁ hm₁ h₁ =>
      obtain ⟨hrest, he⟩ := divCore_spec e₁ e₂ hm₁ hm₂
      rw [← signed_div]
      exact faithful_round (s₁ / s₂) (by positivity) hrest he

/-- A magnitude without a rest is rounded faithfully. -/
theorem faithful_roundExact (s : Sign) (m : ℕ) (e : Int) (hm : 0 < m) :
    Faithful ⟨Float.Model.pack (.round Format.binary64 s m e)⟩ (signed s (m * 2 ^ e)) := by
  unfold UnpackedFloat.round decreaseExponent
  dsimp only
  rw [targetExponent_eq]
  have hk : e - (e - lastPlace m e).toNat ≤ lastPlace m e := by omega
  generalize (e - lastPlace m e).toNat = k at hk ⊢
  have hlast : e - k ≤ lastPlace (m <<< k) (e - k) := by
    rw [lastPlace_shiftLeft hm]
    exact hk
  have hround := faithful_round s (by positivity) (rests_exact (m <<< k) (e - k)) hlast
  rwa [cast_shiftLeft_mul] at hround

/-- So is a whole number of units. -/
theorem faithful_normalize (i e : Int) (s : Sign) :
    Faithful ⟨Float.Model.pack (.normalize Format.binary64 i e s)⟩ (i * 2 ^ e) := by
  unfold UnpackedFloat.normalize
  rcases lt_trichotomy i 0 with hlt | rfl | hgt
  · have h := faithful_roundExact .negative (-i).toNat e (by omega)
    have hi : (i : ℚ) = -((-i).toNat : ℚ) := by
      have : i = -((-i).toNat : Int) := by omega
      exact_mod_cast this
    rw [Int.compare_eq_lt.mpr hlt, hi, neg_mul]
    exact h
  · rw [Int.cast_zero, zero_mul]
    exact HasValue.faithful (hasValue_of_zero (unpack_pack_zero _))
  · have h := faithful_roundExact .positive i.toNat e (by omega)
    have hi : (i : ℚ) = (i.toNat : ℚ) := by
      have : i = (i.toNat : Int) := by omega
      exact_mod_cast this
    rw [Int.compare_eq_gt.mpr hgt, hi]
    exact h

/-- Places before the last one do not change a number. -/
theorem decreaseExponent_value (s : Sign) (m : ℕ) {e t : Int} (h : t ≤ e) :
    ((s.apply (decreaseExponent m e t).1 : Int) : ℚ) * 2 ^ t = signed s (m * 2 ^ e) := by
  have hvalue : ((m <<< (e - t).toNat : ℕ) : ℚ) * 2 ^ t = m * 2 ^ e := by
    have ht : t = e - (e - t).toNat := by omega
    nth_rewrite 2 [ht]
    exact cast_shiftLeft_mul m _ e
  rw [← hvalue]
  cases s with
  | negative =>
    show ((-((m <<< (e - t).toNat : ℕ) : Int) : Int) : ℚ) * 2 ^ t = -(((m <<< (e - t).toNat : ℕ) : ℚ) * 2 ^ t)
    rw [Int.cast_neg, Int.cast_natCast, neg_mul]
  | positive => rfl

/-- A difference is rounded faithfully. -/
theorem faithful_pack_sub {a b : UnpackedFloat} (hx : Stands a v) (hy : Stands b w) :
    Faithful ⟨Float.Model.pack (.sub Format.binary64 a b)⟩ (v - w) := by
  cases hx with
  | zero s₁ =>
    cases hy with
    | zero s₂ =>
      rw [sub_zero]
      cases s₁ <;> cases s₂ <;> exact HasValue.faithful (hasValue_of_zero (unpack_pack_zero _))
    | @finite s₂ m₂ e₂ hm₂ h₂ =>
      rw [zero_sub, ← signed_neg]
      exact HasValue.faithful (hasValue_pack h₂ hm₂)
  | @finite s₁ m₁ e₁ hm₁ h₁ =>
    cases hy with
    | zero s₂ =>
      rw [sub_zero]
      exact HasValue.faithful (hasValue_pack h₁ hm₁)
    | @finite s₂ m₂ e₂ hm₂ h₂ =>
      rw [← decreaseExponent_value s₁ m₁ (min_le_left e₁ e₂), ← decreaseExponent_value s₂ m₂ (min_le_right e₁ e₂),
        ← sub_mul, ← Int.cast_sub]
      exact faithful_normalize _ _ .positive

theorem faithful_sub (hx : HasValue x v) (hy : HasValue y w) : Faithful (x - y) (v - w) := faithful_pack_sub hx hy

/-- Adding is subtracting the opposite. -/
theorem add_eq_sub_neg (f : Format) (a b : UnpackedFloat) : UnpackedFloat.add f a b = UnpackedFloat.sub f a b.neg := by
  cases a with
  | notANumber => rfl
  | infinity s => cases b with
    | infinity t => cases s <;> cases t <;> rfl
    | notANumber | zero t | finite t m e hm => rfl
  | zero s => cases b with
    | zero t => cases s <;> cases t <;> rfl
    | infinity t | finite t m e hm => cases t <;> rfl
    | notANumber => rfl
  | finite s m e hm => cases b with
    | infinity t => cases t <;> rfl
    | notANumber | zero t => rfl
    | finite t m' e' hm' =>
      have hopposite : ∀ n : ℕ, (-t).apply n = -t.apply n := by
        intro n
        cases t with
        | positive => rfl
        | negative => exact (Int.neg_neg _).symm
      show UnpackedFloat.normalize f (_ + t.apply _) _ .positive =
        UnpackedFloat.normalize f (_ - (-t).apply _) _ .positive
      rw [hopposite, Int.sub_neg]

/-- A sum is rounded faithfully. -/
theorem faithful_add (hx : HasValue x v) (hy : HasValue y w) : Faithful (x + y) (v + w) := by
  have hadd : x + y = ⟨Float.Model.pack (.add Format.binary64 x.toModel.unpack y.toModel.unpack)⟩ := rfl
  rw [hadd, add_eq_sub_neg, ← sub_neg_eq_add]
  exact faithful_pack_sub hx (Stands.neg hy)

/-- A product with a number that is not below one is not rounded to zero. -/
theorem unpack_mul_ne (hx : HasValue x v) (hv : 0 < v) (hy : HasValue y w) (hw : 1 ≤ w) :
    (∀ t, (x * y).toModel.unpack ≠ .zero t) ∧ (x * y).toModel.unpack ≠ .notANumber := by
  have hle : x ≤ x * y := (faithful_mul hx hy).le_of_le hx (le_mul_of_one_le_right hv.le hw)
  constructor
  · intro t ht
    exact absurd ((le_iff_of_hasValue hx (hasValue_of_zero ht)).mp hle) (not_le.mpr hv)
  · intro hnone
    obtain ⟨a, ha⟩ := le_self_iff.mp (le_iff.mp hle).2.1
    rw [hnone] at ha
    cases ha

/-- Whatever is multiplied with one stays what it is. -/
theorem mul_one_eq (x : Float) : x * 1.0 = x := by
  have hunpack : (x * 1.0).toModel.unpack =
    (Float.Model.pack (.mul .binary64 x.toModel.unpack (.finite .positive leadingBit (-52) (by decide)))).unpack := rfl
  refine eq_of_unpack ?_
  cases hx : x.toModel.unpack with
  | notANumber =>
    rw [hunpack, hx]
    exact unpack_notANumber
  | infinity s =>
    rw [hunpack, hx]
    cases s <;> exact unpack_infinity _
  | zero s =>
    rw [hunpack, hx]
    cases s <;> exact unpack_pack_zero _
  | finite s m e hm =>
    have hvalue := hasValue_of_unpack hx
    have hproduct := faithful_mul hvalue hasValue_one
    rw [mul_one] at hproduct
    have hle := hproduct.le_of_le hvalue (le_refl _)
    have hge := hproduct.ge_of_ge hvalue (le_refl _)
    rcases unpack_of_beq (beq_of_le_of_le hge hle) with heq | ⟨-, t, ht⟩
    · exact heq.trans hx
    · rw [hx] at ht
      cases ht

end Tremor.Number
