import Tremor.Proofs.NearestDouble

/-!
# The fewest digits read back

The comparison of whole numbers that chooses the digits decides whether a decimal lies in the interval of a double. On
the grid sixteen places after the leading digit two neighbours of a double are less than its interval apart, so one of
them lies in it, and some digits are always found.

- `readsBack_iff` : what reads back is what rounds to the double
- `exists_onGrid` : one grid is fine enough
- `rounds_shortest` : the decimal that is chosen rounds to the double
-/

namespace Tremor.Number

/-! ## Quotients -/

/-- The value of a quotient. -/
def Quotient.value (q : Quotient) : ℚ := q.num / q.den

namespace Quotient

theorem value_binary (n : ℕ) (exponent : Int) : (binary n exponent).value = n * 2 ^ exponent := by
  rw [value, binary, zpow_eq_div two_ne_zero exponent, Nat.shiftLeft_eq, Nat.shiftLeft_eq]
  push_cast
  ring

theorem den_binary_pos (n : ℕ) (exponent : Int) : 0 < (binary n exponent).den := by
  show 0 < 1 <<< (-exponent).toNat
  rw [Nat.shiftLeft_eq, Nat.one_mul]
  exact Nat.two_pow_pos _

theorem num_binary_pos {n : ℕ} (hn : 0 < n) (exponent : Int) : 0 < (binary n exponent).num := by
  show 0 < n <<< exponent.toNat
  rw [Nat.shiftLeft_eq]
  exact Nat.mul_pos hn (Nat.two_pow_pos _)

theorem value_perTen (q : Quotient) (exponent : Int) : (q.perTen exponent).value = q.value / 10 ^ exponent := by
  rw [value, perTen, zpow_eq_div (by norm_num) exponent, value, Nat.cast_mul, Nat.cast_mul, cast_tenTo, cast_tenTo]
  field_simp

theorem den_perTen_pos {q : Quotient} (hq : 0 < q.den) (exponent : Int) : 0 < (q.perTen exponent).den :=
  Nat.mul_pos hq (Nat.pow_pos (by decide))

theorem floor_le {q : Quotient} (hq : 0 < q.den) : (q.floor : ℚ) ≤ q.value := by
  have hden : (0 : ℚ) < q.den := by exact_mod_cast hq
  rw [value, le_div_iff₀ hden, floor]
  exact_mod_cast Nat.div_mul_le_self q.num q.den

theorem lt_floor_add_one {q : Quotient} (hq : 0 < q.den) : q.value < q.floor + 1 := by
  have hden : (0 : ℚ) < q.den := by exact_mod_cast hq
  rw [value, div_lt_iff₀ hden, floor]
  exact_mod_cast Nat.lt_mul_of_div_lt (Nat.lt_succ_self _) hq

/-- The leading digit is not above the value. -/
theorem leading_le {q : Quotient} (hnum : 0 < q.num) (hden : 0 < q.den) : (10 : ℚ) ^ q.leading ≤ q.value := by
  have hden' : (0 : ℚ) < q.den := by exact_mod_cast hden
  unfold leading
  split
  · rename_i hone
    have hfloor : 0 < q.floor := Nat.div_pos hone hden
    have hlen : 0 < (decimalDigits q.floor).length := Nat.length_toDigits_pos
    have hdigits : (10 : ℚ) ^ ((decimalDigits q.floor).length - 1) ≤ q.floor := by
      exact_mod_cast (decimalDigits_bounds hfloor).1
    have he : ((decimalDigits q.floor).length : Int) - 1 = ((decimalDigits q.floor).length - 1 : ℕ) := by omega
    rw [he, zpow_natCast]
    exact hdigits.trans (floor_le hden)
  · rename_i hone
    have hquot : 0 < q.den / q.num := Nat.div_pos (by omega) hnum
    have hlen : 0 < (decimalDigits (q.den / q.num)).length := Nat.length_toDigits_pos
    have hlt := (decimalDigits_bounds hquot).2
    generalize (decimalDigits (q.den / q.num)).length = zeros at hlen hlt ⊢
    -- with so many zeros the value is at least one
    have hscaled : ∀ k : ℕ, q.den ≤ q.num * 10 ^ k → (10 : ℚ) ^ (-(k : Int)) ≤ q.value := by
      intro k hk
      have hk' : (q.den : ℚ) ≤ q.num * 10 ^ k := by exact_mod_cast hk
      rw [value, zpow_neg, zpow_natCast, le_div_iff₀ hden', inv_mul_le_iff₀ (by positivity)]
      linarith
    show (10 : ℚ) ^ (if q.den ≤ q.num * tenTo (zeros - 1) then 1 - (zeros : Int) else -(zeros : Int)) ≤ q.value
    split
    · rename_i hone'
      have he : 1 - (zeros : Int) = -((zeros - 1 : ℕ) : Int) := by omega
      rw [he]
      exact hscaled _ hone'
    · refine hscaled zeros ?_
      have hmul := (Nat.div_lt_iff_lt_mul hnum).mp hlt
      rw [Nat.mul_comm]
      exact hmul.le

end Quotient

/-! ## Decimals that read back -/

/-- What reads back is what rounds to the double. -/
theorem readsBack_iff {significand : ℕ} {exponent : Int} {digits : ℕ} {grid : Int} :
    readsBack significand exponent digits grid = true ↔ Rounds significand exponent (digits * 10 ^ grid) := by
  have hscale : (0 : ℚ) < 10 ^ (-grid).toNat * 2 ^ (-exponent).toNat := by positivity
  have hunit : ∀ a : ℕ, ((a * tenTo (-grid).toNat <<< exponent.toNat : ℕ) : ℚ) =
      a * 2 ^ exponent * (10 ^ (-grid).toNat * 2 ^ (-exponent).toNat) := by
    intro a
    rw [Nat.shiftLeft_eq, zpow_eq_div two_ne_zero exponent]
    push_cast
    rw [cast_tenTo]
    field_simp
  have hpoint : (((4 * digits * tenTo grid.toNat) <<< (-exponent).toNat : ℕ) : ℚ) =
      4 * (digits * 10 ^ grid) * (10 ^ (-grid).toNat * 2 ^ (-exponent).toNat) := by
    rw [Nat.shiftLeft_eq, zpow_eq_div (by norm_num) grid]
    push_cast
    rw [cast_tenTo]
    field_simp
  have hparity := Nat.mod_two_eq_zero_or_one significand
  simp only [readsBack]
  split
  · rename_i heven
    rw [decide_eq_true_eq, ← Nat.cast_le (α := ℚ), ← Nat.cast_le (α := ℚ), hunit, hunit, hpoint,
      mul_le_mul_iff_left₀ hscale, mul_le_mul_iff_left₀ hscale]
    exact ⟨fun h => ⟨h.1, h.2, fun hodd => by omega⟩, fun h => ⟨h.low, h.high⟩⟩
  · rename_i hodd
    rw [decide_eq_true_eq, ← Nat.cast_lt (α := ℚ), ← Nat.cast_lt (α := ℚ), hunit, hunit, hpoint,
      mul_lt_mul_iff_left₀ hscale, mul_lt_mul_iff_left₀ hscale]
    exact ⟨fun h => ⟨h.1.le, h.2.le, fun _ => h⟩, fun h => h.odd (by omega)⟩

/-- A quotient is rounded to one of its neighbours. -/
theorem roundQuotient_cases (tie : Tie) (num den : ℕ) :
    roundQuotient tie num den = num / den ∨ roundQuotient tie num den = num / den + 1 := by
  simp only [roundQuotient]
  split
  · exact Or.inl rfl
  · split
    · exact Or.inr rfl
    · cases tie with
      | even =>
        simp only
        omega
      | up => exact Or.inr rfl

/-- What is found on a grid reads back. -/
theorem readsBack_onGrid {tie : Tie} {significand : ℕ} {exponent grid : Int} {digits : ℕ}
    (h : onGrid tie significand exponent grid = some digits) :
    readsBack significand exponent digits grid = true := by
  simp only [onGrid, Quotient.floor] at h
  generalize (Quotient.binary significand exponent).perTen grid = value at h
  cases hlower : readsBack significand exponent (value.num / value.den) grid with
  | false =>
    cases hupper : readsBack significand exponent (value.num / value.den + 1) grid with
    | false => simp [hlower, hupper] at h
    | true =>
      simp only [hlower, hupper, Bool.false_and, Bool.false_eq_true, if_false, if_true, Option.some.injEq] at h
      rw [← h]
      exact hupper
  | true =>
    cases hupper : readsBack significand exponent (value.num / value.den + 1) grid with
    | false =>
      simp only [hlower, hupper, Bool.and_false, Bool.false_eq_true, if_false, if_true, Option.some.injEq] at h
      rw [← h]
      exact hlower
    | true =>
      simp only [hlower, hupper, Bool.and_self, if_true, Option.some.injEq] at h
      rcases roundQuotient_cases tie value.num value.den with hr | hr
      · rw [← h, hr]
        exact hlower
      · rw [← h, hr]
        exact hupper

/-- Nothing is found on a grid only if neither neighbour reads back. -/
theorem onGrid_isSome {tie : Tie} {significand : ℕ} {exponent grid : Int}
    (h : readsBack significand exponent ((Quotient.binary significand exponent).perTen grid).floor grid = true ∨
      readsBack significand exponent (((Quotient.binary significand exponent).perTen grid).floor + 1) grid = true) :
    (onGrid tie significand exponent grid).isSome := by
  simp only [onGrid]
  split
  · rfl
  · split
    · rfl
    · split
      · rfl
      · rename_i hlower hupper
        rcases h with h | h
        · exact absurd h hlower
        · exact absurd h hupper

/-! ## Some digits are found -/

/-- The interval of a double is wider than a spacing of sixteen places. -/
theorem roundingInterval_width {significand : ℕ} {exponent : Int} {spacing : ℚ} (hf : Fits significand exponent)
    (hpos : 0 < significand) (hspacing : spacing * 10 ^ 16 ≤ significand * 2 ^ exponent) :
    4 * spacing < ((roundingInterval significand exponent).2 : ℚ) * 2 ^ exponent -
      ((roundingInterval significand exponent).1 : ℚ) * 2 ^ exponent := by
  have hp : (0 : ℚ) < 2 ^ exponent := zpow_pos (by norm_num) exponent
  have hlt : (significand : ℚ) < 0x20000000000000 := by exact_mod_cast hf.significand_lt
  rw [← sub_mul]
  generalize (2 : ℚ) ^ exponent = unit at hp hspacing ⊢
  simp only [roundingInterval]
  split
  · rename_i hpower
    rw [hpower.1] at hspacing ⊢
    norm_num at hspacing ⊢
    linarith
  · have hcast : ((4 * significand - 2 : ℕ) : ℚ) = 4 * significand - 2 := by
      rw [Nat.cast_sub (by omega)]
      push_cast
      ring
    have hmul : (significand : ℚ) * unit < 0x20000000000000 * unit := mul_lt_mul_of_pos_right hlt hp
    have hwidth : ((4 * significand + 2 : ℕ) : ℚ) - (4 * significand - 2) = 4 := by
      push_cast
      ring
    rw [hcast, hwidth]
    linarith

/-- Of two numbers around a double that are less than its interval apart, one rounds to it. -/
theorem rounds_neighbour {significand : ℕ} {exponent : Int} {low spacing : ℚ} (hf : Fits significand exponent)
    (hpos : 0 < significand) (hlow : low ≤ significand * 2 ^ exponent)
    (hhigh : significand * 2 ^ exponent < low + spacing) (hspacing : spacing * 10 ^ 16 ≤ significand * 2 ^ exponent) :
    Rounds significand exponent low ∨ Rounds significand exponent (low + spacing) := by
  have hp : (0 : ℚ) < 2 ^ exponent := zpow_pos (by norm_num) exponent
  have hwidth := roundingInterval_width hf hpos hspacing
  obtain ⟨hbelow, habove⟩ := roundingInterval_around exponent hpos
  rcases lt_or_ge (((roundingInterval significand exponent).1 : ℚ) * 2 ^ exponent) (4 * low) with h | h
  · left
    have h' : 4 * low < ((roundingInterval significand exponent).2 : ℚ) * 2 ^ exponent := by linarith
    exact ⟨h.le, h'.le, fun _ => ⟨h, h'⟩⟩
  · right
    have h₁ : ((roundingInterval significand exponent).1 : ℚ) * 2 ^ exponent < 4 * (low + spacing) := by linarith
    have h₂ : 4 * (low + spacing) < ((roundingInterval significand exponent).2 : ℚ) * 2 ^ exponent := by linarith
    exact ⟨h₁.le, h₂.le, fun _ => ⟨h₁, h₂⟩⟩

/-- The grid sixteen places after the leading digit is fine enough. -/
theorem exists_onGrid (tie : Tie) {significand : ℕ} {exponent : Int} (hf : Fits significand exponent)
    (hpos : 0 < significand) :
    (onGrid tie significand exponent ((Quotient.binary significand exponent).leading - 16)).isSome := by
  have hden := Quotient.den_binary_pos significand exponent
  have hleading := Quotient.leading_le (Quotient.num_binary_pos hpos exponent) hden
  rw [Quotient.value_binary] at hleading
  refine onGrid_isSome ?_
  generalize hgrid : (Quotient.binary significand exponent).leading - 16 = grid
  have hten : (0 : ℚ) < 10 ^ grid := zpow_pos (by norm_num) grid
  have hspacing : (10 : ℚ) ^ grid * 10 ^ 16 ≤ significand * 2 ^ exponent := by
    have hpower : (10 : ℚ) ^ grid * 10 ^ 16 = 10 ^ (Quotient.binary significand exponent).leading := by
      rw [← zpow_natCast (10 : ℚ) 16, ← zpow_add₀ (by norm_num : (10 : ℚ) ≠ 0), ← hgrid]
      congr 1
      omega
    rw [hpower]
    exact hleading
  have hfloor := Quotient.floor_le (Quotient.den_perTen_pos hden grid)
  have hfloor' := Quotient.lt_floor_add_one (Quotient.den_perTen_pos hden grid)
  rw [Quotient.value_perTen, Quotient.value_binary] at hfloor hfloor'
  rw [le_div_iff₀ hten] at hfloor
  rw [div_lt_iff₀ hten, add_mul, one_mul] at hfloor'
  rw [readsBack_iff, readsBack_iff, Nat.cast_add_one, add_mul, one_mul]
  exact rounds_neighbour hf hpos hfloor hfloor' hspacing

/-! ## The decimal that is chosen -/

/-- Zeros at the end are taken off without changing the value. -/
theorem value_trim (fuel : ℕ) (d : Decimal) : (Decimal.trim fuel d).value = d.value := by
  induction fuel generalizing d with
  | zero => rfl
  | succ fuel ih =>
    unfold Decimal.trim
    split
    · rename_i h
      rw [ih, Decimal.value, Decimal.value]
      have hdigits : (d.digits : ℚ) = (d.digits / 10 : ℕ) * 10 := by
        exact_mod_cast (Nat.div_mul_cancel (Nat.dvd_of_mod_eq_zero h.2)).symm
      rw [hdigits, zpow_add_one₀ (by norm_num : (10 : ℚ) ≠ 0)]
      ring
    · rfl

/-- The decimal that is chosen rounds to the double. -/
theorem rounds_shortest (tie : Tie) {significand : ℕ} {exponent : Int} (hf : Fits significand exponent)
    (hpos : 0 < significand) : Rounds significand exponent (shortest tie significand exponent).value := by
  simp only [shortest, value_trim]
  cases hfound : (List.range 17).findSome? fun (further : ℕ) =>
      (onGrid tie significand exponent ((Quotient.binary significand exponent).leading - further)).map
        fun digits => Decimal.mk digits ((Quotient.binary significand exponent).leading - further) with
  | none =>
    -- the last grid is fine enough
    have hnone := List.findSome?_eq_none_iff.mp hfound 16 (List.mem_range.mpr (by decide))
    have hsome := exists_onGrid tie hf hpos
    rw [Option.map_eq_none_iff] at hnone
    rw [Nat.cast_ofNat] at hnone
    rw [hnone] at hsome
    cases hsome
  | some d =>
    obtain ⟨further, -, hd⟩ := List.exists_of_findSome?_eq_some hfound
    obtain ⟨digits, hgrid, rfl⟩ := Option.map_eq_some_iff.mp hd
    exact readsBack_iff.mp (readsBack_onGrid hgrid)

end Tremor.Number
