/-!
# Words without overflow

`Int64` wraps around. Where the exact result fits into a word (`InWord`), it is the result in words too.

- `toInt_add_of_inWord`, `toInt_sub_of_inWord` : sums and differences that fit
- `toInt_abs`, `div_eq_ofInt` : magnitudes and quotients
- `compare_add_right` : adding a word to both sides keeps their order
-/

namespace Tremor

/-- An integer that a word can hold. -/
def InWord (i : Int) : Prop := -0x8000000000000000 ≤ i ∧ i < 0x8000000000000000

instance (i : Int) : Decidable (InWord i) := inferInstanceAs (Decidable (_ ∧ _))

theorem InWord.bmod_eq {i : Int} (h : InWord i) : i.bmod Int64.size = i := by
  obtain ⟨hlow, hhigh⟩ := h
  exact Int.bmod_eq_of_le_mul_two (by rw [Int64.size]; omega) (by rw [Int64.size]; omega)

theorem toInt_ofInt_of_inWord {i : Int} (h : InWord i) : (Int64.ofInt i).toInt = i := Int64.toInt_ofInt_of_le h.1 h.2

/-- A truncated quotient is no farther from zero. -/
theorem InWord.tdiv {i n : Int} (h : InWord i) (hn : 0 < n) : InWord (i.tdiv n) := by
  have habs := Int.natAbs_tdiv_le_natAbs i n
  have hzero : (0 : Int).tdiv n = 0 := Int.zero_tdiv n
  obtain ⟨hlow, hhigh⟩ := h
  -- the quotient has the sign of `i`, or is zero
  rcases Int.le_total 0 i with hpos | hneg
  · have hsign := Int.tdiv_le_tdiv hn hpos
    exact ⟨by omega, by omega⟩
  · have hsign := Int.tdiv_le_tdiv hn hneg
    exact ⟨by omega, by omega⟩

/-- A sum that fits. -/
theorem toInt_add_of_inWord {a b : Int64} (h : InWord (a.toInt + b.toInt)) : (a + b).toInt = a.toInt + b.toInt := by
  exact (Int64.toInt_add a b).trans h.bmod_eq

/-- A difference that fits. -/
theorem toInt_sub_of_inWord {a b : Int64} (h : InWord (a.toInt - b.toInt)) : (a - b).toInt = a.toInt - b.toInt := by
  exact (Int64.toInt_sub a b).trans h.bmod_eq

/-- The magnitude of a word. -/
theorem toInt_abs {i : Int64} (h : -0x8000000000000000 < i.toInt) : i.abs.toInt = i.toInt.natAbs := by
  have habs : i.abs.toInt = i.toBitVec.abs.toInt := rfl
  have hmin : i.toBitVec ≠ BitVec.intMin 64 := by
    intro hi
    have : i.toInt = -0x8000000000000000 := congrArg BitVec.toInt hi
    omega
  rw [habs, BitVec.toInt_abs_eq_natAbs_of_ne_intMin hmin]
  rfl

theorem div_eq_ofInt (a b : Int64) : a / b = Int64.ofInt (a.toInt.tdiv b.toInt) := by
  rw [← Int64.toInt_inj, Int64.toInt_div, Int64.toInt_ofInt]

theorem compare_toInt (a b : Int64) : compare a.toInt b.toInt = compare a b := by
  rcases Int.lt_trichotomy a.toInt b.toInt with h | h | h
  · rw [Int.compare_eq_lt.mpr h, Std.compare_eq_lt.mpr (Int64.lt_iff_toInt_lt.mpr h)]
  · rw [Int.compare_eq_eq.mpr h, Int64.toInt_inj.mp h, Std.ReflOrd.compare_self]
  · rw [Int.compare_eq_gt.mpr h, Std.compare_eq_gt.mpr (Int64.lt_iff_toInt_lt.mpr h)]

/-- Adding a word to both sides keeps their order, as long as both sums fit. -/
theorem compare_add_right {a b t : Int64} (ha : InWord (a.toInt + t.toInt)) (hb : InWord (b.toInt + t.toInt)) :
    compare (a + t) (b + t) = compare a b := by
  rw [← compare_toInt, ← compare_toInt, toInt_add_of_inWord ha, toInt_add_of_inWord hb]
  rcases Int.lt_trichotomy a.toInt b.toInt with h | h | h
  · rw [Int.compare_eq_lt.mpr h, Int.compare_eq_lt.mpr (by omega)]
  · rw [h, Int.compare_eq_eq.mpr rfl, Int.compare_eq_eq.mpr rfl]
  · rw [Int.compare_eq_gt.mpr h, Int.compare_eq_gt.mpr (by omega)]

end Tremor
