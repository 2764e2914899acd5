import Tremor.Number.TotalOrder

/-!
# The total order on doubles is an order

Two doubles have one key only if they are the same, and keys are compared as numbers. So `compareTotal` is a linear
order, whatever doubles it meets.

- `wordKey_inj`, `orderKey_inj` : keys tell words and doubles apart
- `compareTotal` is transitive, and equal only for the same double (instances)
- `pairwise_sortTotal`, `sortTotal_sortTotal` : sorting puts doubles in that order, and sorted ones stay as they are
-/

namespace Tremor.Number

/-- Turning over all bits but the sign keeps the sign. -/
theorem xor_maxValue_lt_zero {word : Int64} : word ^^^ Int64.maxValue < 0 ↔ word < 0 := by
  have hmsb : (Int64.maxValue.toBitVec).msb = false := by decide
  simp only [Int64.lt_iff_toBitVec_slt, Int64.toBitVec_xor, Int64.toBitVec_zero, BitVec.slt_zero_eq_msb,
    BitVec.msb_xor, hmsb, Bool.xor_false]

theorem wordKey_inj {a b : Int64} : wordKey a = wordKey b ↔ a = b := by
  refine ⟨fun h => ?_, congrArg wordKey⟩
  unfold wordKey at h
  split at h <;> split at h <;> rename_i ha hb
  · have hx := congrArg (· ^^^ Int64.maxValue) h
    simpa [Int64.xor_assoc] using hx
  · exact absurd (h ▸ xor_maxValue_lt_zero.mpr ha) hb
  · exact absurd (h ▸ xor_maxValue_lt_zero.mpr hb) ha
  · exact h

/-- Keys tell doubles apart. -/
theorem orderKey_inj {a b : Double} : orderKey a = orderKey b ↔ a = b := by
  refine ⟨fun h => ?_, congrArg orderKey⟩
  have hb : a.bits = b.bits := by simpa using congrArg Int64.toUInt64 (wordKey_inj.mp h)
  exact Double.ext hb

instance : Std.TransCmp compareTotal := inferInstanceAs (Std.TransCmp (compareOn orderKey))

/-- Only a double and itself are level. -/
instance : Std.LawfulEqCmp compareTotal where
  eq_of_compare h := orderKey_inj.mp (Std.LawfulEqCmp.eq_of_compare h)

theorem compareTotal_ne_gt {a b : Double} (h : orderKey a ≤ orderKey b) : compareTotal a b ≠ .gt :=
  fun hgt => Int64.not_lt.mpr h (Std.compare_eq_gt.mp hgt)

/-! ## Sorted lists -/

/-- A list that is sorted by a key. -/
theorem pairwise_mergeSort_key {α : Type} (key : α → Int64) (xs : List α) :
    (xs.mergeSort fun a b => key a ≤ key b).Pairwise fun a b => key a ≤ key b := by
  have htrans : ∀ a b c : α, decide (key a ≤ key b) = true → decide (key b ≤ key c) = true →
      decide (key a ≤ key c) = true := by
    intro a b c hab hbc
    exact decide_eq_true (Int64.le_trans (of_decide_eq_true hab) (of_decide_eq_true hbc))
  have htotal : ∀ a b : α, (decide (key a ≤ key b) || decide (key b ≤ key a)) = true := by
    intro a b
    simpa using Int64.le_total (key a) (key b)
  simpa using List.pairwise_mergeSort htrans htotal xs

/-- Sorted doubles ascend in the total order. -/
theorem pairwise_sortTotal (xs : List Double) : (sortTotal xs).Pairwise fun a b => compareTotal a b ≠ .gt :=
  (pairwise_mergeSort_key orderKey xs).imp compareTotal_ne_gt

/-- Sorted doubles need no sorting. -/
theorem sortTotal_sortTotal (xs : List Double) : sortTotal (sortTotal xs) = sortTotal xs :=
  List.mergeSort_of_pairwise ((pairwise_mergeSort_key orderKey xs).imp fun hle => decide_eq_true hle)

end Tremor.Number
