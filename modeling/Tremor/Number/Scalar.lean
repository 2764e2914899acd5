import Tremor.Number.Conversion

/-!
# Scalars

The arithmetic that the running averages, the sample clock of a ring and the narrowing of a search interval need. The
library runs it on doubles; reading the same definitions at the rationals gives the exact law that the doubles follow
up to rounding.

- `Scalar` : the operations
- `Scalar.max`, `Scalar.min` : the larger and the smaller of two; what is no number loses
-/

namespace Tremor

/-- Numbers with the arithmetic, order and rounding that sampled signals are processed with. -/
class Scalar (R : Type) extends Add R, Sub R, Mul R, Div R, LT R, LE R, NatCast R, OfScientific R where
  decLt : DecidableLT R
  decLe : DecidableLE R
  ofNat : ∀ n : Nat, OfNat R n
  /-- The number nearest to an integer. -/
  ofInt64 : Int64 → R
  /-- The integer part, clamped to the range of `Int64`. -/
  truncate : R → Int64
  /-- The integer part, not below zero. -/
  truncateNat : R → Nat
  /-- The greatest whole number that is not above. -/
  floor : R → R
  /-- The least whole number that is not below. -/
  ceil : R → R
  /-- The magnitude. -/
  abs : R → R
  /-- Whether this is a number at all, and not an infinity. -/
  isFinite : R → Bool

namespace Scalar

attribute [reducible, instance] decLt decLe ofNat

/-- The larger of two scalars; of a number and a NaN the number. -/
@[inline] protected def max {R : Type} [Scalar R] (a b : R) : R :=
  if a < b then b else if b ≤ a then a else if a ≤ a then a else b

/-- The smaller of two scalars; of a number and a NaN the number. -/
@[inline] protected def min {R : Type} [Scalar R] (a b : R) : R :=
  if b < a then b else if a ≤ b then a else if a ≤ a then a else b

end Scalar

/-- Doubles round after every operation. -/
instance : Scalar Float where
  natCast n := Float.ofNat n
  decLt := inferInstance
  decLe := inferInstance
  ofNat _ := inferInstance
  ofInt64 := Number.ofInt64
  truncate := Number.truncate
  truncateNat := Number.truncateNat
  floor := Number.floor
  ceil := Number.ceil
  abs := Float.abs
  isFinite := Float.isFinite

/-- The rationals are exact. -/
instance : Scalar Rat where
  decLt := inferInstance
  decLe := inferInstance
  ofNat _ := inferInstance
  ofInt64 i := (i.toInt : Rat)
  truncate q := Int64.ofIntClamp (q.num.tdiv q.den)
  truncateNat q := (q.num.tdiv q.den).toNat
  floor q := (q.floor : Rat)
  ceil q := (q.ceil : Rat)
  abs q := if q < 0 then -q else q
  isFinite _ := true

end Tremor
