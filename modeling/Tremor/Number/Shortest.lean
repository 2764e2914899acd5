import Tremor.Number.Binary64
import Tremor.Number.Digits

/-!
# The fewest digits that read back

A finite double stands for every real number that rounds to it. Among the decimals in that interval those with the
fewest digits are sought, and of these the nearest. For each number of digits only the two neighbours of the double on
that decimal grid can be nearest, so both are tried, in exact arithmetic. Both may be equally near: which one is taken
then is a matter of style.

- `Decimal` : a digit sequence times a power of ten
- `shortest` : the decimal chosen for a positive double
- `plainText` : the decimal in positional notation, without an exponent
-/

namespace Tremor.Number

/-- The number `digits * 10 ^ exponent`. -/
structure Decimal where
  digits : Nat
  exponent : Int
  deriving DecidableEq, Repr

/-- A positive rational, kept as numerator and denominator. -/
structure Quotient where
  num : Nat
  den : Nat

namespace Quotient

/-- `n * 2 ^ exponent`. -/
def binary (n : Nat) (exponent : Int) : Quotient :=
  ⟨n <<< exponent.toNat, 1 <<< (-exponent).toNat⟩

def perTen (q : Quotient) (exponent : Int) : Quotient :=
  ⟨q.num * tenTo (-exponent).toNat, q.den * tenTo exponent.toNat⟩

def floor (q : Quotient) : Nat := q.num / q.den

/-- The exponent of the leading decimal digit. -/
def leading (q : Quotient) : Int :=
  if q.den ≤ q.num then ((decimalDigits q.floor).length : Int) - 1
  else
    let zeros := (decimalDigits (q.den / q.num)).length
    if q.den ≤ q.num * tenTo (zeros - 1) then 1 - (zeros : Int) else -(zeros : Int)

end Quotient

/-- The reals that round to `significand * 2 ^ exponent`, as four times that value with the ends of the interval:
the spacing below a power of two is half of the one above. -/
def roundingInterval (significand : Nat) (exponent : Int) : Nat × Nat :=
  let below := if significand = 0x10000000000000 ∧ -1074 < exponent then 1 else 2
  (4 * significand - below, 4 * significand + 2)

/-- Whether the decimal `digits * 10 ^ grid` rounds to `significand * 2 ^ exponent`. -/
def readsBack (significand : Nat) (exponent : Int) (digits : Nat) (grid : Int) : Bool :=
  let (low, high) := roundingInterval significand exponent
  -- both sides times `4 * 2 ^ -exponent * 10 ^ -grid`, to compare whole numbers
  let point := (4 * digits * tenTo grid.toNat) <<< (-exponent).toNat
  let unit := tenTo (-grid).toNat <<< exponent.toNat
  if significand % 2 = 0 then decide (low * unit ≤ point ∧ point ≤ high * unit)
  else decide (low * unit < point ∧ point < high * unit)

/-- The neighbour on the grid `10 ^ grid` that reads back and is nearest. -/
def onGrid (tie : Tie) (significand : Nat) (exponent grid : Int) : Option Nat :=
  let value := (Quotient.binary significand exponent).perTen grid
  let below := value.floor
  let lower := readsBack significand exponent below grid
  let upper := readsBack significand exponent (below + 1) grid
  if lower && upper then some (roundQuotient tie value.num value.den)
  else if lower then some below
  else if upper then some (below + 1)
  else none

def Decimal.trim (fuel : Nat) (d : Decimal) : Decimal :=
  match fuel with
  | 0 => d
  | fuel + 1 =>
    if d.digits ≠ 0 ∧ d.digits % 10 = 0 then Decimal.trim fuel ⟨d.digits / 10, d.exponent + 1⟩ else d

/-- The shortest decimal that rounds to the positive double `significand * 2 ^ exponent`. -/
def shortest (tie : Tie) (significand : Nat) (exponent : Int) : Decimal :=
  let leading := (Quotient.binary significand exponent).leading
  let found := (List.range 17).findSome? fun (further : Nat) =>
    let grid := leading - further
    (onGrid tie significand exponent grid).map fun digits => Decimal.mk digits grid
  (found.getD ⟨0, 0⟩).trim 20

/-- A decimal in positional notation, without a mark when it is whole. -/
def plainText (d : Decimal) : List Char :=
  if 0 ≤ d.exponent then
    decimalDigits d.digits ++ List.replicate d.exponent.toNat '0'
  else placeMark d.digits (-d.exponent).toNat

/-- How a double is written: the mark of a whole number, the words for what is no number, and the choice between two
decimals that are equally near. -/
structure DoubleStyle where
  wholeMark : String
  nan : String
  infinity : String
  tie : Tie

/-- Writes a double with the fewest digits that read back, never with an exponent. -/
def shortestText (style : DoubleStyle) (x : Float) : String :=
  let signed (negative : Bool) (text : String) : String := if negative then "-" ++ text else text
  match Binary64.ofFloat x with
  | .nan => style.nan
  | .infinite negative => signed negative style.infinity
  | .finite negative significand exponent =>
    let d := if significand = 0 then ⟨0, 0⟩ else shortest style.tie significand exponent
    let text := String.ofList (plainText d)
    signed negative (if 0 ≤ d.exponent then text ++ style.wholeMark else text)

end Tremor.Number
