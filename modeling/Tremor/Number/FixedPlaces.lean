import Tremor.Number.Binary64
import Tremor.Number.Digits

/-!
# Text with fixed places

A double is written with a given number of places after the decimal mark. The exact value is rounded, a half going to
the even neighbour; the sign of a zero is kept.

- `fixedPlaces` : the text
-/

namespace Tremor.Number

/-- `significand * 2 ^ exponent * 10 ^ places`, rounded to a whole number. -/
def scaledDecimal (significand : Nat) (exponent : Int) (places : Nat) : Nat :=
  if exponent < 0 then roundQuotient .even (significand * tenTo places) (1 <<< (-exponent).toNat)
  else (significand * tenTo places) <<< exponent.toNat

/-- The text of a double with `places` digits after the mark. -/
def fixedPlaces (places : Nat) (x : Float) : String :=
  match Binary64.ofFloat x with
  | .nan => "NaN"
  | .infinite negative => if negative then "-inf" else "inf"
  | .finite negative significand exponent =>
    let text := placeMark (scaledDecimal significand exponent places) places
    String.ofList (if negative then '-' :: text else text)

end Tremor.Number
