/-!
# Rounding quotients and decimal digits

- `Tie` : where a half goes
- `roundQuotient` : the whole number nearest to a quotient
- `decimalDigits` : the digits of a natural number in base ten
- `tenTo` : the powers of ten
- `placeMark` : a digit string with its decimal mark set
-/

namespace Tremor.Number

/-- Where a half goes when a quotient is rounded. -/
inductive Tie where
  /-- To the even neighbour. -/
  | even
  /-- To the greater neighbour. -/
  | up
  deriving DecidableEq, Repr

/-- The whole number nearest to `num / den`. -/
def roundQuotient (tie : Tie) (num den : Nat) : Nat :=
  let whole := num / den
  let twice := 2 * (num % den)
  if twice < den then whole
  else if den < twice then whole + 1
  else
    match tie with
    | .even => whole + whole % 2
    | .up => whole + 1

/-- The digits of `n` in base ten, most significant first. -/
def decimalDigits (n : Nat) : List Char :=
  Nat.toDigits 10 n

def tenTo (exponent : Nat) : Nat := Nat.pow 10 exponent

/-- The text of `n / 10 ^ places` with exactly `places` digits after the mark, and no mark when there are none. -/
def placeMark (n places : Nat) : List Char :=
  if places = 0 then decimalDigits n
  else
    let whole := decimalDigits (n / tenTo places)
    let rest := decimalDigits (n % tenTo places)
    whole ++ '.' :: (List.replicate (places - rest.length) '0' ++ rest)

end Tremor.Number
