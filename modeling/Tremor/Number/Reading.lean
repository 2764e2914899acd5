import Tremor.Number.Shortest

/-!
# Reading decimals

A decimal is read as the double nearest to it, a half going to the even neighbour.

- `nearest` : the nearest double to a signed decimal
- `readDouble?` : a double from a text with an optional fraction and exponent, or from a word for what is no number
- `readWord?` : a natural number below `2 ^ 64` from its digits
-/

namespace Tremor.Number

/-- The double nearest to `± digits * 10 ^ exponent`. Decimals above the greatest double give infinity, and those below
half the least one give zero, without computing the power. -/
def nearest (negative : Bool) (d : Decimal) : Float :=
  let size := (decimalDigits d.digits).length + d.exponent
  let magnitude : Float :=
    if d.digits = 0 ∨ size < -330 then 0
    else if 310 < size then Float.ofBits 0x7ff0000000000000
    else Float.ofScientific (d.digits * tenTo d.exponent.toNat) true (-d.exponent).toNat
  if negative then -magnitude else magnitude

def ofDigits (ds : List Char) : Nat := ds.foldl (fun n c => n * 10 + (c.toNat - '0'.toNat)) 0

def spanDigits (cs : List Char) : List Char × List Char := cs.span Char.isDigit

/-- The exponent after its mark, if that is all that is left of a text. -/
def readExponent? (cs : List Char) : Option Int :=
  let (negative, cs) := match cs with
    | '-' :: r => (true, r)
    | '+' :: r => (false, r)
    | r => (false, r)
  if cs.isEmpty ∨ ¬ cs.all Char.isDigit then none
  else
    let n : Int := ofDigits cs
    some (if negative then -n else n)

/-- A double from a text without a sign. -/
def readMagnitude? (negative : Bool) (cs : List Char) : Option Float :=
  let word := String.ofList (cs.map Char.toLower)
  if word = "inf" ∨ word = "infinity" then some (if negative then -1.0 / 0.0 else 1.0 / 0.0)
  else if word = "nan" then some (0.0 / 0.0)
  else
    let (whole, r) := spanDigits cs
    let (fraction, r) := match r with
      | '.' :: r => spanDigits r
      | r => ([], r)
    if whole.isEmpty ∧ fraction.isEmpty then none
    else
      let exponent? := match r with
        | [] => some 0
        | c :: r => if c = 'e' ∨ c = 'E' then readExponent? r else none
      exponent?.map fun exponent =>
        nearest negative ⟨ofDigits (whole ++ fraction), exponent - fraction.length⟩

/-- A double from a text with an optional sign. -/
def readDouble? (s : String) : Option Float :=
  match s.toList with
  | '-' :: r => readMagnitude? true r
  | '+' :: r => readMagnitude? false r
  | r => readMagnitude? false r

/-- A natural number below `2 ^ 64` from its digits, with an optional plus sign. -/
def readWord? (s : String) : Option UInt64 :=
  let ds := match s.toList with
    | '+' :: r => r
    | r => r
  if ds.isEmpty ∨ ¬ ds.all Char.isDigit then none
  else
    let n := ofDigits ds
    if n < UInt64.size then some n.toUInt64 else none

end Tremor.Number
