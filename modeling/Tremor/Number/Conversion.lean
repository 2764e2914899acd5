/-!
# Between doubles and 64-bit integers

A double becomes an integer by dropping its fraction; what lies outside the integer range goes to the nearest end of
it and a NaN to zero. An integer becomes the nearest double. Rounding to a whole double keeps the sign of a zero.

- `truncate` : double to `Int64`
- `truncateNat` : double to a natural number of at most 64 bits
- `ofInt64` : `Int64` to double
- `floor`, `ceil`, `roundHalfAway` : whole doubles
-/

namespace Tremor.Number

/-- The integer part of `x`, clamped to the range of `Int64`; a NaN gives zero. -/
def truncate (x : Float) : Int64 :=
  let word := x.abs.toUInt64
  if x < 0 then
    if word < 0x8000000000000000 then (0 - word).toInt64 else Int64.minValue
  else
    if word < 0x8000000000000000 then word.toInt64 else Int64.maxValue

/-- The integer part of `x`, clamped to `0 … 2^64 - 1`; a NaN gives zero. -/
def truncateNat (x : Float) : Nat :=
  x.toUInt64.toNat

def ofInt64 (i : Int64) : Float :=
  if i < 0 then -(0 - i).toUInt64.toFloat else i.toUInt64.toFloat

/-- Every double of this magnitude or above is whole. -/
def wholeFrom : Float := 4503599627370496.0

/-- The greatest whole double that is not above `x`. -/
def floor (x : Float) : Float :=
  if x.abs < wholeFrom then
    let whole := ofInt64 (truncate x)
    if x == 0 then x else if x < whole then whole - 1 else whole
  else x

/-- The least whole double that is not below `x`. -/
def ceil (x : Float) : Float :=
  -floor (-x)

/-- The whole double nearest to `x`; a half goes away from zero. -/
def roundHalfAway (x : Float) : Float :=
  if x.abs < wholeFrom then
    let whole := ofInt64 (truncate x)
    let rest := (x - whole).abs
    if rest < 0.5 then whole else if x < 0 then whole - 1 else whole + 1
  else x

end Tremor.Number
