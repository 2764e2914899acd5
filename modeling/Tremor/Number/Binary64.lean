/-!
# The value of a double

A finite double is a whole number of at most 53 bits times a power of two. `Binary64.ofFloat` reads it from the fields
of the word. Two doubles brought to one power of two have an exact remainder, which is a double again.

- `Binary64.ofFloat` : the value that a word stands for
- `remainder` : the remainder of a division that truncates
- `wrapInto` : the remainder of a division that rounds down
-/

namespace Tremor.Number

/-- What the word of a double stands for; a finite one is `± significand * 2 ^ exponent`. -/
inductive Binary64 where
  | nan
  | infinite (negative : Bool)
  | finite (negative : Bool) (significand : Nat) (exponent : Int)
  deriving DecidableEq, Repr

def Binary64.ofFloat (x : Float) : Binary64 :=
  let word := x.toBits.toNat
  let negative := decide (0x8000000000000000 ≤ word)
  let biased : Nat := word >>> 52 % 2048
  let fraction := word % 0x10000000000000
  if biased = 2047 then
    if fraction = 0 then .infinite negative else .nan
  else if biased = 0 then .finite negative fraction (-1074)
  else .finite negative (0x10000000000000 + fraction) ((biased : Int) - 1075)

/-- The double `2 ^ exponent`, for the exponents from `-1074` to `1023`. -/
def powerOfTwo (exponent : Int) : Float :=
  if exponent < -1022 then Float.ofBits (1 <<< (exponent + 1074).toNat).toUInt64
  else Float.ofBits ((exponent + 1023).toNat <<< 52).toUInt64

/-- The exact remainder of `x` by `y` with the sign of `x`; there is none by zero or of an infinity. -/
def remainder (x y : Float) : Float :=
  match Binary64.ofFloat x, Binary64.ofFloat y with
  | .finite _ _ _, .infinite _ => x
  | .finite negative a i, .finite _ b j =>
    if b = 0 then 0 / 0
    else
      let common := min i j
      let rest := (a <<< (i - common).toNat) % (b <<< (j - common).toNat)
      let magnitude := rest.toUInt64.toFloat * powerOfTwo common
      if negative then -magnitude else magnitude
  | _, _ => 0 / 0

/-- `x` moved by a multiple of `period` into the range from zero to `period`. -/
def wrapInto (x period : Float) : Float :=
  let rest := remainder x period
  if rest < 0 then rest + period.abs else rest

end Tremor.Number
