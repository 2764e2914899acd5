/-!
# Doubles as words

Arithmetic knows one NaN. Where doubles are stored and put in order, the sign and the payload of a NaN count as well, so
what is stored is the word itself. A number has one word; a NaN that comes out of arithmetic has the positive quiet one,
which is one of those that arithmetic may give.

- `Double` : a word of 64 bits, read as a double
- `Double.toFloat`, `Double.ofFloat` : the number that it stands for, and the word of a result
-/

namespace Tremor

/-- A double as it is stored. -/
@[ext] structure Double where
  bits : UInt64
  deriving DecidableEq, Repr

namespace Double

/-- The number that a word stands for. -/
def toFloat (d : Double) : Float := Float.ofBits d.bits

/-- The word of a result of arithmetic. -/
def ofFloat (x : Float) : Double := ⟨x.toBits⟩

instance : OfScientific Double where
  ofScientific mantissa negative exponent := ofFloat (OfScientific.ofScientific mantissa negative exponent)

/-- Negation turns over the sign, that of a NaN too. -/
instance : Neg Double where
  neg d := ⟨d.bits ^^^ 0x8000000000000000⟩

/-- The positive quiet NaN. -/
def nan : Double := ⟨0x7ff8000000000000⟩

end Double

end Tremor
