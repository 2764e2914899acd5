import Tremor.Number.Double

/-!
# A total order on doubles

Doubles are ordered by their words read as signed magnitudes: negative zero comes before zero, every number before
infinity, a positive NaN after everything and a negative one before everything; NaNs are told apart by their payloads.
`orderKey` turns that into the order of `Int64`.
-/

namespace Tremor.Number

/-- A signed magnitude as a number: a negative one has all bits but its sign turned over. -/
def wordKey (word : Int64) : Int64 :=
  if word < 0 then word ^^^ Int64.maxValue else word

/-- The place of a double in the total order. -/
def orderKey (d : Double) : Int64 := wordKey d.bits.toInt64

def compareTotal (a b : Double) : Ordering :=
  compare (orderKey a) (orderKey b)

/-- Sorts doubles upwards in the total order. -/
def sortTotal (ds : List Double) : List Double :=
  ds.mergeSort fun a b => orderKey a ≤ orderKey b

end Tremor.Number
