import Tremor.Number.Shortest

/-!
# What can go wrong with a waveform ring

- `RingError` : the causes
- `RingError.message` : their texts
-/

namespace Tremor

/-- Why an operation on a waveform ring fails. -/
inductive RingError (R : Type) where
  /-- A rate and a length that give no slots. -/
  | invalidConfiguration (sampleRate seconds : R)
  /-- A look-up in a ring that never accepted a sample. -/
  | emptyRing
  /-- An extraction whose end is not after its start. -/
  | invalidRange (start stop : Int64)
  /-- The raw or the filtered signal of a ring that does not keep them. -/
  | unsupportedInServerMode
  /-- More slots than an array can have. -/
  | capacityOverflow (slots : Nat)
  /-- A slot beyond the capacity. -/
  | slotOutOfRange (slot size : Nat)

/-- Numbers in messages have no mark when they are whole. -/
def messageStyle : Number.DoubleStyle := { wholeMark := "", nan := "NaN", infinity := "inf", tie := .up }

def RingError.message : RingError Float → String
  | .invalidConfiguration sampleRate seconds =>
    "invalid buffer configuration: " ++ Number.shortestText messageStyle sampleRate ++ " sps for "
      ++ Number.shortestText messageStyle seconds ++ " s gives no slots"
  | .emptyRing => "buffer is empty"
  | .invalidRange start stop =>
    "invalid range: end " ++ toString stop.toInt ++ " is not after start " ++ toString start.toInt
  | .unsupportedInServerMode => "raw and filtered channels are not stored in server mode"
  | .capacityOverflow _ => "capacity overflow"
  | .slotOutOfRange slot size => "slot " ++ toString slot ++ " of " ++ toString size

end Tremor
