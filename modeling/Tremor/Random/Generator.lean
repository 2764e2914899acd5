/-!
# Generators of random numbers

A simulation draws from a generator, whichever it is: a state of it gives a number and the state after that.

- `Generator` : what can be drawn
-/

namespace Tremor

/-- A source of random numbers: its states, and what can be drawn from them. -/
structure Generator where
  State : Type
  /-- The state that a seed starts with. -/
  ofSeed : UInt64 → State
  /-- A number from 0 up to, but not including, 1. -/
  unit : State → Float × State
  /-- A number from one bound up to, but not including, another. -/
  below : (low high : Float) → State → Float × State
  /-- A normally distributed number with mean 0 and deviation 1. -/
  normal : State → Float × State

end Tremor
