import Tremor.Number.Double
import Tremor.Number.Scalar

/-!
# Magnitude from amplitude

- `MagnitudeTable` : what turns the amplitude ratio of a station into a magnitude
- `LogarithmicScale.table` : a sum of two logarithms
-/

namespace Tremor

/-- The magnitude that a station at a distance in kilometres reads from its amplitude ratio. -/
structure MagnitudeTable where
  magnitude : (distance ratio : Float) → Double

/-- A local magnitude: the logarithm of the ratio, a multiple of the logarithm of the distance and a constant. -/
structure LogarithmicScale where
  distanceCoefficient : Float := 2.76
  offset : Float := -2.48

/-- The table of a logarithmic scale; ratio and distance count as one at least. -/
def LogarithmicScale.table (s : LogarithmicScale) : MagnitudeTable where
  magnitude distance ratio :=
    .ofFloat ((Scalar.max ratio 1.0).log10 + s.distanceCoefficient * (Scalar.max distance 1.0).log10 + s.offset)

end Tremor
