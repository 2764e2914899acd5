import Tremor.Number.Scalar

/-!
# Settings of the search

- `SearchSettings` : tolerance, commit threshold and resolution
- `SearchSettings.multiplier` : how much finer than usual every sweep is
- `SearchSettings.extraIterations` : how many more times than usual an interval is narrowed
-/

namespace Tremor

/-- How the locator searches and what it accepts. -/
structure SearchSettings where
  /-- A pick fits a candidate when its time is off by less than this, ms. -/
  tolerance : Float := 1000.0
  /-- The share of fitting picks that a solution must exceed, percent. -/
  correctness : Float := 40.0
  /-- From 0, coarse, to 100, fine. -/
  resolution : Float := 40.0

namespace SearchSettings

/-- The factor by which all steps are divided; one at the default resolution. -/
def multiplier (s : SearchSettings) : Float :=
  (s.resolution * s.resolution + 600.0) / 2200.0

/-- Iterations beyond those at the default resolution. -/
def extraIterations (s : SearchSettings) : Int32 :=
  Int32.ofIntClamp (Number.truncate (Number.roundHalfAway ((s.resolution - 40.0) / 14.0))).toInt

end SearchSettings

end Tremor
