import Tremor.Geo.Sphere

/-!
# Travel times of seismic waves

A travel-time model tells how long the P and the S wave of a source take to a station, by the depth of the source and
the angle between the two as seen from the centre of the Earth. `UniformSphere` is the model in which the waves run
straight at constant speeds.

- `TravelTimes` : what the locator asks of a model
- `UniformSphere.travelTimes` : straight rays
-/

namespace Tremor

/-- Travel times in seconds by depth in kilometres and angular distance in degrees; `none` where no wave arrives. -/
structure TravelTimes where
  /-- Travel time of the P wave. -/
  pWave : (depth angle : Float) → Option Float
  /-- Travel time of the S wave. -/
  sWave : (depth angle : Float) → Option Float
  /-- The greatest depth that the model covers, km. -/
  maxDepth : Float

/-- A sphere in which the waves have the same speeds everywhere. -/
structure UniformSphere where
  /-- Speed of the P wave, km/s. -/
  vp : Float := 6.2
  /-- Speed of the S wave, km/s. -/
  vs : Float := 3.6
  /-- The greatest depth of a source, km. -/
  maxDepth : Float := 750.0
  /-- The greatest angular distance of a station, degrees. -/
  maxAngle : Float := 150.0

namespace UniformSphere

/-- Length of the straight ray, by the law of cosines; there is none outside the ranges that the model covers. -/
def rayLength (m : UniformSphere) (depth angle : Float) : Option Float :=
  if 0.0 ≤ depth ∧ depth ≤ m.maxDepth ∧ 0.0 ≤ angle ∧ angle ≤ m.maxAngle then
    let r := Geo.earthRadius - depth
    let squared := r * r + Geo.earthRadius * Geo.earthRadius
      - 2.0 * r * Geo.earthRadius * (Geo.radians angle).cos
    some (Scalar.max squared 0.0).sqrt
  else none

def travelTimes (m : UniformSphere) : TravelTimes where
  pWave depth angle := (m.rayLength depth angle).map (· / m.vp)
  sWave depth angle := (m.rayLength depth angle).map (· / m.vs)
  maxDepth := m.maxDepth

end UniformSphere

end Tremor
