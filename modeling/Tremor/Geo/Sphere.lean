import Tremor.Number.Binary64
import Tremor.Number.Scalar

/-!
# The spherical Earth

Positions are in degrees, distances in kilometres, bearings in degrees clockwise from north. `Geodesy` collects what
the locator asks of a figure of the Earth; `Geodesy.sphere` answers with the formulas of this module.

- `greatCircle` : length of the shortest path on the surface
- `chord` : straight distance between two points given with altitudes
- `bearing` : direction in which a great circle leaves
- `Circle.point` : points at a fixed distance around a centre
- `wrapLongitude` : longitudes brought into the range from -180 to 180
-/

namespace Tremor

/-- A position on the surface, in degrees. -/
structure Point where
  lat : Float
  lon : Float

namespace Geo

def pi : Float := 3.14159265358979323846

/-- Mean radius of the Earth, km. -/
def earthRadius : Float := 6371.0

/-- Kilometres on the surface per degree of arc. -/
def kmPerDegree : Float := earthRadius * pi / 180.0

def degree : Float := pi / 180.0

def radian : Float := 180.0 / pi

@[inline] def radians (x : Float) : Float := x * degree

@[inline] def degrees (x : Float) : Float := x * radian

@[inline] def square (x : Float) : Float := x * x

/-- The angle under which a surface distance is seen from the centre, in degrees. -/
def arc (km : Float) : Float := km / kmPerDegree

/-- Length of the great circle between two points, by the haversine formula. -/
def greatCircle (a b : Point) : Float :=
  let phi1 := radians a.lat
  let phi2 := radians b.lat
  let dPhi := radians (b.lat - a.lat)
  let dLambda := radians (b.lon - a.lon)
  let h := square (dPhi / 2.0).sin + phi1.cos * phi2.cos * square (dLambda / 2.0).sin
  2.0 * earthRadius * (Scalar.min h.sqrt 1.0).asin

/-- Straight distance between two points with altitudes in kilometres; a depth is a negative altitude. -/
def chord (a : Point) (altitudeA : Float) (b : Point) (altitudeB : Float) : Float :=
  let ra := earthRadius + altitudeA
  let rb := earthRadius + altitudeB
  let phiA := radians a.lat
  let lambdaA := radians a.lon
  let phiB := radians b.lat
  let lambdaB := radians b.lon
  let dx := ra * phiA.cos * lambdaA.cos - rb * phiB.cos * lambdaB.cos
  let dy := ra * phiA.cos * lambdaA.sin - rb * phiB.cos * lambdaB.sin
  let dz := ra * phiA.sin - rb * phiB.sin
  (square dx + square dy + square dz).sqrt

/-- The bearing at which the great circle from `a` to `b` leaves `a`, at least 0 and below 360. -/
def bearing (a b : Point) : Float :=
  let phi1 := radians a.lat
  let phi2 := radians b.lat
  let dLambda := radians (b.lon - a.lon)
  let y := dLambda.sin * phi2.cos
  let x := phi1.cos * phi2.sin - phi1.sin * phi2.cos * dLambda.cos
  let turned := Number.wrapInto (degrees (Float.atan2 y x)) 360.0
  if turned ≥ 360.0 then 0.0 else turned

/-- A longitude moved by whole turns into the range from -180 to 180; 180 itself stays. -/
def wrapLongitude (lon : Float) : Float :=
  let wrapped := Number.wrapInto (lon + 180.0) 360.0 - 180.0
  if wrapped == -180.0 && lon > 0.0 then 180.0 else wrapped

/-- The points at one distance around a centre, with the sines and cosines that all of them share. -/
structure Circle where
  lon : Float
  sinLat : Float
  cosLat : Float
  sinRadius : Float
  cosRadius : Float

/-- The circle with the given centre and radius in kilometres. -/
def Circle.around (centre : Point) (radius : Float) : Circle :=
  let phi := radians centre.lat
  let delta := radius / earthRadius
  { lon := centre.lon, sinLat := phi.sin, cosLat := phi.cos, sinRadius := delta.sin, cosRadius := delta.cos }

/-- The point of the circle that lies in the given direction from the centre. -/
def Circle.point (c : Circle) (bearing : Float) : Point :=
  let theta := radians bearing
  let raw := c.sinLat * c.cosRadius + c.cosLat * c.sinRadius * theta.cos
  let sinPhi := if raw < -1.0 then -1.0 else if raw > 1.0 then 1.0 else raw
  let y := theta.sin * c.sinRadius * c.cosLat
  let x := c.cosRadius - c.sinLat * sinPhi
  { lat := degrees sinPhi.asin, lon := wrapLongitude (degrees (radians c.lon + Float.atan2 y x)) }

/-- The point reached from `start` by going `dist` kilometres in the given direction. -/
def destination (start : Point) (dist bearing : Float) : Point :=
  (Circle.around start dist).point bearing

end Geo

/-- What the locator asks of a figure of the Earth. -/
structure Geodesy where
  /-- Distance along the surface, km. -/
  distance : Point → Point → Float
  /-- Straight distance between points with altitudes, km. -/
  chord : Point → Float → Point → Float → Float
  /-- Direction from the first point to the second, degrees. -/
  bearing : Point → Point → Float
  /-- The points at a distance around a centre, by direction. -/
  circle : Point → Float → Float → Point

/-- The Earth as a sphere. -/
def Geodesy.sphere : Geodesy where
  distance := Geo.greatCircle
  chord := Geo.chord
  bearing := Geo.bearing
  circle centre radius := (Geo.Circle.around centre radius).point

end Tremor
