import Tremor.Detection
import Tremor.Geo.TravelTime
import Tremor.Quake.Basic
import Tremor.Quake.MagnitudeTable
import Tremor.Search.Score

/-!
# Magnitudes from the stations

Every valid detection that an S wave can reach gives a magnitude. A record that ends too early for the S wave counts
for more, and the more so the nearer the station.

- `median` : the middle value of an ascending list, the lower one of two
- `MagnitudeEstimator.estimate` : the magnitudes of the stations, ascending
-/

namespace Tremor

/-- The middle value of an ascending list, the lower one of two. -/
def median (sorted : List Double) : Option Double := sorted[(sorted.length - 1) / 2]?

/-- What magnitudes are estimated with. -/
structure MagnitudeEstimator where
  geodesy : Geodesy
  travelTimes : TravelTimes
  table : MagnitudeTable

namespace MagnitudeEstimator

/-- A record must run this long beyond the expected S wave to be taken as it is, ms. -/
def sWaveMargin : Int64 := 8000

/-- The factor for the ratio of a record that ends at `latest`. -/
def factor (distance : Float) (expectedS latest : Int64) : Float :=
  if expectedS + sWaveMargin < latest then 1.0 else Scalar.max (2.0 - distance / 400.0) 1.0

/-- The magnitude that a detection gives, if an S wave arrives. -/
def stationMagnitude (e : MagnitudeEstimator) (q : Quake) (d : Detection) : Option Double :=
  let surface := e.geodesy.distance q.place d.place
  let direct := e.geodesy.chord q.place (-q.depth) d.place (d.elevation / 1000.0)
  (e.travelTimes.sWave q.depth (Geo.arc surface)).map fun travel =>
    let expectedS := q.origin + Search.millis travel
    e.table.magnitude direct (d.maxRatio.toFloat * factor surface expectedS d.latest)

/-- The magnitudes of the valid detections, ascending; nothing when there are none. -/
def estimate (e : MagnitudeEstimator) (q : Quake) (ds : List Detection) : Option (List Double) :=
  let mags := (ds.filter (·.valid)).filterMap (e.stationMagnitude q)
  if mags.isEmpty then none else some (Number.sortTotal mags)

end MagnitudeEstimator

end Tremor
