import Tremor.Number.Double
import Tremor.Station

/-!
# Picks and detections

A pick is the arrival of a P wave at a station, as the locator uses it. A detection is the pick of a station together
with what the station has recorded since; its count of updates grows with every change.

- `Detection.start` : the detection that a station opens
- `Detection.record` : takes in the ratio at a later time
-/

namespace Tremor

/-- The arrival of a P wave at a station. -/
structure Pick where
  /-- Time of the arrival, ms. -/
  pWave : Int64
  place : Point
  /-- Elevation of the station, metres. -/
  elevation : Float
  /-- The greatest amplitude ratio seen. -/
  maxRatio : Double

/-- The live detection of a station. -/
structure Detection where
  station : StationId
  place : Point
  elevation : Float
  pWave : Int64
  maxRatio : Double
  updates : UInt64
  valid : Bool
  /-- Time of the newest sample since the pick. -/
  latest : Int64

namespace Detection

/-- The detection that a station opens at a time with a ratio. -/
def start (station : Station) (pWave : Int64) (ratio : Float) : Detection :=
  { station := station.id, place := station.place, elevation := station.elevation
    pWave, maxRatio := .ofFloat ratio, updates := 1, valid := true, latest := pWave }

/-- The detection after a sample at `time`. -/
def reach (d : Detection) (time : Int64) : Detection :=
  { d with latest := if d.latest < time then time else d.latest }

/-- The detection after a sample with a ratio, and whether the ratio is a new maximum. -/
def record (d : Detection) (time : Int64) (ratio : Float) : Detection × Bool :=
  let reached := d.reach time
  if ratio > d.maxRatio.toFloat then ({ reached with maxRatio := .ofFloat ratio, updates := d.updates + 1 }, true)
  else (reached, false)

def pick (d : Detection) : Pick :=
  { pWave := d.pWave, place := d.place, elevation := d.elevation, maxRatio := d.maxRatio }

end Detection

end Tremor
