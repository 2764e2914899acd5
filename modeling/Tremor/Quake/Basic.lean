import Tremor.Geo.Region
import Tremor.Hypocenter

/-!
# Quake records

A quake is a located event that is kept and revised. Its region follows its place.

- `Quake.create` : the record of a first solution
- `Quake.revise` : the record under a later solution, and whether the place has changed
- `Quake.summary` : one line of text
-/

namespace Tremor

structure QuakeId where
  number : Nat
  deriving DecidableEq, Repr

structure ClusterId where
  number : Nat
  deriving DecidableEq, Repr

/-- A located event; times in ms, depth in km. -/
structure Quake where
  id : QuakeId
  cluster : ClusterId
  place : Point
  depth : Float
  origin : Int64
  created : Int64
  updated : Int64
  mag : Double
  /-- The magnitudes of the stations, upwards. -/
  mags : List Double
  /-- The share of the selected picks that fit, percent. -/
  pct : Float
  revision : UInt32
  region : String

namespace Quake

/-- The record of a first solution. -/
def create (id : QuakeId) (cluster : ClusterId) (h : Hypocenter) (regions : RegionNames) (now : Int64) : Quake :=
  { id, cluster, place := h.place, depth := h.depth.toFloat, origin := h.origin, created := now, updated := now
    mag := 0.0, mags := [], pct := 0.0, revision := 0, region := regions h.place }

def movesTo (q : Quake) (h : Hypocenter) : Bool :=
  q.place.lat != h.place.lat || q.place.lon != h.place.lon

/-- The record under a later solution, and whether the place has changed; only then is it named again. -/
def revise (q : Quake) (h : Hypocenter) (regions : RegionNames) (now : Int64) : Quake × Bool :=
  let moved := q.movesTo h
  ({ q with
      place := h.place, depth := h.depth.toFloat, origin := h.origin, updated := now
      region := if moved then regions h.place else q.region }, moved)

def summary (q : Quake) : String :=
  "M" ++ Number.fixedPlaces 1 q.mag.toFloat ++ " " ++ q.region
    ++ " (" ++ Number.fixedPlaces 3 q.place.lat ++ ", " ++ Number.fixedPlaces 3 q.place.lon ++ ")"
    ++ " depth " ++ Number.fixedPlaces 1 q.depth ++ " km, rev " ++ toString q.revision.toNat
    ++ ", " ++ Number.fixedPlaces 0 q.pct ++ "% correct"

end Quake

end Tremor
