import Tremor.Geo.Sphere

/-!
# Stations

- `Station` : a recording station and its place
- `Station.identifier` : network and code joined by a dot
-/

namespace Tremor

structure StationId where
  number : UInt32
  deriving DecidableEq, Repr

def StationId.text (id : StationId) : String := "#" ++ toString id.number.toNat

structure Station where
  id : StationId
  network : String
  code : String
  place : Point
  /-- Elevation above sea level, metres. -/
  elevation : Float

def Station.identifier (s : Station) : String := s.network ++ "." ++ s.code

end Tremor
