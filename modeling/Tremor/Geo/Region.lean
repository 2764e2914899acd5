import Tremor.Geo.Sphere
import Tremor.Number.FixedPlaces

/-!
# Names of places

- `RegionNames` : what names a position
- `RegionNames.coordinates` : positions named by their coordinates, with two places
-/

namespace Tremor

/-- Gives a position a readable name. -/
abbrev RegionNames := Point → String

/-- Names a position by latitude and longitude with their hemispheres. -/
def RegionNames.coordinates : RegionNames := fun p =>
  let northSouth := if p.lat ≥ 0.0 then "N" else "S"
  let eastWest := if p.lon ≥ 0.0 then "E" else "W"
  Number.fixedPlaces 2 p.lat.abs ++ "°" ++ northSouth ++ " " ++ Number.fixedPlaces 2 p.lon.abs ++ "°" ++ eastWest

end Tremor
