import Tremor.Search.Sweep

/-!
# Accepting a candidate

- `Condition` : the verdict on a candidate
- `Locator.occupiedSectors` : how many directions around a candidate hold stations
- `Locator.wrongPicks` : how many picks contradict a candidate
- `Locator.check` : the verdict, from distance, support, coverage and the previous solution
- `occupiedSectors_le`, `wrongPicks_le` : the bounds of the two counts
-/

namespace Tremor

/-- The verdict on the candidate of a search. -/
inductive Condition where
  | ok
  | null
  | distantEventNotEnoughStations
  | notEnoughCorrectStations
  | tooShallowAngle
  | previousWasBetter
  deriving DecidableEq, Repr

def Condition.text : Condition → String
  | ok => "OK"
  | null => "NULL"
  | distantEventNotEnoughStations => "DISTANT_EVENT_NOT_ENOUGH_STATIONS"
  | notEnoughCorrectStations => "NOT_ENOUGH_CORRECT_STATIONS"
  | tooShallowAngle => "TOO_SHALLOW_ANGLE"
  | previousWasBetter => "PREVIOUS_WAS_BETTER"

namespace Locator

def sectors : Nat := 16

/-- The sector of a direction. -/
def sectorOf (bearing : Float) : Nat :=
  min (Number.truncateNat (bearing * 16.0 / 360.0)) (sectors - 1)

def sector (l : Locator) (h : Hypocenter) (pick : Pick) : Nat :=
  sectorOf (l.geodesy.bearing h.place pick.place)

/-- The number of sectors around a candidate that hold stations. -/
def occupiedSectors (l : Locator) (h : Hypocenter) (picks : List Pick) : Nat :=
  let seen := picks.map (l.sector h)
  (List.range sectors).countP seen.contains

/-- Whether a pick comes before the origin, misses the predicted time, or cannot be reached at all. -/
def contradicts (l : Locator) (h : Hypocenter) (pick : Pick) : Bool :=
  match l.travelTimes.pWave h.depth.toFloat (Geo.arc (l.geodesy.distance pick.place h.place)) with
  | none => true
  | some expected =>
    let observed := (pick.pWave - h.origin).abs
    decide (pick.pWave < h.origin)
      || decide (Number.ofInt64 (Search.millis expected - observed).abs > l.settings.tolerance)

/-- The number of picks that contradict a candidate. -/
def wrongPicks (l : Locator) (picks : List Pick) (h : Hypocenter) : Nat :=
  picks.countP (l.contradicts h)

/-- How many sectors must be occupied around a candidate at a distance from the root. -/
def requiredSectors (dist : Float) : Nat :=
  if dist > 4000.0 then 1 else if dist > 1000.0 then 2 else 3

/-- The verdict on a candidate. -/
def check (l : Locator) (picks : List Pick) (best previous : Option Hypocenter) (root : Point) : Condition :=
  match best with
  | none => .null
  | some h =>
    let dist := l.geodesy.distance h.place root
    if dist > 2000.0 ∧ h.correct < 8 then .distantEventNotEnoughStations
    else if h.correct < 4 then .notEnoughCorrectStations
    else if l.occupiedSectors h picks < requiredSectors dist then .tooShallowAngle
    else match previous with
      | some p => if h.correct < p.correct then .previousWasBetter else .ok
      | none => .ok

/-! ## Bounds -/

theorem sectorOf_lt (bearing : Float) : sectorOf bearing < sectors := by
  unfold sectorOf sectors
  omega

theorem occupiedSectors_le (l : Locator) (h : Hypocenter) (picks : List Pick) :
    l.occupiedSectors h picks ≤ sectors := by
  simpa [occupiedSectors] using
    List.countP_le_length (p := (picks.map (l.sector h)).contains) (l := List.range sectors)

theorem wrongPicks_le (l : Locator) (picks : List Pick) (h : Hypocenter) : l.wrongPicks picks h ≤ picks.length :=
  List.countP_le_length

end Locator

end Tremor
