import Tremor.Search.Score
import Tremor.Search.Settings

/-!
# Sweeping a circle

All candidates at one distance from a centre are tried: in every direction and, in each direction, at every depth from
the surface down to the limit of the model.

- `Locator` : geodesy, travel times and settings, as a search needs them
- `Locator.column` : the candidate in one direction at one depth
- `Locator.bestOnCircle` : the best candidate of the circle
-/

namespace Tremor

/-- What a search is carried out with. -/
structure Locator where
  geodesy : Geodesy
  travelTimes : TravelTimes
  settings : SearchSettings

namespace Locator

/-- The angles under which the stations are seen from a place. -/
def angles (l : Locator) (picks : List Pick) (place : Point) : List Float :=
  picks.map fun pick => Geo.arc (l.geodesy.distance pick.place place)

/-- The scored candidate at a place and a depth, the angles to the stations being known. -/
def candidate (l : Locator) (picks : List Pick) (place : Point) (angles : List Float) (depth : Float) :
    Option Hypocenter :=
  Search.scoredAt l.settings.tolerance picks place depth (angles.map (l.travelTimes.pWave depth))

/-- The best candidate at one place, over all depths. -/
def bestInColumn (l : Locator) (picks : List Pick) (depthSteps : Nat) (depthStep : Float) (place : Point) :
    Option Hypocenter :=
  let angles := l.angles picks place
  (List.range (depthSteps + 1)).foldl
    (fun best step =>
      match l.candidate picks place angles (step.toFloat * depthStep) with
      | none => best
      | some found => selectBetter (some found) best)
    none

/-- The angle between neighbouring directions, chosen so that neighbours are a fifth of `horizontal` apart; a full turn
where that makes no sense. -/
def turn (l : Locator) (dist horizontal : Float) : Float :=
  let step := horizontal * 360.0 / (5.0 * dist) / l.settings.multiplier
  if ¬ step.isFinite ∨ step ≤ 0.0 then 360.0 else step

def directions (turn : Float) : Nat :=
  Number.truncateNat (Scalar.max (Number.ceil (360.0 / turn)) 1.0)

/-- How many steps lead from the surface to the limit of the model. -/
def depthSteps (l : Locator) (depthStep : Float) : Nat :=
  Number.truncateNat (Number.floor (l.travelTimes.maxDepth / depthStep))

/-- The best candidate at `dist` kilometres from the centre. -/
def bestOnCircle (l : Locator) (dist horizontal : Float) (centre : Point) (picks : List Pick) (depthStep : Float) :
    Option Hypocenter :=
  let turn := l.turn dist horizontal
  let circle := l.geodesy.circle centre dist
  let depthSteps := l.depthSteps depthStep
  (List.range (directions turn)).foldl
    (fun best i => selectBetter best (l.bestInColumn picks depthSteps depthStep (circle (i.toFloat * turn))))
    none

end Locator

end Tremor
