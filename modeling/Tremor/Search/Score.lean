import Tremor.Detection
import Tremor.Geo.TravelTime
import Tremor.Hypocenter

/-!
# Scoring a candidate

A candidate at a known depth and known angular distances from the stations has a predicted travel time for each pick,
if a wave arrives at all. Its origin time is the mean of the times that the picks imply, and its error is the sum of
the squared differences that remain.

- `meanOrigin` : the origin time
- `score` : the error, and the number of picks that fit
- `scoredAt` : the scored candidate
-/

namespace Tremor.Search

/-- A travel time in whole milliseconds. -/
def millis (seconds : Float) : Int64 := Number.truncate (seconds * 1000.0)

/-- The origin time that a pick implies under a travel time in seconds. -/
def impliedOrigin (pick : Pick) (travel : Float) : Int64 := pick.pWave - millis travel

/-- Adds the implied origins to a sum of `count` others and takes the mean; picks without an arrival do not count. -/
def meanOriginFrom : List Pick → List (Option Float) → (sum count : Int64) → Option Int64
  | pick :: picks, some travel :: travels, sum, count =>
    meanOriginFrom picks travels (sum + impliedOrigin pick travel) (count + 1)
  | _ :: picks, none :: travels, sum, count => meanOriginFrom picks travels sum count
  | _, _, sum, count => if 0 < count then some (sum / count) else none

/-- The mean of the origin times that the picks imply, or nothing when no wave arrives anywhere. -/
def meanOrigin (picks : List Pick) (travels : List (Option Float)) : Option Int64 :=
  meanOriginFrom picks travels 0 0

/-- What is counted as the difference where no wave arrives, seconds. -/
def noArrivalPenalty : Float := 9999.0

/-- The difference between the predicted and the observed travel time of a pick, seconds. -/
def residual (origin : Int64) (pick : Pick) (travel : Option Float) : Float :=
  let observed := (Number.ofInt64 (pick.pWave - origin) / 1000.0).abs
  match travel with
  | some expected => (expected - observed).abs
  | none => noArrivalPenalty

/-- Whether a difference in seconds is within a tolerance in milliseconds. -/
def fits (tolerance difference : Float) : Bool := decide (difference * 1000.0 < tolerance)

/-- Adds the squared differences to an error and counts the picks that fit. -/
def scoreFrom (tolerance : Float) (origin : Int64) :
    List Pick → List (Option Float) → (error : Float) → (correct : Nat) → Float × Nat
  | pick :: picks, travel :: travels, error, correct =>
    let difference := residual origin pick travel
    scoreFrom tolerance origin picks travels (error + difference * difference)
      (if fits tolerance difference then correct + 1 else correct)
  | _, _, error, correct => (error, correct)

def score (tolerance : Float) (origin : Int64) (picks : List Pick) (travels : List (Option Float)) : Float × Nat :=
  scoreFrom tolerance origin picks travels 0 0

/-- The scored candidate at a place and a depth, given the predicted travel times. -/
def scoredAt (tolerance : Float) (picks : List Pick) (place : Point) (depth : Float) (travels : List (Option Float)) :
    Option Hypocenter :=
  (meanOrigin picks travels).map fun origin =>
    let (totalError, correct) := score tolerance origin picks travels
    .scored place depth origin totalError correct

end Tremor.Search
