import Tremor.Geo.Sphere
import Tremor.Number.TotalOrder

/-!
# Hypocenters and their ranking

A hypocenter is a candidate for the source of a quake. Of two candidates the one with more correct stations is better,
then the one with the smaller error; position, depth and origin time break ties, so that the order is total.

- `Hypocenter.scored` : the candidate that a search finds
- `Hypocenter.rank` : the order of candidates, the better one first
- `prefersFirst`, `selectBetter` : the same with candidates that may be missing
-/

namespace Tremor

/-- A place, a depth and a time that a quake may have started at. -/
structure Hypocenter where
  lat : Double
  lon : Double
  /-- Depth, km. -/
  depth : Double
  /-- Origin time, ms. -/
  origin : Int64
  /-- Sum of the squared differences between predicted and observed travel times, s². -/
  totalError : Double
  /-- How many picks fit the prediction. -/
  correct : Nat
  /-- How many picks contradict the prediction. -/
  wrong : Nat
  deriving DecidableEq

namespace Hypocenter

def place (h : Hypocenter) : Point := ⟨h.lat.toFloat, h.lon.toFloat⟩

/-- The candidate at a place and a depth, with its error and the number of picks that fit. -/
def scored (place : Point) (depth : Float) (origin : Int64) (totalError : Float) (correct : Nat) : Hypocenter :=
  { lat := .ofFloat place.lat, lon := .ofFloat place.lon, depth := .ofFloat depth, origin
    totalError := .ofFloat totalError, correct, wrong := 0 }

/-- The order of candidates, the better one first. -/
def rank (a b : Hypocenter) : Ordering :=
  (compare b.correct a.correct).then <|
  (Number.compareTotal a.totalError b.totalError).then <|
  (Number.compareTotal a.lat b.lat).then <|
  (Number.compareTotal a.lon b.lon).then <|
  (Number.compareTotal a.depth b.depth).then <|
  compare a.origin b.origin

end Hypocenter

/-- Whether the first candidate is strictly better; a missing one never is, and anything is better than it. -/
def prefersFirst : Option Hypocenter → Option Hypocenter → Bool
  | none, _ => false
  | some _, none => true
  | some a, some b => a.rank b == .lt

/-- The better of two candidates that may be missing. -/
def selectBetter (first second : Option Hypocenter) : Option Hypocenter :=
  if prefersFirst first second then first else second

@[simp] theorem selectBetter_none_left (h : Option Hypocenter) : selectBetter none h = h := rfl

@[simp] theorem selectBetter_none_right (h : Option Hypocenter) : selectBetter h none = h := by
  cases h <;> rfl

end Tremor
