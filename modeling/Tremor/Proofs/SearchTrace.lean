import Tremor.Search.Locate

/-!
# What a search looks at

A circle is a grid of places and depths. A narrowing asks for circles at some distances, and a search runs narrowings
around centres that depend on what was found before.

- `Locator.grid` : the places and depths of a circle
- `Narrowing.asked` : the distances that a narrowing asks for
- `Locator.examined` : all places and depths that a search tries
-/

namespace Tremor

namespace Locator

def places (l : Locator) (dist horizontal : Float) (centre : Point) : List Point :=
  (List.range (directions (l.turn dist horizontal))).map fun i =>
    l.geodesy.circle centre dist (i.toFloat * l.turn dist horizontal)

def depths (l : Locator) (depthStep : Float) : List Float :=
  (List.range (l.depthSteps depthStep + 1)).map fun step => step.toFloat * depthStep

def grid (l : Locator) (dist horizontal : Float) (centre : Point) (depthStep : Float) : List (Point × Float) :=
  (l.places dist horizontal centre).flatMap fun place => (l.depths depthStep).map fun depth => (place, depth)

/-- The predicted travel times of picks from a place and a depth. -/
def travels (l : Locator) (picks : List Pick) (place : Point) (depth : Float) : List (Option Float) :=
  (l.angles picks place).map (l.travelTimes.pWave depth)

end Locator

namespace Narrowing

variable {R : Type} [Scalar R]

/-- The distance that the next step asks for. -/
def question (s : Narrowing R) : R := pointAt s.lower s.upper (if s.retainedLow then 2 / 3 else 1 / 3)

/-- The distances that some steps ask for. -/
def asked (sample : R → Option Hypocenter) : Nat → Narrowing R → List R
  | 0, _ => []
  | n + 1, s => s.question :: asked sample n (s.step sample)

end Narrowing

/-- The distances that a whole narrowing asks for. -/
def narrowAsked {R : Type} [Scalar R] (sample : R → Option Hypocenter) (limit : R) (steps : Nat)
    (best : Option Hypocenter) : List R :=
  Narrowing.pointAt 0 limit (2 / 3) :: Narrowing.asked sample steps (Narrowing.start sample limit best)

namespace Locator

/-- The places and depths that a phase tries. -/
def phaseExamined (l : Locator) (picks : List Pick) (phase : Phase) (centre : Point) (best : Option Hypocenter) :
    List (Point × Float) :=
  (narrowAsked (fun dist => l.bestOnCircle dist phase.horizontal centre picks phase.depthStep) phase.limit phase.steps
    best).flatMap fun dist => l.grid dist phase.horizontal centre phase.depthStep

def coarselyExamined (l : Locator) (picks : List Pick) (anchor : Point) (previous : Option Hypocenter) :
    List (Point × Float) :=
  l.phaseExamined picks l.nearby anchor none ++
    if needsFar previous then l.phaseExamined picks l.far anchor (l.runPhase picks l.nearby anchor none) else []

def closelyExamined (l : Locator) (picks : List Pick) (coarse : Hypocenter) : List (Point × Float) :=
  l.phaseExamined picks l.exact coarse.place (some coarse) ++
    match l.runPhase picks l.exact coarse.place (some coarse) with
    | none => []
    | some close => l.phaseExamined picks l.deep close.place (some close)

/-- The places and depths that a search tries. -/
def examined (l : Locator) (picks : List Pick) (anchor : Point) (previous : Option Hypocenter) :
    List (Point × Float) :=
  if picks.isEmpty then []
  else l.coarselyExamined picks anchor previous ++
    match l.locateCoarsely picks anchor previous with
    | none => []
    | some coarse => l.closelyExamined picks coarse

end Locator

end Tremor
