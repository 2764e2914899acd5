import Tremor.Search.Narrowing
import Tremor.Search.Sweep

/-!
# Locating a source

The search runs through phases: near the anchor, far from it unless the previous solution is already well supported,
closely around the best candidate, and finally with fine steps of depth. Every phase narrows the distance from its
centre.

- `Locator.locate` : the best candidate of all phases
-/

namespace Tremor

/-- How one phase searches. -/
structure Phase where
  /-- Steps of narrowing. -/
  steps : Nat
  /-- Greatest distance from the centre, km. -/
  limit : Float
  /-- Step of depth, km. -/
  depthStep : Float
  /-- Five times the distance of neighbouring directions, km. -/
  horizontal : Float

namespace Locator

def phase (l : Locator) (steps : Int32) (limit depthStep horizontal : Float) : Phase :=
  { steps := (max (steps + l.settings.extraIterations) 1).toInt.toNat
    limit
    depthStep := depthStep / l.settings.multiplier
    horizontal }

/-- The phase around the anchor. -/
def nearby (l : Locator) : Phase := l.phase 8 500.0 10.0 15.0

/-- The phase that reaches half around the Earth. -/
def far (l : Locator) : Phase := l.phase 8 11000.0 50.0 50.0

/-- The phase around the best candidate. -/
def exact (l : Locator) : Phase := l.phase 9 100.0 5.0 2.0

/-- The phase with fine steps of depth; it takes two steps at every resolution. -/
def deep (l : Locator) : Phase := { l.phase 2 10.0 0.5 2.0 with steps := 2 }

/-- The best candidate of a phase and of `best`. -/
def runPhase (l : Locator) (picks : List Pick) (phase : Phase) (centre : Point) (best : Option Hypocenter) :
    Option Hypocenter :=
  narrow (fun dist => l.bestOnCircle dist phase.horizontal centre picks phase.depthStep) phase.limit phase.steps best

/-- From this number of fitting picks on a previous solution makes the far phase unnecessary. -/
def farCutoff : Nat := 12

def needsFar (previous : Option Hypocenter) : Bool :=
  match previous with
  | none => true
  | some p => decide (p.correct < farCutoff)

/-- The best candidate of the phases around the anchor. -/
def locateCoarsely (l : Locator) (picks : List Pick) (anchor : Point) (previous : Option Hypocenter) :
    Option Hypocenter :=
  let near := l.runPhase picks l.nearby anchor none
  if needsFar previous then l.runPhase picks l.far anchor near else near

def locateClosely (l : Locator) (picks : List Pick) (coarse : Hypocenter) : Option Hypocenter := do
  let close ← l.runPhase picks l.exact coarse.place (some coarse)
  l.runPhase picks l.deep close.place (some close)

/-- The best candidate for the source of the picks. -/
def locate (l : Locator) (picks : List Pick) (anchor : Point) (previous : Option Hypocenter) : Option Hypocenter :=
  if picks.isEmpty then none
  else do
    let coarse ← l.locateCoarsely picks anchor previous
    l.locateClosely picks coarse

end Locator

end Tremor
