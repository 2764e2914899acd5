import Tremor.Hypocenter
import Tremor.Number.Scalar

/-!
# Narrowing an interval of distances

The best distance is sought between zero and a limit. At each step one sample is retained, at one third point of the
interval; the other third point is sampled, the half with the better of the two is kept, and in it the better sample
is a third point again.

- `Narrowing.step` : one step
- `Narrowing.run_succ` : the last step comes after all others
- `narrow` : all of them; the result is the best candidate of all samples and of the one to start with
-/

namespace Tremor

/-- The state of a search over an interval of distances; `sample` is what the search can ask. -/
structure Narrowing (R : Type) where
  lower : R
  upper : R
  /-- Whether the retained sample stands at the lower third point, and not at the upper one. -/
  retainedLow : Bool
  retained : Option Hypocenter
  best : Option Hypocenter

namespace Narrowing

variable {R : Type} [Scalar R]

/-- The point of an interval at a fraction of its length. -/
def pointAt (lower upper fraction : R) : R := lower + (upper - lower) * fraction

/-- The start on the interval from zero to `limit`, with the upper third point sampled. -/
def start (sample : R → Option Hypocenter) (limit : R) (best : Option Hypocenter) : Narrowing R :=
  let retained := sample (pointAt 0 limit (2 / 3))
  { lower := 0, upper := limit, retainedLow := false, retained, best := selectBetter best retained }

/-- One step of the search. -/
def step (sample : R → Option Hypocenter) (s : Narrowing R) : Narrowing R :=
  let compared := sample (pointAt s.lower s.upper (if s.retainedLow then 2 / 3 else 1 / 3))
  let mid := (s.upper + s.lower) / 2
  let retainedBetter := !prefersFirst compared s.retained
  let goDown := retainedBetter == s.retainedLow
  { lower := if goDown then s.lower else mid
    upper := if goDown then mid else s.upper
    retainedLow := !goDown
    retained := if retainedBetter then s.retained else compared
    best := selectBetter s.best (selectBetter compared s.retained) }

def run (sample : R → Option Hypocenter) : Nat → Narrowing R → Narrowing R
  | 0, s => s
  | n + 1, s => run sample n (s.step sample)

/-- The last of some steps follows the ones before. -/
theorem run_succ (sample : R → Option Hypocenter) (n : Nat) (s : Narrowing R) :
    run sample (n + 1) s = (run sample n s).step sample := by
  induction n generalizing s with
  | zero => rfl
  | succ n ih => exact ih (s.step sample)

end Narrowing

/-- The best candidate that a search of so many steps between zero and a limit meets, `best` included. -/
def narrow {R : Type} [Scalar R] (sample : R → Option Hypocenter) (limit : R) (steps : Nat)
    (best : Option Hypocenter) : Option Hypocenter :=
  (Narrowing.run sample steps (Narrowing.start sample limit best)).best

end Tremor
