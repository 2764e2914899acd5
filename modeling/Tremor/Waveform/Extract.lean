import Tremor.Waveform.Lookup

/-!
# Cutting a stretch out of a waveform ring

- `Ring.extract` : the samples between two times, as a ring of their own
-/

namespace Tremor.Ring

variable {R : Type} [Scalar R]

/-- Room for irregular sampling in an extracted ring. -/
def headroom : R := 1.4

/-- Copies `steps` slots of `source` from `slot` on to `target`, from the first at or after `start` up to the last at
or before `stop`. -/
def copyRange (source : Ring R) (start stop : Int64) : (steps slot : Nat) → (target : Ring R) → Ring R
  | 0, _, target => target
  | steps + 1, slot, target =>
    let time := source.time slot
    if stop < time then target
    else
      let next := (slot + 1) % source.size
      if start ≤ time then
        let signal := if source.server then ⟨0, 0⟩ else source.signals[slot]!
        copyRange source start stop steps next (target.push time signal source.ratios[slot]! true)
      else copyRange source start stop steps next target

/-- A new ring with every sample timed from `start` to `stop`. -/
def extract (r : Ring R) (start stop : Int64) : Except (RingError R) (Ring R) :=
  if stop ≤ start then .error (.invalidRange start stop)
  else do
    let seconds := Scalar.ceil (Scalar.ofInt64 (R := R) (stop - start) / 1000)
    let target ← create r.sampleRate (Scalar.floor (seconds * headroom)) r.server
    if r.isEmpty then return target
    let first ← r.closest start
    let steps := (r.newest + r.size - first) % r.size + 1
    return r.copyRange start stop steps first target

end Tremor.Ring
