import Tremor.Number.Scalar

/-!
# Running averages

The counts of a station are freed of their running mean; the magnitude of what remains is smoothed over four windows of
different lengths. A window is never longer than the samples seen so far, so the first sample counts in full.

- `Averages.smoothing` : the weight of a new sample
- `Averages.add` : the averages after one more sample
- `Averages.ratio` : the short average divided by the long one
-/

namespace Tremor

/-- The running mean of the counts and the averages of the magnitude around it. -/
structure Averages (R : Type) where
  /-- How many samples were seen. -/
  samples : UInt64
  mean : R
  short : R
  medium : R
  long : R
  special : R

namespace Averages

variable {R : Type} [Scalar R]

def meanSeconds : R := 10.0
def shortSeconds : R := 0.5
def mediumSeconds : R := 6.0
def longSeconds : R := 200.0
def specialSeconds : R := 50.0
/-- The long average counts as this at least. -/
def leastLong : R := 1e-6

def start : Averages R := { samples := 0, mean := 0, short := 0, medium := 0, long := 0, special := 0 }

/-- The weight of a new sample in the average over a window of `seconds`, when it is the sample number `samples`. -/
@[specialize] def smoothing (sampleRate : R) (samples : UInt64) (seconds : R) : R :=
  1 / Scalar.max (Scalar.min (sampleRate * seconds) (samples.toNat : R)) 1

@[inline] def move (average weight value : R) : R := average + (value - average) * weight

/-- The averages after one more sample, and the sample without the running mean. The long average stays while
`holdLong` is set. -/
@[specialize] def add (a : Averages R) (sampleRate : R) (holdLong : Bool) (raw : R) : Averages R × R :=
  let samples := a.samples + 1
  let weight := smoothing sampleRate samples
  let mean := move a.mean (weight meanSeconds) raw
  let filtered := raw - mean
  let level := Scalar.abs filtered
  let averages : Averages R :=
    { samples, mean
      short := move a.short (weight shortSeconds) level
      medium := move a.medium (weight mediumSeconds) level
      special := move a.special (weight specialSeconds) level
      long := if holdLong then a.long else move a.long (weight longSeconds) level }
  (averages, filtered)

/-- The long average as a divisor. -/
def divisor (a : Averages R) : R := Scalar.max a.long leastLong

def ratio (a : Averages R) : R := a.short / a.divisor

end Averages

end Tremor
