import Tremor.Detection
import Tremor.Waveform.Averages
import Tremor.Waveform.Lookup

/-!
# Station monitors

A monitor feeds the samples of one station to its ring and its averages and watches the ratio of the short to the long
average. When the ratio rises far enough a detection opens; it stays active until the ratio has fallen again, and the
long average rests meanwhile.

- `Trigger` : the latest detection, and whether it is open
- `Monitor.ingest` : takes in one sample and tells whether a detection opened or grew
-/

namespace Tremor

/-- The trigger of a station: the latest detection, if there was one, and whether a detection is open. -/
structure Trigger where
  detection : Option Detection := none
  active : Bool := false

namespace Trigger

/-- The ratio above which a detection opens. -/
def openRatio : Float := 4.5

/-- The ratio below which an active detection is released. -/
def releaseRatio : Float := 2.0

/-- The trigger after a sample, and whether a detection opened or grew. A detection opens only when `warm`; one that is
open without being there is only closed. -/
def step (station : Station) (warm : Bool) (time : Int64) (ratio : Float) (t : Trigger) : Trigger × Bool :=
  if t.active then
    match t.detection with
    | none => ({ t with active := false }, false)
    | some d =>
      let (d, grew) := d.record time ratio
      ({ detection := some d, active := !decide (ratio < releaseRatio) }, grew)
  else if warm && decide (ratio > openRatio) then
    ({ detection := some (Detection.start station time ratio), active := true }, true)
  else ({ t with detection := t.detection.map (·.reach time) }, false)

end Trigger

/-- The analysis of one station. -/
structure Monitor where
  station : Station
  ring : Ring Float
  sampleRate : Float
  averages : Averages Float
  trigger : Trigger

namespace Monitor

/-- No detection opens before this much signal was seen, seconds. -/
def warmupSeconds : Float := 30.0

def create (station : Station) (sampleRate seconds : Float) (server : Bool) :
    Except (RingError Float) Monitor := do
  let ring ← Ring.create sampleRate seconds server
  return { station, ring, sampleRate, averages := Averages.start, trigger := {} }

def detection? (m : Monitor) : Option Detection := m.trigger.detection

def isTriggered (m : Monitor) : Bool := m.trigger.active

def ratio (m : Monitor) : Float := m.averages.ratio

/-- The averages in single precision. -/
def levels (a : Averages Float) : Levels :=
  { short := a.short.toFloat32, medium := a.medium.toFloat32, long := a.divisor.toFloat32
    special := a.special.toFloat32 }

/-- The monitor after one sample, and whether a detection opened or grew. -/
def ingest (m : Monitor) (time : Int64) (raw : Int32) : Monitor × Bool :=
  let { station, ring, sampleRate, averages, trigger } := m
  let (averages, filtered) := averages.add sampleRate trigger.active (Number.ofInt64 raw.toInt64)
  let ring := ring.log time ⟨raw, filtered.toFloat32⟩ (levels averages) false
  let warm := decide (averages.samples.toFloat ≥ sampleRate * warmupSeconds)
  let (trigger, changed) := trigger.step station warm time averages.ratio
  ({ station, ring, sampleRate, averages, trigger }, changed)

end Monitor

end Tremor
