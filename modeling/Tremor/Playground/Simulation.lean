import Tremor.Config.Basic
import Tremor.Geo.TravelTime
import Tremor.Random.Generator
import Tremor.Station

/-!
# A simulated network

Stations are scattered around an epicenter. Each records normally distributed noise and, once they arrive, the decaying
waves of a quake.

- `SyntheticQuake.expectedRatio` : how far a quake rises above the noise
- `Simulation.create` : the stations
- `sampleCount`, `sampleTime` : the sampling grid of an interval
- `Simulation.waveform` : what a station records in an interval
-/

namespace Tremor

/-- The quake that is simulated. -/
structure SyntheticQuake where
  place : Point
  depth : Float
  origin : Int64
  magnitude : Float

namespace SyntheticQuake

def ofConfig (c : PlaygroundConfig) (origin : Int64) : SyntheticQuake :=
  { place := ⟨c.lat, c.lon⟩, depth := c.depth, origin, magnitude := c.magnitude }

/-- The greatest ratio of signal to noise that a station at a distance should see. -/
def expectedRatio (q : SyntheticQuake) (distance : Float) : Float :=
  Float.pow 10.0 (q.magnitude - 2.76 * (Scalar.max distance 1.0).log10 + 2.48)

end SyntheticQuake

/-- A simulated network, and the random numbers to come. -/
structure Simulation (gen : Generator) where
  source : gen.State
  geodesy : Geodesy
  travelTimes : TravelTimes
  sampleRate : Float
  noise : Float
  stations : List Station

namespace Simulation

variable {gen : Generator}

/-- The least distance of a station from the epicenter, km. -/
def minDistance : Float := 10.0

def stationCode (i : Nat) : String :=
  let digits := toString i
  "S" ++ String.ofList (List.replicate (3 - digits.length) '0') ++ digits

/-- Places the station with a number at random, evenly over the disc. -/
def placeStation (g : Geodesy) (c : PlaygroundConfig) (i : Nat) (source : gen.State) : Station × gen.State :=
  let radius := Scalar.max c.networkRadius minDistance
  let (share, source) := gen.unit source
  let (bearing, source) := gen.below 0.0 360.0 source
  let (elevation, source) := gen.below 0.0 1500.0 source
  let dist := minDistance + (radius - minDistance) * share.sqrt
  ({ id := ⟨i.toUInt32⟩, network := "SY", code := stationCode i
     place := g.circle ⟨c.lat, c.lon⟩ dist bearing, elevation }, source)

def placeStations (g : Geodesy) (c : PlaygroundConfig) : Nat → Nat → gen.State → List Station × gen.State
  | 0, _, source => ([], source)
  | n + 1, i, source =>
    let (station, source) := placeStation g c i source
    let (stations, source) := placeStations g c n (i + 1) source
    (station :: stations, source)

/-- The network of a scenario, with what a generator gives. -/
def create (gen : Generator) (g : Geodesy) (travelTimes : TravelTimes) (c : PlaygroundConfig) : Simulation gen :=
  let (stations, source) := placeStations g c c.stationCount.toNat 0 (gen.ofSeed c.seed)
  { source, geodesy := g, travelTimes, sampleRate := c.sampleRate, noise := c.noise, stations }

/-! ## Waveforms -/

/-- The interval between samples, ms. -/
def sampleInterval (sampleRate : Float) : Float := 1000.0 / sampleRate

def sampleCount (sampleRate : Float) (start stop : Int64) : Nat :=
  Number.truncateNat (Scalar.max (Number.ofInt64 (stop - start) / sampleInterval sampleRate) 0.0)

def sampleTime (sampleRate : Float) (start : Int64) (i : Nat) : Int64 :=
  start + Number.truncate (i.toFloat * sampleInterval sampleRate)

/-- What a wave of the quake looks like at a station. -/
structure Wave where
  /-- When it arrives, if at all. -/
  arrival : Option Int64
  amplitude : Float
  /-- Seconds in which it falls to a good third. -/
  decay : Float
  /-- Turns of phase in a second, in radians. -/
  frequency : Float

/-- The signal of a wave at a time, zero before it arrives. -/
def Wave.signal (w : Wave) (time : Int64) : Float :=
  match w.arrival with
  | none => 0.0
  | some arrival =>
    if arrival ≤ time then
      let since := Number.ofInt64 (time - arrival) / 1000.0
      w.amplitude * (-since / w.decay).exp * (w.frequency * (Number.ofInt64 time / 1000.0)).sin
    else 0.0

/-- The P and the S wave of a quake at a station. -/
def waves (s : Simulation gen) (station : Station) (q : SyntheticQuake) : Wave × Wave :=
  let angle := Geo.arc (s.geodesy.distance q.place station.place)
  let direct := s.geodesy.chord q.place (-q.depth) station.place (station.elevation / 1000.0)
  let arrival (travel : Option Float) : Option Int64 :=
    travel.map fun t => q.origin + Number.truncate (t * 1000.0)
  let amplitude := s.noise * q.expectedRatio direct
  ({ arrival := arrival (s.travelTimes.pWave q.depth angle), amplitude := 0.5 * amplitude, decay := 10.0
     frequency := 2.0 * Geo.pi * 2.0 },
   { arrival := arrival (s.travelTimes.sWave q.depth angle), amplitude, decay := 20.0, frequency := 2.0 * Geo.pi })

def toCount (x : Float) : Int32 := Int32.ofIntClamp (Number.truncate x).toInt

/-- The sample with a number, from the noise and the waves. -/
def sample (s : Simulation gen) (waves : Wave × Wave) (start : Int64) (source : gen.State) (i : Nat) :
    (Int64 × Int32) × gen.State :=
  let time := sampleTime s.sampleRate start i
  let (background, source) := gen.normal source
  ((time, toCount (background * s.noise + (0.0 + waves.1.signal time + waves.2.signal time))), source)

/-- What a station records from `start` up to `stop`. -/
def waveform (s : Simulation gen) (station : Station) (q : SyntheticQuake) (start stop : Int64) :
    Array (Int64 × Int32) × Simulation gen :=
  let waves := s.waves station q
  let (samples, source) := (List.range (sampleCount s.sampleRate start stop)).foldl
    (fun (samples, source) i =>
      let (sample, source) := s.sample waves start source i
      (samples.push sample, source))
    ((#[] : Array (Int64 × Int32)), s.source)
  (samples, { s with source })

end Simulation

end Tremor
