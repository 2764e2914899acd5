import Tremor.Observatory
import Tremor.Playground.Simulation
import Tremor.Waveform.Monitor

/-!
# The playground

A simulated network records a synthetic quake, and an observatory with one cluster locates it. Time advances in steps
of a second, from a lead-in before the origin to a while after it.

- `Playground.create` : the state before the first step
- `Playground.step` : one second of simulated time
- `Playground.run` : all seconds, with the outcome of each
-/

namespace Tremor

/-- Why a run cannot start. -/
inductive PlaygroundFault where
  | observatory (fault : ObservatoryFault)
  | ring (fault : RingError Float)

/-- A simulated network with its monitors, and the observatory that they feed. -/
structure Playground (gen : Generator) where
  observatory : Observatory
  simulation : Simulation gen
  monitors : List Monitor
  truth : SyntheticQuake
  cluster : ClusterId

namespace Playground

variable {gen : Generator}

/-- Length of a step, ms. -/
def stepLength : Int64 := 1000

def create (gen : Generator) (config : Config) (parts : Collaborators) (origin : Int64) :
    Except PlaygroundFault (Playground gen) := do
  let observatory ← (Observatory.create config parts).mapError .observatory
  let simulation := Simulation.create gen parts.geodesy parts.travelTimes config.playground
  let monitors ← simulation.stations.mapM fun station =>
    (Monitor.create station simulation.sampleRate config.buffer.seconds config.buffer.server).mapError .ring
  let (cluster, observatory) := observatory.addCluster
  return { observatory, simulation, monitors, truth := SyntheticQuake.ofConfig config.playground origin, cluster }

def ingestAll (samples : Array (Int64 × Int32)) (m : Monitor) : Monitor :=
  samples.foldl (fun m (time, raw) => (m.ingest time raw).1) m

def recordAll (truth : SyntheticQuake) (start stop : Int64) :
    List Monitor → Simulation gen → List Monitor × Simulation gen
  | [], s => ([], s)
  | m :: ms, s =>
    let (samples, s) := s.waveform m.station truth start stop
    let m := ingestAll samples m
    let (ms, s) := recordAll truth start stop ms s
    (m :: ms, s)

/-- One step that begins at `time`, with the outcomes of its cycle. -/
def step (p : Playground gen) (time : Int64) : List (ClusterId × Outcome) × Playground gen :=
  let { observatory, simulation, monitors, truth, cluster } := p
  let next := time + stepLength
  let (monitors, simulation) := recordAll truth time next monitors simulation
  let detections := monitors.filterMap (·.detection?)
  let observatory := observatory.modifyCluster cluster fun c => detections.foldl Cluster.assign c
  let (outcomes, observatory) := observatory.cycle next
  let (_, observatory) := observatory.second next
  (outcomes, { observatory, simulation, monitors, truth, cluster })

def stepCount (start stop : Int64) : Nat := ((stop.toInt - start.toInt + 999) / 1000).toNat

/-- Carries out `n` steps from `time` on; gives the end of each step with its outcomes. -/
def steps : Nat → Int64 → Playground gen → List (Int64 × List (ClusterId × Outcome)) × Playground gen
  | 0, _, p => ([], p)
  | n + 1, time, p =>
    let (outcomes, p) := p.step time
    let next := time + stepLength
    let (rest, p) := steps n next p
    ((next, outcomes) :: rest, p)

/-- The end of a run, by the configured duration. -/
def stopTime (config : Config) (origin : Int64) : Int64 :=
  origin + Number.truncate (config.playground.duration * 1000.0)

/-- All steps from the lead-in on. -/
def run (gen : Generator) (config : Config) (parts : Collaborators) (origin leadIn : Int64) :
    Except PlaygroundFault (List (Int64 × List (ClusterId × Outcome)) × Playground gen) := do
  let p ← create gen config parts origin
  let start := origin - leadIn
  return steps (stepCount start (stopTime config origin)) start p

end Playground

end Tremor
