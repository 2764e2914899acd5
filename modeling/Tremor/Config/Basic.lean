import Tremor.Search.Settings

/-!
# Configuration

- `Config` : all settings of the program, with their defaults
- `Config.validate` : the first setting that the program cannot run with
-/

namespace Tremor

structure RingConfig where
  /-- Samples per second. -/
  sampleRate : Float := 20.0
  /-- Seconds kept for each station. -/
  seconds : Float := 300.0
  /-- Whether the signals are left out. -/
  server : Bool := false

structure AnalysisConfig where
  /-- The number of threads; zero for one on each core. -/
  workerThreads : UInt64 := 0
  /-- The pause between cycles, ms. -/
  cycleInterval : UInt64 := 1000

/-- A synthetic quake and the network that records it. -/
structure PlaygroundConfig where
  stationCount : UInt64 := 24
  /-- The stations lie within this distance of the epicenter, km. -/
  networkRadius : Float := 300.0
  seed : UInt64 := 42
  lat : Float := 35.0
  lon : Float := 139.0
  depth : Float := 15.0
  magnitude : Float := 5.5
  /-- Samples per second. -/
  sampleRate : Float := 20.0
  /-- Standard deviation of the background, counts. -/
  noise : Float := 100.0
  /-- Seconds after the origin. -/
  duration : Float := 180.0

structure Config where
  buffer : RingConfig := {}
  finder : SearchSettings := {}
  analysis : AnalysisConfig := {}
  playground : PlaygroundConfig := {}

/-- A setting that the program cannot run with. -/
inductive ConfigFault where
  | sampleRate
  | seconds
  | resolution
  | correctness
  | tolerance
  | stationCount
  deriving DecidableEq, Repr

def ConfigFault.message : ConfigFault → String
  | sampleRate => "buffer.sample_rate must be positive"
  | seconds => "buffer.seconds must be positive"
  | resolution => "finder.resolution must be within 0..=100"
  | correctness => "finder.correctness_threshold must be within 0..=100"
  | tolerance => "finder.p_wave_inaccuracy_threshold must be positive"
  | stationCount => "playground.station_count must be at least 1"

namespace Config

def isPercentage (x : Float) : Bool := decide (0.0 ≤ x) && decide (x ≤ 100.0)

/-- Looks for the first setting that the program cannot run with. -/
def validate (c : Config) : Except ConfigFault Unit :=
  if ¬ c.buffer.sampleRate > 0.0 then .error .sampleRate
  else if ¬ c.buffer.seconds > 0.0 then .error .seconds
  else if ¬ isPercentage c.finder.resolution then .error .resolution
  else if ¬ isPercentage c.finder.correctness then .error .correctness
  else if ¬ c.finder.tolerance > 0.0 then .error .tolerance
  else if c.playground.stationCount = 0 then .error .stationCount
  else .ok ()

end Config

end Tremor
