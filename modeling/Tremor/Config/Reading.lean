import Tremor.Config.Basic
import Tremor.Number.Conversion
import Tremor.Toml.Library

/-!
# Reading a configuration

A configuration is a document with a table for each section. What is missing has its default, what is unknown does not
count. A section may also be given as the array of its settings, in order, as far as it goes.

- `Config.ofEntries` : the configuration that a document stands for
- `Config.read` : the same from a text
-/

namespace Tremor

open Toml

/-- The settings that a node gives to a section: by name or in order. -/
inductive Settings where
  | named (entries : Entries)
  | listed (values : List Node)

namespace Settings

/-- The settings in a node. A date or time gives none that has a name. -/
def ofNode : Node → Option Settings
  | .table _ entries => some (.named entries)
  | .array values => some (.listed values)
  | .tables elements => some (.listed (elements.map (.table .header)))
  | .moment => some (.named [])
  | _ => none

/-- The setting with a name and a place in the order. -/
def get? (s : Settings) (name : String) (place : Nat) : Option Node :=
  match s with
  | named entries => entries.get? name
  | listed values => values[place]?

/-- Reads a setting, if there is one, and takes the default otherwise. -/
def field {α : Type} (read : Node → Option α) (default : α) (s : Settings) (name : String) (place : Nat) : Option α :=
  match s.get? name place with
  | none => some default
  | some node => read node

end Settings

namespace Config

def readNumber : Node → Option Float
  | .float x => some x
  | .integer i => some (Number.ofInt64 (Int64.ofInt i))
  | _ => none

def readCount : Node → Option UInt64
  | .integer i => if 0 ≤ i then some i.toNat.toUInt64 else none
  | _ => none

def readFlag : Node → Option Bool
  | .boolean b => some b
  | _ => none

def readBuffer (n : Node) : Option RingConfig := do
  let d : RingConfig := {}
  let s ← Settings.ofNode n
  let sampleRate ← s.field readNumber d.sampleRate "sample_rate" 0
  let seconds ← s.field readNumber d.seconds "seconds" 1
  let server ← s.field readFlag d.server "server_mode" 2
  return { sampleRate, seconds, server }

def readFinder (n : Node) : Option SearchSettings := do
  let d : SearchSettings := {}
  let s ← Settings.ofNode n
  let tolerance ← s.field readNumber d.tolerance "p_wave_inaccuracy_threshold" 0
  let correctness ← s.field readNumber d.correctness "correctness_threshold" 1
  let resolution ← s.field readNumber d.resolution "resolution" 2
  return { tolerance, correctness, resolution }

def readAnalysis (n : Node) : Option AnalysisConfig := do
  let d : AnalysisConfig := {}
  let s ← Settings.ofNode n
  let workerThreads ← s.field readCount d.workerThreads "worker_threads" 0
  let cycleInterval ← s.field readCount d.cycleInterval "cycle_interval_ms" 1
  return { workerThreads, cycleInterval }

def readPlayground (n : Node) : Option PlaygroundConfig := do
  let d : PlaygroundConfig := {}
  let s ← Settings.ofNode n
  let stationCount ← s.field readCount d.stationCount "station_count" 0
  let networkRadius ← s.field readNumber d.networkRadius "network_radius_km" 1
  let seed ← s.field readCount d.seed "seed" 2
  let lat ← s.field readNumber d.lat "lat" 3
  let lon ← s.field readNumber d.lon "lon" 4
  let depth ← s.field readNumber d.depth "depth" 5
  let magnitude ← s.field readNumber d.magnitude "magnitude" 6
  let sampleRate ← s.field readNumber d.sampleRate "sample_rate" 7
  let noise ← s.field readNumber d.noise "noise" 8
  let duration ← s.field readNumber d.duration "duration_secs" 9
  return { stationCount, networkRadius, seed, lat, lon, depth, magnitude, sampleRate, noise, duration }

/-- The configuration that a document stands for. -/
def ofEntries (document : Entries) : Option Config := do
  let s := Settings.named document
  let buffer ← s.field readBuffer {} "buffer" 0
  let finder ← s.field readFinder {} "finder" 1
  let analysis ← s.field readAnalysis {} "analysis" 2
  let playground ← s.field readPlayground {} "playground" 3
  return { buffer, finder, analysis, playground }

/-- The configuration that a text stands for. -/
def read (lib : Library) (text : String) : Option Config := (lib.read text).bind ofEntries

end Config

end Tremor
