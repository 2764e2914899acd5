import Tremor.CommandLine.Arguments
import Tremor.Config.Files
import Tremor.Playground.Run
import Tremor.Random.Normal

/-!
# Running a request

A run loads its configuration, or creates the default one, changes it as the command line asks, and lets the playground
run.

- `Environment` : what a run finds around it
- `Response` : how a request ends
- `respond` : the response to a list of words, and the files after it
-/

namespace Tremor.CommandLine

/-- What a run finds around it. -/
structure Environment where
  home : Option String
  configHome : Option String
  files : FileStore
  /-- The present time, ms. -/
  now : Int64
  /-- Whether so many threads can be started. -/
  workers : UInt64 → Bool := fun _ => true
  /-- What writes and reads configurations. -/
  toml : Toml.Library

/-- Why a run fails. -/
inductive RunFault where
  | file (fault : FileFault)
  | observatory (fault : ObservatoryFault)
  | ring (fault : RingError Float)

def RunFault.message : RunFault → String
  | file fault => fault.message
  | observatory fault => fault.message
  | ring fault => fault.message

/-- What a run has to tell. -/
structure Report where
  config : Config
  /-- The live quakes at the end, by origin time. -/
  located : List Quake
  truth : SyntheticQuake
  cycles : Nat
  published : Nat
  archived : Nat

/-- How a request ends. -/
inductive Response where
  | usage (fault : UsageFault)
  | help
  | version
  | failed (fault : RunFault)
  | finished (report : Report)

def Response.code : Response → Nat
  | usage _ => 2
  | failed _ => 1
  | _ => 0

/-- The text that names the program and its version. -/
def versionText : String := "quakewatch 2.0.0"

/-- A configuration changed as the command line asks. -/
def override (a : Arguments) (c : Config) : Config :=
  { c with
    finder := { c.finder with resolution := a.resolution.getD c.finder.resolution }
    playground :=
      { c.playground with
        magnitude := a.magnitude.getD c.playground.magnitude
        seed := a.seed.getD c.playground.seed
        stationCount := a.stations.getD c.playground.stationCount } }

/-- Quiet signal before the origin, so that the averages settle, ms. -/
def leadIn : Int64 := 60000

def runPlayground (config : Config) (env : Environment) : Except RunFault Report :=
  match Playground.run Random.generator config { workers := env.workers } env.now leadIn with
  | .error (.observatory fault) => .error (.observatory fault)
  | .error (.ring fault) => .error (.ring fault)
  | .ok (_, p) => .ok {
      config
      located := p.observatory.catalog.registry.snapshot
      truth := p.truth
      cycles := p.observatory.cycles
      published := p.observatory.catalog.bus.published
      archived := p.observatory.archive.len }

def configPath (a : Arguments) (env : Environment) : String :=
  a.config.getD (Config.defaultPath env.home env.configHome)

/-- Carries out a run, and gives the files after it. -/
def run (a : Arguments) (env : Environment) : Except RunFault Report × FileStore :=
  match Config.loadOrCreate env.toml env.files (Path.ofString (configPath a env)) with
  | (.error fault, files) => (.error (.file fault), files)
  | (.ok loaded, files) =>
    let config := override a loaded
    match config.validate with
    | .error fault => (.error (.observatory (.config fault)), files)
    | .ok _ => (runPlayground config env, files)

/-- The response to a list of words, and the files after it. -/
def respond (words : List String) (env : Environment) : Response × FileStore :=
  match Arguments.parse words with
  | .error fault => (.usage fault, env.files)
  | .ok .help => (.help, env.files)
  | .ok .version => (.version, env.files)
  | .ok (.run a) =>
    match run a env with
    | (.error fault, files) => (.failed fault, files)
    | (.ok report, files) => (.finished report, files)

end Tremor.CommandLine
