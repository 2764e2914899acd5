import Tremor.Config.Reading
import Tremor.Config.Store
import Tremor.Config.Writing

/-!
# Configuration files

- `Config.load` : a valid configuration from a file
- `Config.save` : writes a configuration to a file
- `Config.loadOrCreate` : loads a file, or writes one with the defaults where there is none
- `directory`, `defaultPath` : where the file is kept
-/

namespace Tremor

/-- Why a configuration cannot be loaded or saved. -/
inductive FileFault where
  | config (fault : ConfigFault)
  | io (fault : StoreFault)
  /-- The text is no configuration. -/
  | unreadable
  /-- The configuration cannot be written as text. -/
  | unwritable

def FileFault.message : FileFault → String
  | config fault => "config: " ++ fault.message
  | io fault => "io: " ++ fault.message
  | unreadable => "toml parse"
  | unwritable => "toml write"

namespace Config

def load (lib : Toml.Library) (s : FileStore) (p : Path) : Except FileFault Config := do
  let text ← (s.read p).mapError .io
  match read lib text with
  | none => .error .unreadable
  | some config =>
    config.validate.mapError .config
    return config

/-- Writes a configuration to a file, and gives the files after that. -/
def save (lib : Toml.Library) (c : Config) (s : FileStore) (p : Path) : Except FileFault Unit × FileStore :=
  match c.write lib with
  | none => (.error .unwritable, s)
  | some text =>
    match s.write p text with
    | .error fault => (.error (.io fault), s)
    | .ok written => (.ok (), written)

/-- Loads a configuration, or saves the default one where the path leads to nothing, and gives the files after that:
directories on the way stay where saving fails. -/
def loadOrCreate (lib : Toml.Library) (s : FileStore) (p : Path) : Except FileFault Config × FileStore :=
  if s.contains p then (load lib s p, s)
  else
    match s.makeDirs p.parent with
    | (.error fault, made) => (.error (.io fault), made)
    | (.ok _, made) =>
      match save lib {} made p with
      | (.error fault, left) => (.error fault, left)
      | (.ok _, saved) => (.ok {}, saved)

/-! ## Where the file is kept -/

/-- A path with another one below it. -/
def joinPath (base below : String) : String :=
  if base.isEmpty || base.endsWith "/" then base ++ below else base ++ "/" ++ below

/-- The directory for configurations, by the two variables that tell it: the second one counts if it is absolute. -/
def baseDirectory (home configHome : Option String) : Option String :=
  match configHome with
  | some dir => if dir.startsWith "/" then some dir else ofHome
  | none => ofHome
where
  /-- The usual directory below the home directory. -/
  ofHome : Option String := (home.filter (· ≠ "")).map (joinPath · ".config")

def directory (home configHome : Option String) : String :=
  ((baseDirectory home configHome).map (joinPath · "quakewatch")).getD "./config"

/-- Where the configuration is kept by default. -/
def defaultPath (home configHome : Option String) : String := joinPath (directory home configHome) "config.toml"

end Config

end Tremor
