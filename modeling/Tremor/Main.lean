import Std.Time.DateTime.Timestamp
import Tremor.CommandLine.Report
import Tremor.Toml.Writing

/-!
# The program

The outer layer reads the variables, the clock and the files around the configuration, asks for the response to its
arguments, makes the directories and the file that were made, and prints.
-/

open Tremor CommandLine

/-- The code of the fault that reading a directory as a file gives. -/
def directoryCode : UInt32 := 21

/-- What stands where a path leads, as far as reading tells. -/
def entryAt (path : String) : IO (Option StoreEntry) := do
  try
    return some (.file (← IO.FS.readFile path))
  catch
    | .inappropriateType _ code _ => return if code = directoryCode then some .directory else none
    | _ => return none

/-- The files that matter for a path: the entry that it leads to and those above it. -/
def filesAround (path : Path) : IO FileStore := do
  let mut files : FileStore := {}
  for above in path.ancestors.reverse do
    match ← entryAt above.toString with
    | some .directory => files := (files.makeDir above).toOption.getD files
    | some (.file text) => files := (files.write above text).toOption.getD files
    | none => pure ()
  return files

/-- The environment of a request, and the path of its configuration. -/
def readEnvironment (words : List String) : IO (Environment × Path) := do
  let home ← IO.getEnv "HOME"
  let configHome ← IO.getEnv "XDG_CONFIG_HOME"
  let now ← Std.Time.Timestamp.now
  let env : Environment :=
    { home, configHome, files := {}, now := Int64.ofInt now.toMillisecondsSinceUnixEpoch.val, toml := Toml.library }
  let path := Path.ofString <| match Arguments.parse words with
    | .ok (.run a) => configPath a env
    | _ => Config.defaultPath home configHome
  return ({ env with files := ← filesAround path }, path)

/-- Makes what a run has made: directories above a path, and the file it leads to. -/
def writeMade (before after : FileStore) (path : Path) : IO Unit := do
  for above in path.parent.ancestors.reverse do
    if after.isDirectory above ∧ ¬ before.isDirectory above then IO.FS.createDirAll above.toString
  unless before.contains path do
    if let .ok text := after.read path then IO.FS.writeFile path.toString text

def main (words : List String) : IO UInt32 := do
  let (env, path) ← readEnvironment words
  let (response, files) := respond words env
  try
    writeMade env.files files path
  catch fault =>
    IO.eprintln ("Error: io: " ++ toString fault)
    return 1
  if let .finished report := response then
    if realtime words then
      IO.sleep (report.cycles.toUInt32 * report.config.analysis.cycleInterval.toUInt32)
  let (out, err) := response.texts (asksForList words)
  unless out.isEmpty do IO.println out
  unless err.isEmpty do IO.eprintln err
  return response.code.toUInt32
