import Tremor.Number.Reading

/-!
# The command line

Words are read from left to right. A switch stands alone; a parameter takes the rest of its word after an equals sign,
or the next word unless that looks like an option. Nothing may be given twice. Help and version end the reading at
once.

- `Arguments` : what a run is asked for
- `Request` : a run, the help or the version
- `Arguments.parse` : the request in a list of words
-/

namespace Tremor.CommandLine

/-- What a run is asked for. -/
structure Arguments where
  config : Option String := none
  debug : Bool := false
  trace : Bool := false
  magnitude : Option Float := none
  seed : Option UInt64 := none
  stations : Option UInt64 := none
  resolution : Option Float := none
  realtime : Bool := false
  json : Bool := false

/-- What the command line asks for. -/
inductive Request where
  | run (arguments : Arguments)
  | help
  | version

/-- What is wrong with a command line. -/
inductive UsageFault where
  | unknownOption (word : String)
  | unexpectedArgument (word : String)
  | unexpectedValue (option : String)
  | missingValue (option : String)
  | invalidValue (option value : String)
  | repeated (option : String)

def UsageFault.message : UsageFault → String
  | unknownOption word => "unexpected argument '" ++ word ++ "' found"
  | unexpectedArgument word => "unexpected argument '" ++ word ++ "' found"
  | unexpectedValue option => "unexpected value for '" ++ option ++ "' found; no more were expected"
  | missingValue option => "a value is required for '" ++ option ++ "' but none was supplied"
  | invalidValue option value => "invalid value '" ++ value ++ "' for '" ++ option ++ "'"
  | repeated option => "the argument '" ++ option ++ "' cannot be used multiple times"

/-! ## Options -/

inductive Switch where
  | debug
  | trace
  | realtime
  | json

inductive Parameter where
  | config
  | magnitude
  | seed
  | stations
  | resolution

inductive Opt where
  | switch (s : Switch)
  | parameter (p : Parameter)
  | help
  | version

/-- The option with a long name. -/
def Opt.ofName? : String → Option Opt
  | "config" => some (.parameter .config)
  | "debug" => some (.switch .debug)
  | "trace" => some (.switch .trace)
  | "magnitude" => some (.parameter .magnitude)
  | "seed" => some (.parameter .seed)
  | "stations" => some (.parameter .stations)
  | "resolution" => some (.parameter .resolution)
  | "realtime" => some (.switch .realtime)
  | "json" => some (.switch .json)
  | "help" => some .help
  | "version" => some .version
  | _ => none

/-- The option with a short name. -/
def Opt.ofLetter? : Char → Option Opt
  | 'c' => some (.parameter .config)
  | 'd' => some (.switch .debug)
  | 'h' => some .help
  | 'V' => some .version
  | _ => none

def Switch.set (name : String) (a : Arguments) : Switch → Except UsageFault Arguments
  | debug => if a.debug then .error (.repeated name) else .ok { a with debug := true }
  | trace => if a.trace then .error (.repeated name) else .ok { a with trace := true }
  | realtime => if a.realtime then .error (.repeated name) else .ok { a with realtime := true }
  | json => if a.json then .error (.repeated name) else .ok { a with json := true }

/-- Reads the value of a parameter that has none yet. -/
def readNew {α : Type} (name value : String) (old : Option α) (read : String → Option α) : Except UsageFault (Option α) :=
  if old.isSome then .error (.repeated name)
  else match read value with
    | some new => .ok (some new)
    | none => .error (.invalidValue name value)

/-- Gives a parameter its value, unless it has one. -/
def Parameter.set (name value : String) (a : Arguments) : Parameter → Except UsageFault Arguments
  | config => do
    let config ← readNew name value a.config fun s => if s.isEmpty then none else some s
    return { a with config }
  | magnitude => do return { a with magnitude := ← readNew name value a.magnitude Number.readDouble? }
  | seed => do return { a with seed := ← readNew name value a.seed Number.readWord? }
  | stations => do return { a with stations := ← readNew name value a.stations Number.readWord? }
  | resolution => do return { a with resolution := ← readNew name value a.resolution Number.readDouble? }

/-! ## Words -/

/-- Whether a word can be a value although it stands alone: it does not look like an option. -/
def standsAsValue (word : String) : Bool := !word.startsWith "-" || word == "-"

/-- What follows the options read so far. -/
inductive Progress where
  /-- Further words. -/
  | more (a : Arguments)
  /-- The value of a parameter. -/
  | value (a : Arguments) (p : Parameter) (name : String)
  /-- Nothing, because the request is clear. -/
  | done (r : Request)

/-- Reads the letters of a word of short options. The value of a parameter may follow its letter, with or without an
equals sign. -/
def letters (a : Arguments) : List Char → Except UsageFault Progress
  | [] => .ok (.more a)
  | c :: rest =>
    let name := "-" ++ c.toString
    match Opt.ofLetter? c with
    | none => .error (.unknownOption name)
    | some .help => .ok (.done .help)
    | some .version => .ok (.done .version)
    | some (.switch s) =>
      match s.set name a with
      | .error fault => .error fault
      | .ok a => letters a rest
    | some (.parameter p) =>
      match rest with
      | [] => .ok (.value a p name)
      | '=' :: value => (p.set name (String.ofList value) a).map .more
      | value => (p.set name (String.ofList value) a).map .more

/-- Reads a long option, with the value after an equals sign if there is one. -/
def longOption (a : Arguments) (word : List Char) : Except UsageFault Progress :=
  let bare := word.takeWhile (· ≠ '=')
  let name := "--" ++ String.ofList bare
  let value? := if bare.length < word.length then some (String.ofList (word.drop (bare.length + 1))) else none
  match Opt.ofName? (String.ofList bare), value? with
  | none, _ => .error (.unknownOption name)
  | some (.parameter p), some value => (p.set name value a).map .more
  | some (.parameter p), none => .ok (.value a p name)
  | some _, some _ => .error (.unexpectedValue name)
  | some (.switch s), none => (s.set name a).map .more
  | some .help, none => .ok (.done .help)
  | some .version, none => .ok (.done .version)

/-- Reads one word; a double dash ends the options. -/
def word (a : Arguments) (w : String) : Except UsageFault Progress :=
  match w.toList with
  | '-' :: '-' :: cs => longOption a cs
  | '-' :: c :: cs => letters a (c :: cs)
  | _ => .error (.unexpectedArgument w)

/-- The request in the words that are left. -/
def Arguments.parseFrom (a : Arguments) : List String → Except UsageFault Request
  | [] => .ok (.run a)
  | ["--"] => .ok (.run a)
  | "--" :: w :: _ => .error (.unexpectedArgument w)
  | w :: rest =>
    match word a w with
    | .error fault => .error fault
    | .ok (.done request) => .ok request
    | .ok (.more a) => a.parseFrom rest
    | .ok (.value a p name) =>
      match rest with
      | [] => .error (.missingValue name)
      | value :: rest =>
        if standsAsValue value then
          match p.set name value a with
          | .error fault => .error fault
          | .ok a => a.parseFrom rest
        else .error (.missingValue name)

def Arguments.parse (words : List String) : Except UsageFault Request := Arguments.parseFrom {} words

end Tremor.CommandLine
