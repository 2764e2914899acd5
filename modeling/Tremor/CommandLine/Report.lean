import Tremor.CommandLine.Run

/-!
# What the program prints

- `Response.texts` : the texts for the two output streams
- `quakeList` : the live quakes as a list of objects
-/

namespace Tremor.CommandLine

/-- The help of the command line. -/
def helpText : String := String.intercalate "\n" [
  "Locate a synthetic earthquake from simulated station picks",
  "",
  "Usage: quakewatch [OPTIONS]",
  "",
  "Options:",
  "  -c, --config <CONFIG>          Configuration file path",
  "  -d, --debug                    Enable debug logging",
  "      --trace                    Enable trace-level logging",
  "      --magnitude <MAGNITUDE>    Override the simulated magnitude",
  "      --seed <SEED>              Override the simulator seed",
  "      --stations <STATIONS>      Override the number of simulated stations",
  "      --resolution <RESOLUTION>  Override the search resolution (0-100)",
  "      --realtime                 Pace cycles by the configured interval instead of running flat out",
  "      --json                     Print the final earthquake list as JSON",
  "  -h, --help                     Print help",
  "  -V, --version                  Print version"]

/-- Numbers in a list of quakes. -/
def listStyle : Number.DoubleStyle := { wholeMark := ".0", nan := "null", infinity := "null", tie := .even }

def numberText (x : Float) : String := if x.isFinite then Number.shortestText listStyle x else "null"

def quotedText (s : String) : String := "\"" ++ s ++ "\""

def quakeObject (q : Quake) : String :=
  let fields := [
    ("id", toString q.id.number), ("cluster_id", toString q.cluster.number),
    ("lat", numberText q.place.lat), ("lon", numberText q.place.lon), ("depth", numberText q.depth),
    ("origin", toString q.origin.toInt), ("created_at", toString q.created.toInt),
    ("last_update", toString q.updated.toInt), ("mag", numberText q.mag.toFloat),
    ("mags", "[" ++ String.intercalate ", " (q.mags.map fun m => numberText m.toFloat) ++ "]"), ("pct", numberText q.pct),
    ("revision_id", toString q.revision.toNat), ("region", quotedText q.region)]
  "  \x7b\n" ++ String.intercalate ",\n" (fields.map fun (key, text) => "    " ++ quotedText key ++ ": " ++ text)
    ++ "\n  \x7d"

def quakeList (qs : List Quake) : String :=
  if qs.isEmpty then "[]" else "[\n" ++ String.intercalate ",\n" (qs.map quakeObject) ++ "\n]"

def Report.lines (r : Report) : List String :=
  (if r.located.isEmpty then ["No earthquake located"] else r.located.map fun q => "Final: " ++ q.summary)
    ++ ["Playground finished cycles=" ++ toString r.cycles ++ " events=" ++ toString r.published
      ++ " archived=" ++ toString r.archived]

/-- The texts for the two output streams; `list` asks for the list of quakes. -/
def Response.texts (list : Bool) : Response → String × String
  | usage fault => ("", "error: " ++ fault.message)
  | help => (helpText, "")
  | version => (versionText, "")
  | failed fault => ("", "Error: " ++ fault.message)
  | finished r =>
    (String.intercalate "\n" (r.lines ++ if list then [quakeList r.located] else []), "")

/-- The arguments of a run, if the words ask for one. -/
def runArguments (words : List String) : Arguments :=
  match Arguments.parse words with
  | .ok (.run a) => a
  | _ => {}

def asksForList (words : List String) : Bool := (runArguments words).json

/-- Whether the words ask for a run with pauses. -/
def realtime (words : List String) : Bool := (runArguments words).realtime

end Tremor.CommandLine
