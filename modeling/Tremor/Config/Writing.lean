import Tremor.Config.Basic
import Tremor.Toml.Library

/-!
# Writing a configuration

- `Config.toSections` : the sections with their settings
- `Config.write` : the text of a configuration
-/

namespace Tremor.Config

/-- The sections of a configuration with their settings, in the order in which they are written. -/
def toSections (c : Config) : List Toml.Section := [
  ("buffer", [
    ("sample_rate", .number c.buffer.sampleRate),
    ("seconds", .number c.buffer.seconds),
    ("server_mode", .flag c.buffer.server)]),
  ("finder", [
    ("p_wave_inaccuracy_threshold", .number c.finder.tolerance),
    ("correctness_threshold", .number c.finder.correctness),
    ("resolution", .number c.finder.resolution)]),
  ("analysis", [
    ("worker_threads", .count c.analysis.workerThreads),
    ("cycle_interval_ms", .count c.analysis.cycleInterval)]),
  ("playground", [
    ("station_count", .count c.playground.stationCount),
    ("network_radius_km", .number c.playground.networkRadius),
    ("seed", .count c.playground.seed),
    ("lat", .number c.playground.lat),
    ("lon", .number c.playground.lon),
    ("depth", .number c.playground.depth),
    ("magnitude", .number c.playground.magnitude),
    ("sample_rate", .number c.playground.sampleRate),
    ("noise", .number c.playground.noise),
    ("duration_secs", .number c.playground.duration)])]

/-- The text of a configuration, or nothing when the library cannot write it. -/
def write (lib : Toml.Library) (c : Config) : Option String := lib.write c.toSections

end Tremor.Config
