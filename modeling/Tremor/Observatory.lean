import Tremor.Cluster.Pass
import Tremor.Config.Basic
import Tremor.Quake.Archive

/-!
# The observatory

The observatory owns the clusters, the catalog and the archive. A cycle ticks every cluster and makes a pass over it,
and then estimates the magnitudes of the live quakes anew; once a second the expired quakes are archived.

- `Observatory.create` : an observatory for a valid configuration, if its threads can be started
- `Observatory.cycle` : one cycle and its outcomes
- `Observatory.second` : the quakes that are archived
-/

namespace Tremor

/-- What an observatory relies on. -/
structure Collaborators where
  geodesy : Geodesy := .sphere
  travelTimes : TravelTimes := UniformSphere.travelTimes {}
  table : MagnitudeTable := LogarithmicScale.table {}
  regions : RegionNames := .coordinates
  archive : Archive := {}
  /-- Whether so many threads can be started; zero stands for one on each core. -/
  workers : UInt64 → Bool := fun _ => true

/-- Why there is no observatory. -/
inductive ObservatoryFault where
  | config (fault : ConfigFault)
  /-- The threads cannot be started. -/
  | workers

def ObservatoryFault.message : ObservatoryFault → String
  | config fault => "config: " ++ fault.message
  | workers => "worker pool"

/-- Clusters, live quakes and archive, with what passes and magnitudes need. -/
structure Observatory where
  detector : Detector
  estimator : MagnitudeEstimator
  clusters : List Cluster := []
  catalog : Catalog
  archive : Archive
  cycles : Nat := 0
  /-- The number of the next new cluster. -/
  nextCluster : Nat := 1

namespace Observatory

def busCapacity : Nat := 1024

/-- An observatory to which nothing has happened. -/
def start (config : Config) (parts : Collaborators) : Observatory :=
  { detector :=
      { locator := { geodesy := parts.geodesy, travelTimes := parts.travelTimes, settings := config.finder }
        regions := parts.regions }
    estimator := { geodesy := parts.geodesy, travelTimes := parts.travelTimes, table := parts.table }
    catalog := { bus := Bus.create busCapacity }
    archive := parts.archive }

def create (config : Config) (parts : Collaborators) : Except ObservatoryFault Observatory :=
  match config.validate with
  | .error fault => .error (.config fault)
  | .ok _ =>
    if parts.workers config.analysis.workerThreads then .ok (start config parts) else .error .workers

/-! ## Clusters -/

def cluster? (o : Observatory) (id : ClusterId) : Option Cluster := o.clusters.find? (·.id == id)

/-- Changes the cluster with an identity, if there is one. -/
def modifyCluster (o : Observatory) (id : ClusterId) (f : Cluster → Cluster) : Observatory :=
  { o with clusters := o.clusters.map fun c => if c.id == id then f c else c }

def addCluster (o : Observatory) : ClusterId × Observatory :=
  let id : ClusterId := ⟨o.nextCluster⟩
  (id, { o with clusters := o.clusters ++ [{ id }], nextCluster := o.nextCluster + 1 })

/-- Ticks every cluster, and counts those that changed. -/
def tick (o : Observatory) : Nat × Observatory :=
  let ticked := o.clusters.map fun c => c.tick o.detector.locator.geodesy
  (ticked.countP (·.2), { o with clusters := ticked.map (·.1) })

/-! ## Cycles -/

/-- Ticks a cluster and makes a pass over it; nothing happens when there is no such cluster. -/
def passCluster (now : Int64) (o : Observatory) (id : ClusterId) : Option Outcome × Observatory :=
  match o.cluster? id with
  | none => (none, o)
  | some c =>
    let (ticked, _) := c.tick o.detector.locator.geodesy
    let (outcome, c, catalog) := ticked.pass o.detector now o.catalog
    (some outcome, { o.modifyCluster id fun _ => c with catalog })

/-- Makes passes over clusters in a given order. -/
def passes (now : Int64) : List ClusterId → Observatory → List (ClusterId × Outcome) × Observatory
  | [], o => ([], o)
  | id :: ids, o =>
    let (outcome, o) := o.passCluster now id
    let (outcomes, o) := passes now ids o
    ((outcome.map fun x => (id, x)).toList ++ outcomes, o)

/-- Estimates the magnitude of the quake of a cluster anew, if it is live and stations allow it. -/
def updateMagnitude (e : MagnitudeEstimator) (r : Registry) (c : Cluster) : Registry :=
  match c.quake.bind r.get? with
  | none => r
  | some quake =>
    match e.estimate quake c.assigned with
    | none => r
    | some mags => (r.setMagnitude quake.id mags).1

/-- Estimates the magnitudes of the quakes of clusters in a given order. -/
def updateMagnitudes (o : Observatory) (clusters : List Cluster) : Observatory :=
  { o with
    catalog := { o.catalog with registry := clusters.foldl (updateMagnitude o.estimator) o.catalog.registry } }

/-- One cycle, with the outcome of the pass over each cluster. -/
def cycle (o : Observatory) (now : Int64) : List (ClusterId × Outcome) × Observatory :=
  let (outcomes, o) := passes now (o.clusters.map (·.id)) o
  (outcomes, { o.updateMagnitudes o.clusters with cycles := o.cycles + 1 })

/-- Archives the expired quakes, and gives them. -/
def second (o : Observatory) (now : Int64) : List Quake × Observatory :=
  let (expired, catalog, archive) := o.catalog.retire Archive.push now o.archive
  (expired, { o with catalog, archive })

end Observatory

end Tremor
