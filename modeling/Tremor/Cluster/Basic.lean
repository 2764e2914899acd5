import Tremor.Detection
import Tremor.Quake.Basic

/-!
# Clusters of detections

A cluster gathers detections that are believed to have one source. Its root is the mean place of the stations, set once;
its anchor is where the search for the source starts. A tick recomputes what depends on the detections, if the count of
their updates has changed.

- `Detections` : detections of different stations
- `Cluster.assign`, `Cluster.unassign` : the detections by station
- `Cluster.tick` : root, size and level after a change
- `Cluster.findRoot` : the mean place, on the circle of longitudes
-/

namespace Tremor

/-- Detections, one for each station. -/
structure Detections where
  list : List Detection := []
  distinct : (list.map (·.station)).Nodup := by decide

namespace Detections

def empty : Detections := {}

/-- Puts a detection in the place of the one of its station, or at the end. -/
def put (d : Detection) (list : List Detection) : List Detection :=
  if list.any (·.station == d.station) then list.map fun e => if e.station == d.station then d else e
  else list ++ [d]

theorem distinct_put {list : List Detection} (h : (list.map (·.station)).Nodup) (d : Detection) :
    ((put d list).map (·.station)).Nodup := by
  unfold put
  split
  · -- the new detection is of the station that it replaces the detection of
    have hstation : ((fun e : Detection => e.station) ∘ fun e => if e.station == d.station then d else e) =
        (·.station) := by
      funext e
      simp only [Function.comp]
      split
      · exact (eq_of_beq ‹_›).symm
      · rfl
    rw [List.map_map, hstation]
    exact h
  · rename_i hnew
    rw [List.map_append, List.nodup_append]
    refine ⟨h, List.nodup_cons.mpr ⟨List.not_mem_nil, List.nodup_nil⟩, fun s hs t ht => ?_⟩
    obtain ⟨e, he, rfl⟩ := List.mem_map.mp hs
    cases List.mem_singleton.mp ht
    exact fun hsame => hnew (List.any_eq_true.mpr ⟨e, he, beq_iff_eq.mpr hsame⟩)

def assign (ds : Detections) (d : Detection) : Detections := ⟨put d ds.list, distinct_put ds.distinct d⟩

def unassign (ds : Detections) (s : StationId) : Detections :=
  ⟨ds.list.filter (·.station != s), ds.distinct.sublist (List.filter_sublist.map _)⟩

end Detections

/-- Detections that are believed to have one source, and the search for it. -/
structure Cluster where
  id : ClusterId
  detections : Detections := .empty
  root : Option Point := none
  anchor : Option Point := none
  /-- The greatest distance of a valid station from the root, km. -/
  size : Float := 0.0
  /-- A coarse level of intensity, from 0 to 4. -/
  level : Nat := 0
  /-- The sum of the updates of all detections at the last tick. -/
  updateCount : UInt64 := 0
  /-- That sum when the source was last searched. -/
  searchedAt : UInt64 := 0
  /-- The number of picks from which a large cluster is searched again. -/
  nextReport : Nat := 0
  /-- The revision of its quake. -/
  revision : UInt32 := 0
  /-- Its quake. -/
  quake : Option QuakeId := none
  /-- The solution of the last search. -/
  previous : Option Hypocenter := none
  /-- The picks that were last selected for a search. -/
  selected : List Pick := []

namespace Cluster

/-! ## Detections -/

def assigned (c : Cluster) : List Detection := c.detections.list

def contains (c : Cluster) (s : StationId) : Bool := c.assigned.any (·.station == s)

def detection? (c : Cluster) (s : StationId) : Option Detection := c.assigned.find? (·.station == s)

/-- Adds a detection, in the place of an older one of its station if there is one. -/
def assign (c : Cluster) (d : Detection) : Cluster := { c with detections := c.detections.assign d }

def unassign (c : Cluster) (s : StationId) : Cluster := { c with detections := c.detections.unassign s }

def picks (c : Cluster) : List Pick := c.assigned.map (·.pick)

def valid (c : Cluster) : List Detection := c.assigned.filter (·.valid)

/-! ## Root and anchor -/

/-- Adds up the values of a function on a list, from the left. -/
def total {α : Type} (f : α → Float) (xs : List α) : Float := xs.foldl (fun sum x => sum + f x) 0.0

/-- The mean place of stations. Longitudes are averaged as directions, so that the date line does not matter. -/
def meanPlace (ds : List Detection) : Point :=
  let n := ds.length.toFloat
  let sines := total (fun d => (Geo.radians d.place.lon).sin) ds
  let cosines := total (fun d => (Geo.radians d.place.lon).cos) ds
  { lat := total (fun d => d.place.lat) ds / n
    lon := Geo.wrapLongitude (Geo.degrees (Float.atan2 (sines / n) (cosines / n))) }

/-- Sets root and anchor to the mean place of the valid stations, if there are any. -/
def findRoot (c : Cluster) : Cluster :=
  let ds := c.valid
  if ds.isEmpty then c
  else
    let place := meanPlace ds
    { c with root := some place, anchor := some place }

def anchorAt (c : Cluster) (p : Point) : Cluster := { c with anchor := some p }

def resetAnchor (c : Cluster) : Cluster := { c with anchor := c.root }

/-! ## Size and level -/

/-- How many detections have at least a ratio. -/
def countFrom (ratio : Float) (ds : List Detection) : Nat := ds.countP fun d => decide (d.maxRatio.toFloat ≥ ratio)

/-- The level that the numbers of detections above 128, 1024, 8192 and 32768 stand for. -/
def levelOf (above128 above1024 above8192 above32768 : Nat) : Nat :=
  if above32768 > 3 then 4
  else if above8192 > 4 ∨ above32768 ≥ 3 then 3
  else if above1024 > 6 ∨ above8192 > 3 then 2
  else if above128 > 8 ∨ above1024 > 3 then 1
  else 0

/-- The level of detections. -/
def levelFor (ds : List Detection) : Nat :=
  levelOf (countFrom 128.0 ds) (countFrom 1024.0 ds) (countFrom 8192.0 ds) (countFrom 32768.0 ds)

/-- The greatest distance of a station from a place, zero if there are no stations. -/
def reach (g : Geodesy) (place : Point) (ds : List Detection) : Float :=
  ds.foldl (fun size d => Scalar.max size (g.distance place d.place)) 0.0

/-- Recomputes size and level, once there is a root. -/
def measure (c : Cluster) (g : Geodesy) : Cluster :=
  match c.root with
  | none => c
  | some root => { c with size := reach g root c.valid, level := levelFor c.valid }

/-! ## Ticks -/

def updates (c : Cluster) : UInt64 := c.assigned.foldl (fun sum d => sum + d.updates) 0

/-- Recomputes root, size and level if the sum of the updates has changed, and tells whether it has. -/
def tick (c : Cluster) (g : Geodesy) : Cluster × Bool :=
  if c.updates = c.updateCount then (c, false)
  else
    let counted := { c with updateCount := c.updates }
    let rooted := if c.root.isNone then counted.findRoot else counted
    (rooted.measure g, true)

/-! ## What is known of the detections -/

/-- No station has two detections. -/
theorem distinct (c : Cluster) : (c.assigned.map (·.station)).Nodup := c.detections.distinct

theorem assigned_assign (c : Cluster) (d : Detection) :
    (c.assign d).assigned =
      if c.contains d.station then c.assigned.map fun e => if e.station == d.station then d else e
      else c.assigned ++ [d] := rfl

@[simp] theorem length_picks (c : Cluster) : c.picks.length = c.assigned.length := by
  simp [picks]

end Cluster

end Tremor
