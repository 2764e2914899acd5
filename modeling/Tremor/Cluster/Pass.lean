import Tremor.Cluster.Basic
import Tremor.Cluster.Selection
import Tremor.Quake.Catalog
import Tremor.Search.Condition
import Tremor.Search.Locate

/-!
# Passes over a cluster

A pass decides whether a cluster is worth a search, selects picks, locates their source and brings the catalog up to
date with the solution.

- `SkipReason`, `Outcome` : what comes of a pass
- `Cluster.prepare` : the picks to search with, or the reason to skip
- `Cluster.evaluate` : the solution, accepted or rejected
- `Cluster.commit`, `Cluster.discard` : what becomes of the quake
- `Cluster.pass` : all of that
-/

namespace Tremor

/-- Why a cluster is not searched, or its solution not stored. -/
inductive SkipReason where
  | noPicks
  | backoff
  | noNewPicks
  | tooWeak
  | tooFewPicks
  | noRoot
  | notEnoughDeltaP
  /-- The quake of the cluster is no longer live. -/
  | archived
  deriving DecidableEq, Repr

/-- What came of a pass. -/
inductive Outcome where
  | skipped (reason : SkipReason)
  | rejected (condition : Condition)
  | committed (quake : QuakeId) (pct : Float) (created : Bool)
  | discarded (pct : Float)

structure Detector where
  locator : Locator
  regions : RegionNames

/-- What a search works on. -/
structure SearchTask where
  picks : List Pick
  root : Point
  anchor : Point

/-- A solution that passed all checks, with the share of the picks that fit. -/
structure Solution where
  hypocenter : Hypocenter
  pct : Float

namespace Cluster

/-! ## Preparation -/

/-- So few picks are worth a search. -/
def minPicks : Nat := 5

def minRatio : Float := 16.0

/-- The arrivals must be spread over this time, ms. -/
def minArrivalSpread : Int64 := 2200

/-- From so many picks on, a cluster with a quake is searched less often. -/
def backoffStart : Nat := 24

/-- It is searched again with so many times as many picks. -/
def backoffGrowth : Float := 1.2

/-- The number of picks at which the next search follows one with `n` picks. -/
def nextReportAfter (n : Nat) : Nat := Number.truncateNat (n.toFloat * backoffGrowth)

/-- Whether the frequency of searches is limited. -/
def backsOff (c : Cluster) : Bool := c.quake.isSome && decide (backoffStart ≤ c.assigned.length)

/-- Sets the number of picks for the next search, if that is limited; nothing if it is not reached yet. -/
def schedule (c : Cluster) : Option Cluster :=
  if c.backsOff then
    if c.assigned.length < c.nextReport then none
    else some { c with nextReport := nextReportAfter c.assigned.length }
  else some c

/-- Selects the picks for a search from picks in order of ratio, in order of time. -/
def selection (g : Geodesy) (strong : List Pick) : List Pick :=
  Selection.byArrival (Selection.selectSpread (fun a b => g.distance a.place b.place) strong)

def selectPicks (c : Cluster) (g : Geodesy) : Cluster × Except SkipReason SearchTask :=
  let sorted := Selection.byRatio c.picks
  if sorted.getLast?.any fun p => decide (p.maxRatio.toFloat < minRatio) then (c, .error .tooWeak)
  else
    let strong := Selection.trimWeak sorted
    if strong.length < minPicks then (c, .error .tooFewPicks)
    else
      let picks := selection g strong
      let c := { c with selected := picks }
      if Selection.arrivalSpread picks < minArrivalSpread then (c, .error .notEnoughDeltaP)
      else match c.root, c.anchor with
        | some root, some anchor => (c, .ok { picks, root, anchor })
        | _, _ => (c, .error .noRoot)

/-- The picks to search with, or the reason to skip; the cluster remembers what it was searched with. -/
def prepare (c : Cluster) (g : Geodesy) : Cluster × Except SkipReason SearchTask :=
  if c.assigned.isEmpty then (c, .error .noPicks)
  else match c.schedule with
    | none => (c, .error .backoff)
    | some c =>
      if c.searchedAt = c.updateCount then (c, .error .noNewPicks)
      else selectPicks { c with searchedAt := c.updateCount } g

/-! ## Evaluation -/

/-- The share of picks that fit when `wrong` of `n` do not, percent. -/
def percentage (n wrong : Nat) : Float := 100.0 * (n - wrong).toFloat / n.toFloat

/-- Locates the source of the picks and checks the solution. -/
def evaluate (l : Locator) (task : SearchTask) (previous : Option Hypocenter) :
    Except (Condition × Option Hypocenter) Solution :=
  let best := l.locate task.picks task.anchor previous
  match l.check task.picks best previous task.root, best with
  | .ok, some h =>
    let wrong := l.wrongPicks task.picks h
    .ok { hypocenter := { h with wrong }, pct := percentage task.picks.length wrong }
  | condition, best => .error (condition, best)

/-! ## The quake -/

/-- A solution this far from the anchor moves it, km. -/
def anchorDrift : Float := 400.0

/-- Moves the anchor to a solution that lies far from it. -/
def followDrift (c : Cluster) (g : Geodesy) (anchor : Point) (h : Hypocenter) : Cluster :=
  if g.distance h.place anchor > anchorDrift then c.anchorAt h.place else c

def restate (regions : RegionNames) (s : Solution) (revision : UInt32) (now : Int64) (q : Quake) : Quake :=
  { (q.revise s.hypocenter regions now).1 with pct := s.pct, revision }

/-- Stores a solution: as a new quake, or as the next revision of the quake of the cluster. -/
def commit (c : Cluster) (d : Detector) (s : Solution) (now : Int64) (catalog : Catalog) :
    Outcome × Cluster × Catalog :=
  let revision := c.revision + 1
  match c.quake with
  | some id =>
    match catalog.amend id (restate d.regions s revision now) with
    | none => (.skipped .archived, c, catalog)
    | some catalog => (.committed id s.pct false, { c with revision }, catalog)
  | none =>
    let (quake, catalog) := catalog.enrol fun id =>
      { Quake.create id c.id s.hypocenter d.regions now with pct := s.pct, revision }
    (.committed quake.id s.pct true, { c with revision, quake := some quake.id }, catalog)

def discard (c : Cluster) (s : Solution) (catalog : Catalog) : Outcome × Cluster × Catalog :=
  let catalog := match c.quake with
    | some id => catalog.withdraw id c.id
    | none => catalog
  (.discarded s.pct, { c with quake := none }, catalog)

/-- Stores a solution that enough picks fit, and drops the quake otherwise. -/
def settle (c : Cluster) (d : Detector) (anchor : Point) (s : Solution) (now : Int64) (catalog : Catalog) :
    Outcome × Cluster × Catalog :=
  if s.pct > d.locator.settings.correctness then
    (c.followDrift d.locator.geodesy anchor s.hypocenter).commit d s now catalog
  else c.discard s catalog

def pass (c : Cluster) (d : Detector) (now : Int64) (catalog : Catalog) : Outcome × Cluster × Catalog :=
  match c.prepare d.locator.geodesy with
  | (c, .error reason) => (.skipped reason, c, catalog)
  | (c, .ok task) =>
    match evaluate d.locator task c.previous with
    | .error (condition, best) =>
      (.rejected condition, if best.isSome then { c with previous := best } else c, catalog)
    | .ok s =>
      let (outcome, c, catalog) := c.settle d task.anchor s now catalog
      (outcome, { c with previous := some s.hypocenter }, catalog)

end Cluster

end Tremor
