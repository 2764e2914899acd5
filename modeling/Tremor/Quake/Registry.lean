import Tremor.Quake.Magnitude

/-!
# The registry of live quakes

A live quake stays as long as its magnitude lets it, and longer while it is revised. The registry keeps the order in
which quakes came.

- `Registry.insert`, `Registry.get?`, `Registry.remove`, `Registry.modify` : the records by identity
- `Registry.setMagnitude` : stores the magnitudes of the stations with their median
- `Registry.sweep` : hands expired records to an archive and removes them
-/

namespace Tremor

/-- How long a quake is kept, in minutes, by its magnitude from 0 to 9. -/
def retentionTable : Array Int64 := #[3, 3, 3, 5, 7, 10, 15, 25, 40, 40]

/-- How long a quake of a magnitude is kept, minutes. -/
def retentionMinutes (mag : Float) : Int64 :=
  retentionTable.getD (min (Number.truncate mag).toInt.toNat 9) 0

/-- How long a quake of a magnitude is kept, ms. -/
def retention (mag : Float) : Int64 := retentionMinutes mag * 60 * 1000

/-- Whether a quake started longer ago than it is kept, and was not revised for more than a quarter of that time. -/
def Quake.expired (q : Quake) (now : Int64) : Bool :=
  decide (retention q.mag.toFloat < now - q.origin) && decide (retention q.mag.toFloat / 4 < now - q.updated)

/-- The live quakes, in the order in which they came. -/
structure Registry where
  quakes : List Quake := []

namespace Registry

def get? (r : Registry) (id : QuakeId) : Option Quake := r.quakes.find? (·.id == id)

def contains (r : Registry) (id : QuakeId) : Bool := r.quakes.any (·.id == id)

def modify (r : Registry) (id : QuakeId) (f : Quake → Quake) : Registry :=
  { quakes := r.quakes.map fun q => if q.id == id then f q else q }

/-- Stores a record, in the place of an older one with its identity if there is one. -/
def insert (r : Registry) (q : Quake) : Registry :=
  if r.contains q.id then r.modify q.id fun _ => q else { quakes := r.quakes ++ [q] }

def remove (r : Registry) (id : QuakeId) : Registry := { quakes := r.quakes.filter (·.id != id) }

def len (r : Registry) : Nat := r.quakes.length

/-- Stores the magnitudes of the stations, ascending, with their median, and tells whether that was possible: the quake
is live and there are magnitudes. -/
def setMagnitude (r : Registry) (id : QuakeId) (mags : List Double) : Registry × Bool :=
  let sorted := Number.sortTotal mags
  match median sorted with
  | none => (r, false)
  | some mag => (r.modify id fun q => { q with mag, mags := sorted }, r.contains id)

def snapshot (r : Registry) : List Quake := r.quakes.mergeSort fun a b => a.origin ≤ b.origin

def expired (r : Registry) (now : Int64) : List Quake := r.quakes.filter (·.expired now)

/-- Hands the expired quakes to an archive and removes them; gives them too. -/
def sweep {Sink : Type} (store : Sink → Quake → Sink) (r : Registry) (now : Int64) (sink : Sink) :
    List Quake × Registry × Sink :=
  let expired := r.expired now
  (expired, { quakes := r.quakes.filter fun q => !q.expired now }, expired.foldl store sink)

end Registry

end Tremor
