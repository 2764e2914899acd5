import Tremor.Quake.Basic

/-!
# The archive

- `Archive.push` : stores a record; the oldest ones give way when the capacity is reached
- `Archive.recent` : the newest records, newest first
-/

namespace Tremor

/-- The newest records, oldest first, as many as the capacity allows. -/
structure Archive where
  capacity : Nat := 1000
  records : List Quake := []

namespace Archive

/-- Stores a record. -/
def push (a : Archive) (q : Quake) : Archive :=
  let records := a.records ++ [q]
  { a with records := records.drop (records.length - a.capacity) }

def len (a : Archive) : Nat := a.records.length

/-- The newest `limit` records, newest first. -/
def recent (a : Archive) (limit : Nat) : List Quake := a.records.reverse.take limit

end Archive

end Tremor
