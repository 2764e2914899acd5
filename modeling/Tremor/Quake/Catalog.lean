import Tremor.Quake.Bus
import Tremor.Quake.Registry

/-!
# The catalog

The catalog holds the live quakes, the notices about them and the number of the next new quake.

- `Catalog.enrol` : takes a new quake in and tells it
- `Catalog.amend` : changes a live quake and tells it
- `Catalog.withdraw` : drops a live quake and tells it
- `Catalog.retire` : archives what has expired and tells it
-/

namespace Tremor

/-- The live quakes and what was told about them. -/
structure Catalog where
  registry : Registry := {}
  bus : Bus
  /-- The number of the next new quake. -/
  next : Nat := 1

namespace Catalog

/-- Takes in a new quake, built from the identity that it gets. -/
def enrol (c : Catalog) (build : QuakeId → Quake) : Quake × Catalog :=
  let quake := build ⟨c.next⟩
  (quake, { registry := c.registry.insert quake, bus := c.bus.publish (.created quake), next := c.next + 1 })

/-- Changes a quake, or does nothing when it is not live. -/
def amend (c : Catalog) (id : QuakeId) (change : Quake → Quake) : Option Catalog :=
  (c.registry.get? id).map fun quake =>
    { c with registry := c.registry.modify id change, bus := c.bus.publish (.updated (change quake)) }

/-- Drops a quake if it is live. -/
def withdraw (c : Catalog) (id : QuakeId) (cluster : ClusterId) : Catalog :=
  if c.registry.contains id then
    { c with registry := c.registry.remove id, bus := c.bus.publish (.removed id cluster) }
  else c

/-- Moves the expired quakes to an archive; gives them too. -/
def retire {Sink : Type} (store : Sink → Quake → Sink) (c : Catalog) (now : Int64) (sink : Sink) :
    List Quake × Catalog × Sink :=
  let (expired, registry, sink) := c.registry.sweep store now sink
  (expired, { c with registry, bus := expired.foldl (fun bus q => bus.publish (.archived q)) c.bus }, sink)

end Catalog

end Tremor
