import Tremor.Quake.Basic

/-!
# Notices about quakes

A notice is published in two halves: an event with the next number is made of it, and the event is sent. Publishers run
side by side and nothing holds the halves together, so another publisher can come in between. Receivers see what is sent
after they subscribed, in the order in which it is sent. Only so many of the newest events are kept; a receiver that has
fallen behind is told once how many it missed and goes on with the oldest event that is kept.

- `Bus.number`, `Bus.send` : the two halves of publishing
- `Bus.publish`, `Bus.subscribe` : the two ends
- `Bus.receive` : the next delivery to a receiver
- `publish_eq` : publishing without another publisher in between sends the next event
-/

namespace Tremor

/-- What is told about a quake. -/
inductive Notice where
  | created (quake : Quake)
  | updated (quake : Quake)
  | removed (quake : QuakeId) (cluster : ClusterId)
  | archived (quake : Quake)

/-- A notice with the number under which it is published. -/
structure Event where
  id : Nat
  notice : Notice

/-- What a receiver gets: an event, or how many it missed. -/
inductive Delivery where
  | event (e : Event)
  | lagged (missed : Nat)

/-- The number of the next event, the events that are numbered and not yet sent (the last one first), those that are
sent, how many of them are kept, and for each receiver how many were sent before the one that it expects next. -/
structure Bus where
  capacity : Nat
  counter : Nat := 0
  pending : List Event := []
  sent : Array Event := #[]
  receivers : Array Nat := #[]

namespace Bus

/-- The least power of two that is not below `n`, found by doubling. -/
def roundUp (n : Nat) : Nat → Nat → Nat
  | 0, power => power
  | fuel + 1, power => if n ≤ power then power else roundUp n fuel (2 * power)

/-- A bus that keeps `capacity` notices, rounded up to a power of two. -/
def create (capacity : Nat) : Bus := { capacity := roundUp capacity capacity 1 }

/-- The number of notices that were given to the bus. -/
def published (b : Bus) : Nat := b.counter

/-- The notices that were sent. -/
def notices (b : Bus) : Array Notice := b.sent.map (·.notice)

/-- Makes the next event. -/
def number (b : Bus) (n : Notice) : Bus := { b with counter := b.counter + 1, pending := ⟨b.counter, n⟩ :: b.pending }

/-- Sends the event with a number, whether or not anybody receives it. -/
def send (b : Bus) (id : Nat) : Bus :=
  match b.pending.find? (·.id == id) with
  | none => b
  | some e => { b with pending := b.pending.eraseP (·.id == id), sent := b.sent.push e }

/-- Both halves of publishing, one after the other. -/
def publish (b : Bus) (n : Notice) : Bus := (b.number n).send b.counter

/-- Adds a receiver; it is known by its position. -/
def subscribe (b : Bus) : Nat × Bus := (b.receivers.size, { b with receivers := b.receivers.push b.sent.size })

/-- How many of the events that were sent are no longer kept. -/
def oldest (b : Bus) : Nat := b.sent.size - b.capacity

/-- The next delivery to a receiver, if something waits for it. -/
def receive (b : Bus) (receiver : Nat) : Option Delivery × Bus :=
  match b.receivers[receiver]? with
  | none => (none, b)
  | some next =>
    if next < b.oldest then
      (some (.lagged (b.oldest - next)), { b with receivers := b.receivers.set! receiver b.oldest })
    else match b.sent[next]? with
      | none => (none, b)
      | some e => (some (.event e), { b with receivers := b.receivers.set! receiver (next + 1) })

/-- Receives until nothing waits, at most `limit` times. -/
def drainWithin (receiver : Nat) : Nat → Bus → List Delivery × Bus
  | 0, b => ([], b)
  | limit + 1, b =>
    match b.receive receiver with
    | (none, b) => ([], b)
    | (some d, b) =>
      let (rest, b) := drainWithin receiver limit b
      (d :: rest, b)

/-- Everything that waits for a receiver; besides the events that can only be one gap. -/
def drain (b : Bus) (receiver : Nat) : List Delivery × Bus := drainWithin receiver (b.sent.size + 1) b

/-! ## What the two ends change -/

/-- The event that was just numbered is the one that is sent, also where others are still pending. -/
theorem publish_eq (b : Bus) (n : Notice) :
    b.publish n = { b with counter := b.counter + 1, sent := b.sent.push ⟨b.counter, n⟩ } := by
  simp [publish, number, send]

@[simp] theorem notices_publish (b : Bus) (n : Notice) : (b.publish n).notices = b.notices.push n := by
  simp [publish_eq, notices]

end Bus

end Tremor
