import Tremor.Number.Scalar
import Tremor.Waveform.Error

/-!
# Waveform rings

A ring keeps the newest samples of a station. A slot holds the ratios of the running averages and, unless the ring
serves a server, the raw and the filtered signal. Slot times are not stored: `Ring.time` computes them from the time of
the newest sample and a smoothed sample interval.

- `Ring.create` : an empty ring for a sample rate and a length in seconds
- `Ring.push`, `Ring.log` : takes a sample in, unless it is not newer than the newest one
- `Ring.resize` : changes the capacity and keeps the newest samples
- `Ring.heldSlots` : the slots that hold samples, oldest first
- `size_withSize`, `size_store`, `len_le_size` : what each operation does to the capacity, and that it is kept
-/

namespace Tremor

/-- The running averages of the filtered signal at one instant. -/
structure Levels where
  short : Float32
  medium : Float32
  long : Float32
  special : Float32

/-- The short, medium and special average, each divided by the long one. -/
structure Ratios where
  ratio : Float32
  medium : Float32
  special : Float32
  deriving Inhabited

def Levels.ratios (l : Levels) : Ratios :=
  { ratio := l.short / l.long, medium := l.medium / l.long, special := l.special / l.long }

/-- A sample as it was recorded and with its running mean removed. -/
structure Signal where
  raw : Int32
  filtered : Float32
  deriving Inhabited

/-- A ring of samples; `R` is the number type of its sample clock. -/
structure Ring (R : Type) where
  /-- Samples per second. -/
  sampleRate : R
  /-- Whether the ring leaves out the signals. -/
  server : Bool
  /-- The smoothed interval between two samples, ms. -/
  interval : R
  /-- The time of the newest sample, if any was accepted. -/
  latest : Option Int64
  /-- The capacity in slots. -/
  size : Nat
  /-- The ratios of every slot. -/
  ratios : Array Ratios
  /-- The signal of every slot; none on a server. -/
  signals : Array Signal
  /-- The slot that the next sample goes to. -/
  next : Nat
  /-- The slot of the oldest sample. -/
  oldest : Nat

namespace Ring

variable {R : Type} [Scalar R]

/-- The interval between samples that the rate promises, ms. -/
def nominalGap (sampleRate : R) : R := 1000 / sampleRate

/-- Gaps that differ from the nominal one by less than this share of it move the smoothed interval. -/
def gapTolerance : R := 0.05

/-- An array has fewer than `2 ^ 61` slots: they take four bytes each, and all bytes are counted by a signed word. -/
def maxSlots : Nat := 0x1FFFFFFFFFFFFFFF

/-- How many slots hold `seconds` of samples. -/
def slotCount (sampleRate seconds : R) : Except (RingError R) Nat :=
  let slots := Scalar.ceil (seconds * sampleRate)
  if ¬ Scalar.isFinite slots ∨ slots < 1 ∨ sampleRate ≤ 0 then .error (.invalidConfiguration sampleRate seconds)
  else
    let n := Scalar.truncateNat slots
    if n ≤ maxSlots then .ok n else .error (.capacityOverflow n)

def empty (sampleRate : R) (server : Bool) (size : Nat) : Ring R :=
  { sampleRate, server
    interval := nominalGap sampleRate
    latest := none
    size
    ratios := Array.replicate size ⟨0, 0, 0⟩
    signals := if server then #[] else Array.replicate size ⟨0, 0⟩
    next := 0
    oldest := 0 }

/-- An empty ring that holds `seconds` of samples. -/
def create (sampleRate seconds : R) (server : Bool) : Except (RingError R) (Ring R) := do
  return empty sampleRate server (← slotCount sampleRate seconds)

def isEmpty (r : Ring R) : Bool := r.latest.isNone

/-- The number of slots that hold samples. -/
def len (r : Ring R) : Nat :=
  if r.isEmpty then 0
  else if r.next = r.oldest then r.size
  else (r.next + r.size - r.oldest) % r.size

def before (size slot : Nat) : Nat := if slot = 0 then size - 1 else slot - 1

def newest (r : Ring R) : Nat := before r.size r.next

/-- The slots that hold samples, oldest first. -/
def heldSlots (r : Ring R) : List Nat :=
  (List.range r.len).map fun k => (r.oldest + k) % r.size

/-- The slots that are copied when the capacity changes, with the slots that they are copied to: backwards from the ones
before `source` and before `target`. -/
def copies (size : Nat) : (count source target : Nat) → List (Nat × Nat)
  | 0, _, _ => []
  | count + 1, source, target =>
    (before size source, target - 1) :: copies size count (before size source) (target - 1)

/-- Copies slots of `old` to slots of `new`. -/
def copySlots {α : Type} [Inhabited α] (old new : Array α) (slots : List (Nat × Nat)) : Array α :=
  slots.foldl (fun new (source, target) => new.set! target old[source]!) new

/-- The ring with `newSize` slots: the newest samples that fit are copied to the end of them. -/
def withSize (r : Ring R) (newSize : Nat) : Ring R :=
  let count := min r.len newSize
  let slots := copies r.size count r.next newSize
  { r with
    size := newSize
    ratios := copySlots r.ratios (Array.replicate newSize ⟨0, 0, 0⟩) slots
    signals := if r.server then #[] else copySlots r.signals (Array.replicate newSize ⟨0, 0⟩) slots
    next := 0
    oldest := (newSize - count) % newSize }

/-- Changes the capacity to `seconds` of samples. -/
def resize (r : Ring R) (seconds : R) : Except (RingError R) (Ring R) := do
  return r.withSize (← slotCount r.sampleRate seconds)

/-- The smoothed interval after a sample that came `gap` after the one before. -/
def smoothed (r : Ring R) (gap : R) : R :=
  let nominal := nominalGap r.sampleRate
  if Scalar.abs (gap - nominal) / nominal < gapTolerance then
    r.interval - (r.interval - gap) / (r.sampleRate * 200)
  else r.interval

/-- The newest time, below every other one while the ring is empty. -/
def clock (r : Ring R) : Int64 := r.latest.getD Int64.minValue

/-- Writes a sample to the next slot; a full ring loses its oldest one. -/
def store (r : Ring R) (time : Int64) (signal : Signal) (ratios : Ratios) : Ring R :=
  let interval := match r.latest with
    | some before => r.smoothed (Scalar.ofInt64 (time - before))
    | none => r.interval
  let full := r.next = r.oldest ∧ r.latest.isSome
  let size := r.size
  { r with
    interval
    latest := some time
    ratios := r.ratios.set! r.next ratios
    signals := if r.server then r.signals else r.signals.set! r.next signal
    next := (r.next + 1) % size
    oldest := if full then (r.oldest + 1) % size else r.oldest }

/-- Takes a sample in. One that is not newer than the newest is dropped. A full ring first doubles its capacity when
`expand` is set. -/
def push (r : Ring R) (time : Int64) (signal : Signal) (ratios : Ratios) (expand : Bool) : Ring R :=
  if time ≤ r.clock then r
  else if expand && !r.isEmpty && r.next == r.oldest then
    (r.withSize (r.size * 2)).store time signal ratios
  else r.store time signal ratios

/-- Takes a sample in with the ratios of its running averages. -/
def log (r : Ring R) (time : Int64) (signal : Signal) (levels : Levels) (expand : Bool) : Ring R :=
  r.push time signal levels.ratios expand

end Ring

/-! ## Sizes -/

namespace Ring

variable {R : Type}

@[simp] theorem length_heldSlots (r : Ring R) : r.heldSlots.length = r.len := by
  simp [heldSlots]

@[simp] theorem size_withSize (r : Ring R) (n : Nat) : (r.withSize n).size = n := rfl

/-- A ring holds no more samples than it has slots. -/
theorem len_le_size {r : Ring R} (h : 0 < r.size) : r.len ≤ r.size := by
  unfold len
  split
  · exact Nat.zero_le _
  · split
    · exact Nat.le_refl _
    · exact Nat.le_of_lt (Nat.mod_lt _ h)

variable [Scalar R]

@[simp] theorem size_empty (sampleRate : R) (server : Bool) (n : Nat) : (empty sampleRate server n).size = n := rfl

@[simp] theorem size_store (r : Ring R) (time : Int64) (signal : Signal) (ratios : Ratios) :
    (r.store time signal ratios).size = r.size := rfl

/-- A sample that is not newer than the newest one changes nothing. -/
theorem push_of_le {r : Ring R} {time : Int64} (h : time ≤ r.clock) (signal : Signal) (ratios : Ratios)
    (expand : Bool) : r.push time signal ratios expand = r := by
  simp [push, h]

end Ring

end Tremor
