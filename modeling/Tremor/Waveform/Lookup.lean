import Tremor.Waveform.Ring

/-!
# Reading a waveform ring

- `Ring.time` : the reconstructed time of a slot
- `Ring.closest` : the first held slot at or after a time
- `bisect_le`, `late_bisect`, `early_bisect` : halving stays in its range and ends where it should
- `Ring.ratiosAt`, `Ring.signalAt`, `Ring.entryAt` : what a slot holds
- `Ring.entries` : everything held, oldest first
-/

namespace Tremor

structure Entry where
  time : Int64
  ratios : Ratios
  signal : Signal

namespace Ring

/-! ## Halving -/

/-- Halves the range between a place that is too early and one that is not, until they are neighbours. -/
def bisect (late : Nat → Bool) (low high : Nat) : Nat :=
  if high - low ≤ 1 then high
  else
    let mid := (low + high) / 2
    if late mid then bisect late low mid else bisect late mid high
  termination_by high - low

/-- Halving ends beyond a place that is too early. -/
theorem lt_bisect (late : Nat → Bool) {low high : Nat} (h : low < high) : low < bisect late low high := by
  fun_induction bisect late low high with
  | case1 => exact h
  | case2 low high hd mid hm ih => exact ih (by omega)
  | case3 low high hd mid hm ih => exact Nat.lt_trans (by omega) (ih (by omega))

/-- Halving does not leave the range. -/
theorem bisect_le (late : Nat → Bool) (low high : Nat) : bisect late low high ≤ high := by
  fun_induction bisect late low high with
  | case1 => exact Nat.le_refl _
  | case2 low high hd mid hm ih => exact Nat.le_trans ih (by omega)
  | case3 low high hd mid hm ih => exact ih

/-- Halving ends at a place that is not too early. -/
theorem late_bisect {late : Nat → Bool} {low high : Nat} (h : late high = true) :
    late (bisect late low high) = true := by
  fun_induction bisect late low high with
  | case1 => exact h
  | case2 low high hd mid hm ih => exact ih hm
  | case3 low high hd mid hm ih => exact ih h

/-- Halving ends right behind a place that is too early. -/
theorem early_bisect {late : Nat → Bool} {low high : Nat} (h : late low = false) (hlt : low < high) :
    late (bisect late low high - 1) = false := by
  fun_induction bisect late low high with
  | case1 low high hd =>
    have hlow : high - 1 = low := by omega
    rw [hlow]
    exact h
  | case2 low high hd mid hm ih => exact ih h (by omega)
  | case3 low high hd mid hm ih => exact ih (Bool.eq_false_iff.mpr hm) (by omega)

/-! ## Times and contents -/

variable {R : Type} [Scalar R]

/-- `a - b`, clamped to the range of `Int64`. -/
def saturatingSub (a b : Int64) : Int64 := Int64.ofIntClamp (a.toInt - b.toInt)

/-- The time of a slot, as many smoothed intervals before the newest time as the slot lies behind the newest one. A
slot beyond the newest counts as one full turn older. -/
def time (r : Ring R) (slot : Nat) : Int64 :=
  let turned : Int := if r.newest < slot then slot - r.size else slot
  saturatingSub r.clock (Scalar.truncate (r.interval * Scalar.ofInt64 (Int64.ofInt (r.newest - turned))))

/-- The earliest held slot whose time is not before `time`, or the newest slot when there is none. -/
def closest (r : Ring R) (time : Int64) : Except (RingError R) Nat :=
  if r.isEmpty then .error .emptyRing
  else
    let size := r.size
    let low := r.oldest
    let high := if r.newest < low then r.newest + size else r.newest
    let late (place : Nat) : Bool := decide (time ≤ r.time (place % size))
    if late low then .ok (low % size)
    else if !late high then .ok (high % size)
    else .ok (bisect late low high % size)

def ratiosAt (r : Ring R) (slot : Nat) : Except (RingError R) Ratios :=
  match r.ratios[slot]? with
  | some ratios => .ok ratios
  | none => .error (.slotOutOfRange slot r.size)

/-- The signal in a slot, which a server does not keep. -/
def signalAt (r : Ring R) (slot : Nat) : Except (RingError R) Signal :=
  if r.server then .error .unsupportedInServerMode
  else match r.signals[slot]? with
    | some signal => .ok signal
    | none => .error (.slotOutOfRange slot r.size)

def entryAt (r : Ring R) (slot : Nat) : Except (RingError R) Entry := do
  let signal ← r.signalAt slot
  let ratios ← r.ratiosAt slot
  return { time := r.time slot, ratios, signal }

/-- What the held slots hold, oldest first; the signals of a server are zero. -/
def entries (r : Ring R) : List Entry :=
  r.heldSlots.map fun slot =>
    { time := r.time slot, ratios := r.ratios[slot]!, signal := r.signals.getD slot ⟨0, 0⟩ }

end Ring

end Tremor
