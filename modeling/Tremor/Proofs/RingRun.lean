import Tremor.Proofs.Doubles
import Tremor.Proofs.RingQueue

/-!
# Runs of a waveform ring

A ring is made with at least one slot; then samples are taken in and the capacity is changed, in any order. Its queue
goes through the same run, and the ring stays sound, so that every slot it reads or writes is there.

- `slotCount_pos` : a ring that can be made has slots
- `Sound.apply`, `Sound.run` : the operations and the runs of a ring are those of its queue
- `run_is_queue` : all that a run does to a ring
-/

namespace Tremor

namespace Ring

/-- What can be done with a ring. -/
inductive Operation (R : Type) where
  | log (time : Int64) (signal : Signal) (levels : Levels) (expand : Bool)
  | resize (seconds : R)

variable {R : Type} [Scalar R]

/-- The ring after an operation; one that fails changes nothing. -/
def apply (r : Ring R) : Operation R → Ring R
  | .log time signal levels expand => r.log time signal levels expand
  | .resize seconds =>
    match r.resize seconds with
    | .ok r' => r'
    | .error _ => r

def run (r : Ring R) (ops : List (Operation R)) : Ring R := ops.foldl apply r

end Ring

/-- The queue after an operation on its ring. -/
def Queue.apply {R : Type} [Scalar R] (q : Queue R) : Ring.Operation R → Queue R
  | .log time signal levels expand =>
    q.log time { ratios := levels.ratios, signal := if q.server then none else some signal } expand
  | .resize seconds =>
    match Ring.slotCount q.sampleRate seconds with
    | .ok n => q.resize n
    | .error _ => q

def Queue.run {R : Type} [Scalar R] (q : Queue R) (ops : List (Ring.Operation R)) : Queue R := ops.foldl Queue.apply q

namespace Ring

/-! ## Runs on doubles -/

/-- A ring that can be made has slots. -/
theorem slotCount_pos {sampleRate seconds : Float} {n : Nat} (h : slotCount sampleRate seconds = .ok n) : 0 < n := by
  unfold slotCount at h
  simp only at h
  split at h
  · cases h
  · rename_i hn
    split at h
    · cases h
      refine Number.truncateNat_pos ?_ fun hlt => hn (Or.inr (Or.inl hlt))
      exact Classical.byContradiction fun hf => hn (Or.inl hf)
    · cases h

/-- A length that gives some slots gives that many. -/
theorem slotCount_eq {sampleRate seconds : Float} {n : Nat}
    (h : ¬ (¬ Scalar.isFinite (Scalar.ceil (seconds * sampleRate)) ∨ Scalar.ceil (seconds * sampleRate) < 1 ∨
      sampleRate ≤ 0)) (hn : Scalar.truncateNat (Scalar.ceil (seconds * sampleRate)) = n) (hmax : n ≤ maxSlots) :
    slotCount sampleRate seconds = .ok n := by
  simp only [slotCount, if_neg h, hn, if_pos hmax]

theorem resize_of_slotCount {R : Type} [Scalar R] {r : Ring R} {seconds : R} {n : Nat}
    (h : slotCount r.sampleRate seconds = .ok n) : r.resize seconds = .ok (r.withSize n) := by
  rw [resize, h]
  rfl

variable {r : Ring Float}

theorem sampleRate_apply (r : Ring Float) (op : Operation Float) : (r.apply op).sampleRate = r.sampleRate := by
  cases op with
  | log time signal levels expand =>
    simp only [apply, log, push]
    split
    · rfl
    · split <;> rfl
  | resize seconds =>
    simp only [apply, resize]
    cases slotCount r.sampleRate seconds <;> rfl

theorem sampleRate_run (r : Ring Float) (ops : List (Operation Float)) : (r.run ops).sampleRate = r.sampleRate := by
  induction ops generalizing r with
  | nil => rfl
  | cons op ops ih => exact (ih (r.apply op)).trans (sampleRate_apply r op)

/-- Every operation keeps a ring sound and does to its queue what it should. -/
theorem Sound.apply (h : r.Sound) (op : Operation Float) :
    (r.apply op).Sound ∧ (r.apply op).queue = r.queue.apply op := by
  cases op with
  | log time signal levels expand =>
    exact ⟨h.log time signal levels expand, h.queue_log time signal levels expand⟩
  | resize seconds =>
    have hrate : r.queue.sampleRate = r.sampleRate := rfl
    simp only [Ring.apply, Queue.apply, hrate]
    cases hc : slotCount r.sampleRate seconds with
    | error e =>
      rw [resize, hc]
      exact ⟨h, rfl⟩
    | ok n =>
      have hn := slotCount_pos hc
      rw [resize_of_slotCount hc]
      refine ⟨sound_withSize r hn, ?_⟩
      rw [queue, h.contents_withSize hn]
      simp [Queue.resize, queue, Ring.withSize]

/-- Every run keeps a ring sound and does to its queue what it should. -/
theorem Sound.run (h : r.Sound) (ops : List (Operation Float)) :
    (r.run ops).Sound ∧ (r.run ops).queue = r.queue.run ops := by
  induction ops generalizing r with
  | nil => exact ⟨h, rfl⟩
  | cons op ops ih =>
    obtain ⟨hs, hq⟩ := h.apply op
    rw [Queue.run, List.foldl_cons, ← hq]
    exact ih hs

/-- Every slot that reading a ring or changing it looks at is there, also when it is grown before a sample is stored. -/
structure InBounds (r : Ring Float) : Prop where
  sound : r.Sound
  held : ∀ slot ∈ r.heldSlots, slot < r.size
  copied : ∀ n, 0 < n → ∀ c ∈ copies r.size (min r.len n) r.next n, c.1 < r.size ∧ c.2 < n
  grown : ∀ n, 0 < n → (r.withSize n).Sound

/-- A sound ring looks at no slot that is not there. -/
theorem Sound.inBounds (h : r.Sound) : r.InBounds where
  sound := h
  held slot hs := by
    rw [heldSlots_eq] at hs
    obtain ⟨k, -, rfl⟩ := List.mem_map.mp hs
    exact h.place_lt k
  copied n hn c hc := by
    obtain ⟨h1, -, h2⟩ := mem_copies h.next_lt (Nat.min_le_right ..) hc
    exact ⟨h1, h2⟩
  grown n hn := sound_withSize r hn

/-- A new ring is sound, and an empty queue. -/
theorem sound_create {sampleRate seconds : Float} {server : Bool} (h : create sampleRate seconds server = .ok r) :
    r.Sound ∧ slotCount sampleRate seconds = .ok r.size ∧
      r.queue = { sampleRate, server, size := r.size, latest := none, items := [] } := by
  unfold create at h
  cases hc : slotCount sampleRate seconds with
  | error e =>
    rw [hc] at h
    cases h
  | ok n =>
    rw [hc] at h
    cases h
    exact ⟨sound_empty sampleRate server (slotCount_pos hc), rfl, rfl⟩

/-- After every run from a new ring, its queue has gone through the same run, and no slot that is not there is looked
at. A sample that is not newer than the newest one changes nothing. A change of the capacity keeps the newest samples
that fit, with their times, and one that fails changes nothing. -/
theorem run_is_queue {sampleRate seconds : Float} {server : Bool} (h : create sampleRate seconds server = .ok r)
    (ops : List (Operation Float)) :
    (r.run ops).queue =
        Queue.run { sampleRate, server, size := r.size, latest := none, items := [] } ops ∧
      (r.run ops).InBounds ∧
      (∀ time signal levels expand, time ≤ (r.run ops).clock →
        (r.run ops).log time signal levels expand = r.run ops) ∧
      (∀ seconds' n, slotCount sampleRate seconds' = .ok n → ∃ r', (r.run ops).resize seconds' = .ok r' ∧
        r'.entries = (r.run ops).entries.drop ((r.run ops).len - min (r.run ops).len n)) ∧
      ∀ seconds' e, slotCount sampleRate seconds' = .error e → (r.run ops).resize seconds' = .error e ∧
        (r.run ops).apply (.resize seconds') = r.run ops := by
  obtain ⟨hs, -, hq⟩ := sound_create h
  obtain ⟨hsound, hqueue⟩ := hs.run ops
  have hrate : (r.run ops).sampleRate = sampleRate := by
    exact (sampleRate_run r ops).trans (congrArg Queue.sampleRate hq)
  refine ⟨hq ▸ hqueue, hsound.inBounds, fun time signal levels expand ht => push_of_le ht _ _ _, ?_, ?_⟩
  · intro seconds' n hn
    rw [← hrate] at hn
    exact ⟨_, resize_of_slotCount hn, hsound.entries_withSize (slotCount_pos hn)⟩
  · intro seconds' e he
    have hr : (r.run ops).resize seconds' = .error e := by
      rw [resize, hrate, he]
      rfl
    exact ⟨hr, by rw [apply, hr]⟩

theorem create_one_slot (server : Bool) : ∃ r : Ring Float, create 1 1 server = .ok r := by
  have hc : slotCount (1 : Float) 1 = .ok 1 := slotCount_eq (by decide +kernel) (by decide +kernel) (by decide)
  rw [create, hc]
  exact ⟨_, rfl⟩

/-- A ring with one slot that takes in two samples, grows, and shrinks again. -/
theorem one_slot_run_is_queue : ∃ r : Ring Float, create 1 1 false = .ok r ∧
    let ops : List (Operation Float) :=
      [.log 1000 ⟨1, 0⟩ ⟨1, 1, 1, 1⟩ false, .log 2000 ⟨2, 0⟩ ⟨1, 1, 1, 1⟩ true, .resize 1]
    let start : Queue Float := { sampleRate := 1, server := false, size := r.size, latest := none, items := [] }
    (r.run ops).queue = start.run ops ∧ (r.run ops).InBounds := by
  obtain ⟨r, hr⟩ := create_one_slot false
  obtain ⟨hq, hb, -⟩ := run_is_queue hr
    [.log 1000 ⟨1, 0⟩ ⟨1, 1, 1, 1⟩ false, .log 2000 ⟨2, 0⟩ ⟨1, 1, 1, 1⟩ true, .resize 1]
  exact ⟨r, hr, hq, hb⟩

/-- The least time of all stands for an empty ring, so that a first sample at that time is dropped. -/
theorem first_sample_dropped : ∃ r : Ring Float, create 1 1 false = .ok r ∧ r.latest = none ∧
    (r.log Int64.minValue ⟨0, 0⟩ ⟨1, 1, 1, 1⟩ false).contents ≠
      r.contents ++ [{ ratios := Levels.ratios ⟨1, 1, 1, 1⟩, signal := some ⟨0, 0⟩ }] := by
  obtain ⟨r, hr⟩ := create_one_slot false
  obtain ⟨-, -, hq⟩ := sound_create hr
  have hl : r.latest = none := congrArg Queue.latest hq
  have ht : Int64.minValue ≤ r.clock := by
    rw [clock, hl]
    exact Int64.le_refl _
  refine ⟨r, hr, hl, ?_⟩
  rw [log, push_of_le ht]
  simp

end Ring

end Tremor
