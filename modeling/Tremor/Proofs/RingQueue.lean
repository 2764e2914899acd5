import Tremor.Proofs.RingSlots

/-!
# A waveform ring is a queue

Read from the oldest slot on, a ring is a list that samples are appended to and that loses its head when it is full.
`Queue` is that list with its capacity and the time of its newest sample.

- `Sound.store`, `sound_withSize` : the two changes of a ring keep it sound
- `Sound.contents_store`, `Sound.contents_withSize` : what they do to the samples
- `Sound.entries_withSize` : a change of the capacity keeps the times of the samples too
- `Sound.queue_push` : taking a sample in is an operation on the queue
-/

namespace Tremor

/-- What a slot holds apart from its time; there is no signal on a server. -/
structure Sample where
  ratios : Ratios
  signal : Option Signal

/-- The samples that a ring holds, oldest first. -/
structure Queue (R : Type) where
  sampleRate : R
  server : Bool
  size : Nat
  latest : Option Int64
  items : List Sample

namespace Queue

variable {R : Type}

/-- The newest time, below every other one while nothing was accepted. -/
def clock (q : Queue R) : Int64 := q.latest.getD Int64.minValue

/-- Appends a sample, unless it is not newer than the newest one. A full queue doubles its size or loses its head. -/
def log (q : Queue R) (time : Int64) (sample : Sample) (expand : Bool) : Queue R :=
  if time ≤ q.clock then q
  else if q.items.length = q.size then
    if expand then { q with size := 2 * q.size, latest := some time, items := q.items ++ [sample] }
    else { q with latest := some time, items := q.items.drop 1 ++ [sample] }
  else { q with latest := some time, items := q.items ++ [sample] }

/-- Keeps the newest samples that fit. -/
def resize (q : Queue R) (n : Nat) : Queue R :=
  { q with size := n, items := q.items.drop (q.items.length - min q.items.length n) }

end Queue

namespace Ring

variable {R : Type} {r : Ring R}

/-! ## Samples -/

def sampleAt (r : Ring R) (slot : Nat) : Sample := { ratios := r.ratios[slot]!, signal := r.signals[slot]? }

/-- The held samples, oldest first. -/
def contents (r : Ring R) : List Sample := r.heldSlots.map r.sampleAt

@[simp] theorem length_contents (r : Ring R) : r.contents.length = r.len := by
  simp [contents]

theorem getElem_contents {k : Nat} (hk : k < r.contents.length) : r.contents[k] = r.sampleAt (r.place k) := by
  simp [contents, heldSlots_eq]

/-- A ring as a queue. -/
def queue (r : Ring R) : Queue R :=
  { sampleRate := r.sampleRate, server := r.server, size := r.size, latest := r.latest, items := r.contents }

/-- The number of samples that a ring loses when one is stored. -/
def overwritten (r : Ring R) : Nat := if r.next = r.oldest ∧ r.latest.isSome then 1 else 0

/-- A ring loses a sample when it is full. -/
theorem Sound.overwritten_eq (h : r.Sound) : r.overwritten = if r.len = r.size then 1 else 0 := by
  have hpos := h.size_pos
  have hn := h.next_lt
  have ho := h.oldest_lt
  unfold overwritten
  rcases len_cases h with ⟨hl, -, hlen⟩ | ⟨hl, ⟨he, hlen⟩ | ⟨hlt, hlen⟩ | ⟨hlt, hlen⟩⟩
  · rw [if_neg (by simp [hl]), if_neg (by omega)]
  · rw [if_pos ⟨he, hl⟩, if_pos hlen]
  · rw [if_neg (by omega), if_neg (by omega)]
  · rw [if_neg (by omega), if_neg (by omega)]

/-! ## Changing the capacity -/

/-- A change of the capacity leaves a sound ring. -/
theorem sound_withSize (r : Ring R) {n : Nat} (hn : 0 < n) : (r.withSize n).Sound where
  size_pos := hn
  next_lt := hn
  oldest_lt := Nat.mod_lt _ hn
  size_ratios := by
    simp [Ring.withSize]
  size_signals := by
    by_cases hs : r.server <;> simp [Ring.withSize, hs]
  next_eq := by
    intro hl
    have hlen : r.len = 0 := by
      have hl : r.latest = none := hl
      simp [len, isEmpty, hl]
    simp [Ring.withSize, hlen]

theorem Sound.len_withSize (h : r.Sound) {n : Nat} (hn : 0 < n) : (r.withSize n).len = min r.len n := by
  have hpos := h.size_pos
  have ho := h.oldest_lt
  have holdest : (r.withSize n).oldest = (n - min r.len n) % n := rfl
  have hnext : (r.withSize n).next = 0 := rfl
  have hsize : (r.withSize n).size = n := rfl
  have hlatest : (r.withSize n).latest = r.latest := rfl
  rcases len_cases h with ⟨hl, -, hlen⟩ | ⟨hl, hlen⟩
  · rw [hlen, Nat.zero_min, len, isEmpty, hlatest, hl]
    rfl
  · have hheld : 0 < r.len := by omega
    rw [Nat.mod_eq_of_lt (by omega)] at holdest
    rcases len_cases (sound_withSize r hn) with ⟨hl', -⟩ | ⟨-, hlen'⟩
    · rw [hlatest.symm.trans hl'] at hl
      cases hl
    · omega

theorem place_withSize (r : Ring R) {n k : Nat} (hk : k < min r.len n) :
    (r.withSize n).place k = n - min r.len n + k := by
  simp only [place, Ring.withSize]
  rw [Nat.mod_add_mod, Nat.mod_eq_of_lt (by omega)]

/-- The places of the newest samples lie before the next slot. -/
theorem Sound.place_newest (h : r.Sound) {count k : Nat} (hc : count ≤ r.len) (hk : k < count) :
    r.place (r.len - count + k) = (r.next + r.size - count + k) % r.size := by
  have hn := h.next_lt
  have ho := h.oldest_lt
  have hle := len_le_size h.size_pos
  rw [h.place_eq (by omega), mod_eq_of_lt_two_mul (by omega)]
  rcases len_cases h with ⟨-, he, hl⟩ | ⟨-, ⟨he, hl⟩ | ⟨hlt, hl⟩ | ⟨hlt, hl⟩⟩ <;> split <;> split <;> omega

/-- A change of the capacity keeps what the slots of the newest samples hold. -/
theorem Sound.sampleAt_withSize (h : r.Sound) {n k : Nat} (hk : k < min r.len n) :
    (r.withSize n).sampleAt ((r.withSize n).place k) = r.sampleAt (r.place (r.len - min r.len n + k)) := by
  have hle := len_le_size h.size_pos
  have hsource : (r.next + r.size - min r.len n + k) % r.size < r.size := Nat.mod_lt _ h.size_pos
  rw [place_withSize r hk, h.place_newest (Nat.min_le_left ..) hk]
  simp only [sampleAt, Ring.withSize, Sample.mk.injEq]
  have hcopy : ∀ {α : Type} [Inhabited α] (old : Array α) (x : α),
      (copySlots old (Array.replicate n x) (copies r.size (min r.len n) r.next n))[n - min r.len n + k]! =
        old[(r.next + r.size - min r.len n + k) % r.size]! := fun old x =>
    getElem_copySlots old _ h.next_lt (by omega) (Nat.min_le_right ..) (by simp) hk
  refine ⟨hcopy r.ratios _, ?_⟩
  have hsignals := h.size_signals
  cases hs : r.server with
  | true =>
    rw [hs, if_pos rfl] at hsignals
    simp [Array.eq_empty_of_size_eq_zero hsignals]
  | false =>
    rw [hs, if_neg Bool.false_ne_true] at hsignals
    have hsig := hcopy r.signals ⟨0, 0⟩
    rw [getElem!_pos _ _ (by simp; omega), getElem!_pos _ _ (hsignals ▸ hsource)] at hsig
    rw [if_neg Bool.false_ne_true, Array.getElem?_eq_getElem (by simp; omega),
      Array.getElem?_eq_getElem (hsignals ▸ hsource), hsig]

/-- The samples after a change of the capacity: the newest ones that fit. -/
theorem Sound.contents_withSize (h : r.Sound) {n : Nat} (hn : 0 < n) :
    (r.withSize n).contents = r.contents.drop (r.len - min r.len n) := by
  have hlen := h.len_withSize hn
  refine List.ext_getElem (by simp [hlen]; omega) fun k hk hk' => ?_
  rw [length_contents, hlen] at hk
  rw [getElem_contents, h.sampleAt_withSize hk, List.getElem_drop, getElem_contents]

/-! ## Storing a sample -/

variable [Scalar R]

/-- A new ring is sound. -/
theorem sound_empty (sampleRate : R) (server : Bool) {n : Nat} (hn : 0 < n) : (empty sampleRate server n).Sound where
  size_pos := hn
  next_lt := hn
  oldest_lt := hn
  size_ratios := by simp [empty]
  size_signals := by cases server <;> simp [empty]
  next_eq _ := rfl

/-- Storing a sample keeps a ring sound. -/
theorem Sound.store (h : r.Sound) (time : Int64) (signal : Signal) (ratios : Ratios) :
    (r.store time signal ratios).Sound where
  size_pos := h.size_pos
  next_lt := Nat.mod_lt _ h.size_pos
  oldest_lt := by
    simp only [Ring.store]
    split
    · exact Nat.mod_lt _ h.size_pos
    · exact h.oldest_lt
  size_ratios := by
    simp only [Ring.store, Array.size_set!]
    exact h.size_ratios
  size_signals := by
    simp only [Ring.store]
    split
    · exact h.size_signals
    · rw [Array.size_set!]
      exact h.size_signals
  next_eq := by
    intro hn
    cases hn

theorem Sound.next_store (h : r.Sound) (time : Int64) (signal : Signal) (ratios : Ratios) :
    (r.store time signal ratios).next = if r.next + 1 < r.size then r.next + 1 else 0 := by
  have hn := h.next_lt
  simp only [Ring.store, mod_eq_of_lt_two_mul (by omega : r.next + 1 < 2 * r.size)]
  split <;> omega

theorem place_store (r : Ring R) (time : Int64) (signal : Signal) (ratios : Ratios) (k : Nat) :
    (r.store time signal ratios).place k = r.place (r.overwritten + k) := by
  simp only [place, Ring.store, overwritten]
  split
  · rw [Nat.mod_add_mod, Nat.add_assoc]
  · rw [Nat.zero_add]

theorem Sound.len_store (h : r.Sound) (time : Int64) (signal : Signal) (ratios : Ratios) :
    (r.store time signal ratios).len = r.len - r.overwritten + 1 := by
  have hpos := h.size_pos
  have hn := h.next_lt
  have ho := h.oldest_lt
  have hnext := h.next_store time signal ratios
  have holdest := place_store r time signal ratios 0
  have hsize : (r.store time signal ratios).size = r.size := rfl
  rw [place, Nat.add_zero, Nat.mod_eq_of_lt (h.store time signal ratios).oldest_lt, h.place_eq (by
    rw [overwritten]; split <;> omega), h.overwritten_eq] at holdest
  rw [h.overwritten_eq]
  rcases len_cases (h.store time signal ratios) with ⟨hl, -⟩ | ⟨-, hs⟩
  · cases hl
  · rcases len_cases h with ⟨hl, he, hlen⟩ | ⟨hl, ⟨he, hlen⟩ | ⟨hlt, hlen⟩ | ⟨hlt, hlen⟩⟩ <;> grind

theorem sampleAt_store_of_ne {slot : Nat} (hs : slot ≠ r.next) (time : Int64) (signal : Signal) (ratios : Ratios) :
    (r.store time signal ratios).sampleAt slot = r.sampleAt slot := by
  simp only [sampleAt, Ring.store, Sample.mk.injEq]
  refine ⟨by simp [Array.getElem!_eq_getD, Array.getD_eq_getD_getElem?, hs.symm], ?_⟩
  split
  · rfl
  · simp [hs.symm]

theorem Sound.sampleAt_store (h : r.Sound) (time : Int64) (signal : Signal) (ratios : Ratios) :
    (r.store time signal ratios).sampleAt r.next =
      { ratios, signal := if r.server then none else some signal } := by
  have hratios : r.next < r.ratios.size := h.size_ratios ▸ h.next_lt
  have hsignals := h.size_signals
  simp only [sampleAt, Ring.store, Sample.mk.injEq]
  refine ⟨by simp [hratios], ?_⟩
  cases hs : r.server with
  | true =>
    rw [hs, if_pos rfl] at hsignals
    simp [Array.eq_empty_of_size_eq_zero hsignals]
  | false =>
    rw [hs, if_neg Bool.false_ne_true] at hsignals
    simp [hsignals, h.next_lt]

/-- The samples after one was stored: a full ring loses its oldest one. -/
theorem Sound.contents_store (h : r.Sound) (time : Int64) (signal : Signal) (ratios : Ratios) :
    (r.store time signal ratios).contents =
      r.contents.drop r.overwritten ++ [{ ratios, signal := if r.server then none else some signal }] := by
  have hlen := h.len_store time signal ratios
  have hfull := h.overwritten_eq
  have hle := len_le_size h.size_pos
  refine List.ext_getElem (by simp [hlen]) fun k hk hk' => ?_
  rw [length_contents, hlen] at hk
  rw [getElem_contents, place_store]
  -- all places but the last hold what they held before
  rcases Nat.lt_succ_iff_lt_or_eq.mp hk with hlt | rfl
  · have hplace : r.place (r.overwritten + k) ≠ r.next := by
      refine h.place_ne_next (by omega) ?_
      split at hfull
      · exact Or.inl (by omega)
      · exact Or.inr (by assumption)
    rw [List.getElem_append_left (by simpa using hlt), List.getElem_drop, getElem_contents,
      sampleAt_store_of_ne hplace]
  · have hplace : r.overwritten + (r.len - r.overwritten) = r.len := by
      have hpos := h.size_pos
      split at hfull <;> omega
    rw [List.getElem_append_right (by simp), hplace, h.place_len, h.sampleAt_store]
    simp

/-! ## Times -/

theorem getElem_entries {k : Nat} (hk : k < r.entries.length) :
    r.entries[k] =
      { time := r.time (r.place k), ratios := (r.sampleAt (r.place k)).ratios
        signal := (r.sampleAt (r.place k)).signal.getD ⟨0, 0⟩ } := by
  simp [entries, heldSlots_eq, sampleAt]

/-- A change of the capacity keeps the newest samples that fit, with their times. -/
theorem Sound.entries_withSize (h : r.Sound) {n : Nat} (hn : 0 < n) :
    (r.withSize n).entries = r.entries.drop (r.len - min r.len n) := by
  have hlen := h.len_withSize hn
  refine List.ext_getElem (by simp [entries, hlen]; omega) fun k hk hk' => ?_
  have hk : k < min r.len n := by simpa [entries, hlen] using hk
  have htime : (r.withSize n).time ((r.withSize n).place k) = r.time (r.place (r.len - min r.len n + k)) := by
    rw [(sound_withSize r hn).time_place (by omega), h.time_place (by omega), hlen]
    have hbehind : ((min r.len n : Nat) : Int) - 1 - k = r.len - 1 - (r.len - min r.len n + k : Nat) := by omega
    rw [hbehind]
    rfl
  rw [List.getElem_drop, getElem_entries, getElem_entries, h.sampleAt_withSize hk, htime]

/-! ## Operations -/

/-- Taking a sample in keeps a ring sound. -/
theorem Sound.push (h : r.Sound) (time : Int64) (signal : Signal) (ratios : Ratios) (expand : Bool) :
    (r.push time signal ratios expand).Sound := by
  have hpos := h.size_pos
  unfold Ring.push
  split
  · exact h
  · split
    · exact (sound_withSize r (by omega)).store time signal ratios
    · exact h.store time signal ratios

theorem Sound.log (h : r.Sound) (time : Int64) (signal : Signal) (levels : Levels) (expand : Bool) :
    (r.log time signal levels expand).Sound :=
  h.push time signal levels.ratios expand

/-- Storing a sample appends it to the queue; a full one loses its head. -/
theorem Sound.queue_store (h : r.Sound) (time : Int64) (signal : Signal) (ratios : Ratios) :
    (r.store time signal ratios).queue =
      { r.queue with
        latest := some time
        items := r.contents.drop (if r.len = r.size then 1 else 0) ++
          [{ ratios, signal := if r.server then none else some signal }] } := by
  rw [queue, h.contents_store, h.overwritten_eq]
  rfl

/-- Taking a sample in is an operation on the queue. -/
theorem Sound.queue_push (h : r.Sound) (time : Int64) (signal : Signal) (ratios : Ratios) (expand : Bool) :
    (r.push time signal ratios expand).queue =
      r.queue.log time { ratios, signal := if r.server then none else some signal } expand := by
  have hpos := h.size_pos
  have hfull := h.full_iff
  have hclock : r.queue.clock = r.clock := rfl
  have hlength : r.queue.items.length = r.queue.size ↔ r.len = r.size := by
    rw [queue, length_contents]
  unfold Ring.push Queue.log
  rw [hclock, Bool.and_assoc]
  by_cases ht : time ≤ r.clock
  · rw [if_pos ht, if_pos ht]
  · rw [if_neg ht, if_neg ht]
    by_cases hl : r.len = r.size
    · rw [if_pos (hlength.mpr hl), hfull.mpr hl, Bool.and_true]
      cases expand with
      | false =>
        rw [if_neg Bool.false_ne_true, if_neg Bool.false_ne_true, h.queue_store, if_pos hl]
        rfl
      | true =>
        -- the grown ring is not full, so that nothing is lost
        have hgrown : (r.withSize (r.size * 2)).len ≠ (r.withSize (r.size * 2)).size := by
          rw [h.len_withSize (by omega), size_withSize]
          omega
        have hkept : r.len - min r.len (r.size * 2) = 0 := by omega
        rw [if_pos rfl, if_pos rfl, (sound_withSize r (by omega)).queue_store, if_neg hgrown,
          h.contents_withSize (by omega), hkept, Nat.mul_comm]
        rfl
    · have hfull' : (!r.isEmpty && r.next == r.oldest) = false := Bool.eq_false_iff.mpr (mt hfull.mp hl)
      rw [if_neg (mt hlength.mp hl), hfull', Bool.and_false, if_neg Bool.false_ne_true, h.queue_store, if_neg hl]
      rfl

theorem Sound.queue_log (h : r.Sound) (time : Int64) (signal : Signal) (levels : Levels) (expand : Bool) :
    (r.log time signal levels expand).queue =
      r.queue.log time { ratios := levels.ratios, signal := if r.server then none else some signal } expand :=
  h.queue_push time signal levels.ratios expand

end Ring

end Tremor
