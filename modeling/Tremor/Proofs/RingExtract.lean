import Mathlib.Data.List.TakeWhile
import Tremor.Proofs.RingLookup

/-!
# Extracting a stretch of a waveform ring

Extracting walks from the slot that the look-up finds to the newest one, stops at the first sample that is too late, and
offers the others to a new ring, which grows as it needs to. So nothing is lost on the way but what the new ring takes
for a sample of the past; when the times of the source rise, there is no such sample, and the walk meets all samples of
the stretch.

- `copyRange_place` : the walk offers the slots of a stretch, one after another
- `Queue.foldl_log` : a queue that grows accepts the samples that are newer than those before
- `Sound.exists_offered` : the slots that extracting offers to a new ring
- `extract_keeps` : with rising times, exactly the samples of the stretch are extracted
-/

namespace Tremor

/-- Of some slots, those that are accepted one after another by a clock that only goes forwards. -/
def newer (time : Nat → Int64) : (clock : Int64) → List Nat → List Nat
  | _, [] => []
  | clock, slot :: slots =>
    if time slot ≤ clock then newer time clock slots else slot :: newer time (time slot) slots

theorem newer_sublist (time : Nat → Int64) (clock : Int64) (slots : List Nat) :
    (newer time clock slots).Sublist slots := by
  induction slots generalizing clock with
  | nil => exact .slnil
  | cons slot slots ih =>
    rw [newer]
    split
    · exact (ih clock).cons slot
    · exact (ih (time slot)).cons_cons slot

/-- The times of accepted slots rise above the clock. -/
theorem newer_rising (time : Nat → Int64) (clock : Int64) (slots : List Nat) :
    (clock :: (newer time clock slots).map time).Pairwise (· < ·) := by
  induction slots generalizing clock with
  | nil => exact List.pairwise_singleton _ _
  | cons slot slots ih =>
    rw [newer]
    split
    · exact ih clock
    · rename_i hlate
      have hlt : clock < time slot := Int64.not_le.mp hlate
      have hrest := ih (time slot)
      refine List.pairwise_cons.mpr ⟨List.forall_mem_cons.mpr ⟨hlt, fun t ht => ?_⟩, hrest⟩
      exact Int64.lt_trans hlt ((List.pairwise_cons.mp hrest).1 t ht)

/-- Slots whose times rise above the clock are all accepted. -/
theorem newer_eq_self {time : Nat → Int64} {clock : Int64} {slots : List Nat}
    (h : (clock :: slots.map time).Pairwise (· < ·)) : newer time clock slots = slots := by
  induction slots generalizing clock with
  | nil => rfl
  | cons slot slots ih =>
    obtain ⟨hclock, hrest⟩ := List.pairwise_cons.mp h
    rw [newer, if_neg (Int64.not_le.mpr (hclock _ List.mem_cons_self)), ih hrest]

theorem Queue.server_log {R : Type} (q : Queue R) (time : Int64) (sample : Sample) (expand : Bool) :
    (q.log time sample expand).server = q.server := by
  unfold Queue.log
  split
  · rfl
  · split
    · split <;> rfl
    · rfl

/-- A queue that grows accepts the samples that are newer than those before, and keeps all that it had. -/
theorem Queue.foldl_log {R : Type} (time : Nat → Int64) (sample : Nat → Sample) (slots : List Nat) (q : Queue R) :
    let q' := slots.foldl (fun q slot => q.log (time slot) (sample slot) true) q
    q'.server = q.server ∧ q'.items = q.items ++ (newer time q.clock slots).map sample ∧
      q'.latest = ((newer time q.clock slots).map time).getLast?.or q.latest := by
  induction slots generalizing q with
  | nil => exact ⟨rfl, (List.append_nil _).symm, rfl⟩
  | cons slot slots ih =>
    simp only [List.foldl_cons, newer]
    by_cases hle : time slot ≤ q.clock
    · have hdrop : q.log (time slot) (sample slot) true = q := if_pos hle
      rw [if_pos hle, hdrop]
      exact ih q
    · have hitems : (q.log (time slot) (sample slot) true).items = q.items ++ [sample slot] := by
        rw [Queue.log, if_neg hle]
        split <;> rfl
      have hlatest : (q.log (time slot) (sample slot) true).latest = some (time slot) := by
        rw [Queue.log, if_neg hle]
        split <;> rfl
      have hclock : (q.log (time slot) (sample slot) true).clock = time slot := by
        rw [Queue.clock, hlatest, Option.getD_some]
      obtain ⟨hs, hi, hl⟩ := ih (q.log (time slot) (sample slot) true)
      rw [hclock] at hi hl
      rw [if_neg hle, hs, hi, hl, hitems, hlatest]
      refine ⟨q.server_log _ _ _, by simp, ?_⟩
      rw [List.map_cons, List.getLast?_cons]
      cases ((newer time (time slot) slots).map time).getLast? <;> rfl

namespace Ring

variable {R : Type}

/-! ## The walk -/

theorem place_succ (r : Ring R) (k : Nat) : (r.place k + 1) % r.size = r.place (k + 1) := by
  rw [place, place, Nat.mod_add_mod, Nat.add_assoc]

/-- The walk from a held slot to the newest one takes as many steps as there are slots. -/
theorem Sound.steps_eq {r : Ring R} (h : r.Sound) {k : Nat} (hk : k < r.len) :
    (r.newest + r.size - r.place k) % r.size + 1 = r.len - k := by
  have hle := len_le_size h.size_pos
  have hlast := h.last_place (by omega)
  have hplace := h.place_lt k
  have hnewest : r.newest < r.size := before_lt h.next_lt
  have ho := h.oldest_lt
  rw [mod_eq_of_lt_two_mul (by omega)]
  rw [h.place_eq (by omega)] at hplace ⊢
  split at hlast <;> split <;> split <;> omega

/-- What a slot of a sound ring holds. -/
theorem Sound.sampleAt_eq {r : Ring R} (h : r.Sound) {slot : Nat} (hslot : slot < r.size) :
    r.sampleAt slot = ⟨r.ratios[slot]!, if r.server then none else some r.signals[slot]!⟩ := by
  have hsignals := h.size_signals
  simp only [sampleAt, Sample.mk.injEq, true_and]
  cases hmode : r.server with
  | true =>
    rw [hmode, if_pos rfl] at hsignals
    simp [Array.eq_empty_of_size_eq_zero hsignals]
  | false =>
    rw [hmode, if_neg Bool.false_ne_true] at hsignals
    simp [hsignals, hslot]

theorem drop_heldSlots (r : Ring R) (k : Nat) : r.heldSlots.drop k = (List.range' k (r.len - k)).map r.place := by
  rw [heldSlots_eq, ← List.map_drop, List.range_eq_range', List.drop_range', Nat.mul_one, Nat.zero_add]

variable [Scalar R]

/-- The ring `target` after the sample in a slot of `source` was offered to it. -/
def offer (source target : Ring R) (slot : Nat) : Ring R :=
  target.push (source.time slot) (if source.server then ⟨0, 0⟩ else source.signals[slot]!) source.ratios[slot]! true

variable {r source target : Ring R}

/-- What is offered is what the slot holds. -/
theorem Sound.queue_offer (hs : source.Sound) (ht : target.Sound) (hserver : target.server = source.server) {slot : Nat}
    (hslot : slot < source.size) :
    (source.offer target slot).queue = target.queue.log (source.time slot) (source.sampleAt slot) true := by
  rw [offer, ht.queue_push, hserver, hs.sampleAt_eq hslot]
  cases source.server <;> rfl

/-- Offering slots one after another. -/
theorem Sound.queue_offers (hs : source.Sound) {slots : List Nat} (hslots : ∀ slot ∈ slots, slot < source.size)
    (ht : target.Sound) (hserver : target.server = source.server) :
    (slots.foldl source.offer target).Sound ∧ (slots.foldl source.offer target).queue =
      slots.foldl (fun q slot => q.log (source.time slot) (source.sampleAt slot) true) target.queue := by
  induction slots generalizing target with
  | nil => exact ⟨ht, rfl⟩
  | cons slot slots ih =>
    obtain ⟨hslot, hrest⟩ := List.forall_mem_cons.mp hslots
    have hqueue := hs.queue_offer ht hserver hslot
    have hsound : (source.offer target slot).Sound := ht.push _ _ _ _
    have hserver' : (source.offer target slot).server = source.server := by
      have hq := congrArg Queue.server hqueue
      rw [Queue.server_log] at hq
      exact hq.trans hserver
    rw [List.foldl_cons, List.foldl_cons, ← hqueue]
    exact ih hrest hsound hserver'

/-- The walk offers the slots from the first one that is not too early up to the first one that is too late. -/
theorem copyRange_place (r : Ring R) (start stop : Int64) (steps k : Nat) (target : Ring R) :
    r.copyRange start stop steps (r.place k) target =
      ((((List.range' k steps).map r.place).takeWhile fun slot => decide (r.time slot ≤ stop)).filter
        fun slot => decide (start ≤ r.time slot)).foldl r.offer target := by
  induction steps generalizing k target with
  | zero => rfl
  | succ steps ih =>
    rw [copyRange, List.range'_succ, List.map_cons, List.takeWhile_cons, place_succ]
    by_cases hlate : stop < r.time (r.place k)
    · rw [if_pos hlate, if_neg (by rw [decide_eq_true_eq]; exact Int64.not_le.mpr hlate)]
      rfl
    · rw [if_neg hlate, if_pos (decide_eq_true (Int64.not_lt.mp hlate)), List.filter_cons]
      by_cases hearly : start ≤ r.time (r.place k)
      · rw [if_pos hearly, if_pos (decide_eq_true hearly), List.foldl_cons, ih]
        rfl
      · rw [if_neg hearly, if_neg (by rwa [decide_eq_true_eq]), ih]

/-- While something holds of all elements before one that it holds of, taking and filtering are the same. -/
theorem takeWhile_eq_filter {α : Type} {p : α → Bool} {l : List α} (h : l.Pairwise fun a b => p b → p a) :
    l.takeWhile p = l.filter p := by
  induction l with
  | nil => rfl
  | cons a l ih =>
    obtain ⟨ha, hl⟩ := List.pairwise_cons.mp h
    by_cases hp : p a = true
    · rw [List.takeWhile_cons_of_pos hp, List.filter_cons_of_pos hp, ih hl]
    · rw [List.takeWhile_cons_of_neg hp, List.filter_cons_of_neg hp, List.filter_eq_nil_iff.mpr]
      exact fun b hb hpb => hp (ha b hb hpb)

/-- How many seconds a ring for the samples between two times is made for. -/
def extractedSeconds (start stop : Int64) : R :=
  Scalar.floor (Scalar.ceil (Scalar.ofInt64 (R := R) (stop - start) / 1000) * headroom)

/-- The slots with a time from `start` to `stop`, oldest first. -/
def slotsBetween (r : Ring R) (start stop : Int64) : List Nat :=
  r.heldSlots.filter fun slot => decide (start ≤ r.time slot ∧ r.time slot ≤ stop)

/-- When times do not fall, those of a stretch are found by stopping behind it and leaving out those before it. -/
theorem filter_between_eq {time : Nat → Int64} {slots : List Nat} (h : slots.Pairwise fun i j => time i ≤ time j)
    (start stop : Int64) : slots.filter (fun slot => decide (start ≤ time slot ∧ time slot ≤ stop)) =
      (slots.takeWhile fun slot => decide (time slot ≤ stop)).filter fun slot => decide (start ≤ time slot) := by
  have hpairs : slots.Pairwise fun i j => decide (time j ≤ stop) → decide (time i ≤ stop) :=
    h.imp fun hij hj => decide_eq_true (Int64.le_trans hij (of_decide_eq_true hj))
  rw [takeWhile_eq_filter hpairs, List.filter_filter]
  exact List.filter_congr fun slot _ => by rw [Bool.decide_and]

/-- So it does not matter where the walk starts, as long as all slots before are too early. -/
theorem Rising.slotsBetween_eq (h : r.Rising) {start : Int64} {k : Nat} (hk : k < r.len)
    (hbefore : ∀ j < k, ¬ start ≤ r.time (r.place j)) (stop : Int64) :
    r.slotsBetween start stop = ((r.heldSlots.drop k).takeWhile fun slot => decide (r.time slot ≤ stop)).filter
      fun slot => decide (start ≤ r.time slot) := by
  have hnone : ((r.heldSlots.take k).filter fun slot => decide (start ≤ r.time slot ∧ r.time slot ≤ stop)) = [] := by
    rw [List.filter_eq_nil_iff]
    intro slot hslot
    rw [heldSlots_eq, ← List.map_take, List.take_range, Nat.min_eq_left (Nat.le_of_lt hk)] at hslot
    obtain ⟨j, hj, rfl⟩ := List.mem_map.mp hslot
    rw [decide_eq_true_eq]
    exact fun hboth => hbefore j (List.mem_range.mp hj) hboth.1
  calc r.slotsBetween start stop
      = (r.heldSlots.take k ++ r.heldSlots.drop k).filter
          fun slot => decide (start ≤ r.time slot ∧ r.time slot ≤ stop) := by
        rw [List.take_append_drop]
        rfl
    _ = (r.heldSlots.drop k).filter fun slot => decide (start ≤ r.time slot ∧ r.time slot ≤ stop) := by
        rw [List.filter_append, hnone, List.nil_append]
    _ = ((r.heldSlots.drop k).takeWhile fun slot => decide (r.time slot ≤ stop)).filter
          fun slot => decide (start ≤ r.time slot) :=
        filter_between_eq ((List.pairwise_map.mp h).sublist (List.drop_sublist k _)) start stop

/-- Extracting offers held slots of the stretch to a new ring; when times do not fall, all of them. -/
theorem Sound.exists_offered (h : r.Sound) (start stop : Int64) : ∃ slots : List Nat,
    slots.Sublist r.heldSlots ∧ (∀ slot ∈ slots, start ≤ r.time slot ∧ r.time slot ≤ stop) ∧
      (r.Rising → slots = r.slotsBetween start stop) ∧
      (start < stop → r.extract start stop =
        (slotCount r.sampleRate (extractedSeconds start stop)).map fun n =>
          slots.foldl r.offer (empty r.sampleRate r.server n)) := by
  rcases Nat.eq_zero_or_pos r.len with hl | hl
  · have hheld : r.heldSlots = [] := by rw [heldSlots_eq, hl]; rfl
    have hempty : r.isEmpty = true := by rw [isEmpty, h.len_eq_zero_iff.mp hl]; rfl
    refine ⟨[], List.nil_sublist _, List.forall_mem_nil _, fun _ => by rw [slotsBetween, hheld]; rfl, fun hlt => ?_⟩
    rw [extract, if_neg (Int64.not_le.mpr hlt)]
    simp only [create, hempty, if_true]
    change _ = (slotCount r.sampleRate (Scalar.floor _)).map _
    cases slotCount r.sampleRate _ <;> rfl
  · obtain ⟨k, hk, hclosest, -, hbefore⟩ := h.closest_cases hl start
    refine ⟨((r.heldSlots.drop k).takeWhile fun slot => decide (r.time slot ≤ stop)).filter
      fun slot => decide (start ≤ r.time slot), ?_, ?_, ?_, ?_⟩
    · exact (List.filter_sublist.trans (List.takeWhile_sublist _)).trans (List.drop_sublist _ _)
    · intro slot hslot
      obtain ⟨htaken, hearly⟩ := List.mem_filter.mp hslot
      have hstop : decide (r.time slot ≤ stop) = true :=
        List.mem_takeWhile_imp (p := fun slot => decide (r.time slot ≤ stop)) htaken
      exact ⟨of_decide_eq_true hearly, of_decide_eq_true hstop⟩
    · intro hrising
      exact (hrising.slotsBetween_eq hk (hbefore hrising) stop).symm
    · intro hlt
      have hempty := h.isEmpty_eq_false hl
      rw [extract, if_neg (Int64.not_le.mpr hlt), hclosest]
      simp only [create, hempty, Bool.false_eq_true, if_false]
      change _ = (slotCount r.sampleRate (Scalar.floor _)).map _
      rw [drop_heldSlots, ← h.steps_eq hk]
      cases slotCount r.sampleRate _ with
      | error e => rfl
      | ok n => exact congrArg Except.ok (r.copyRange_place start stop _ k _)

/-- What is offered to a new ring is what it holds, but for samples of the past. -/
theorem Sound.offers_empty (h : r.Sound) {slots : List Nat} (hslots : slots.Sublist r.heldSlots) {n : Nat}
    (hn : 0 < n) :
    let r' := slots.foldl r.offer (empty r.sampleRate r.server n)
    r'.Sound ∧ r'.server = r.server ∧ r'.contents = (newer r.time Int64.minValue slots).map r.sampleAt ∧
      r'.latest = ((newer r.time Int64.minValue slots).map r.time).getLast? := by
  have hlt : ∀ slot ∈ slots, slot < r.size := by
    intro slot hslot
    obtain ⟨k, -, rfl⟩ := mem_heldSlots.mp (hslots.mem hslot)
    exact h.place_lt k
  have hstart : (empty r.sampleRate r.server n).queue =
      { sampleRate := r.sampleRate, server := r.server, size := n, latest := none, items := [] } := rfl
  obtain ⟨hsound, hqueue⟩ := h.queue_offers hlt (sound_empty r.sampleRate r.server hn) rfl
  obtain ⟨hserver, hitems, hlatest⟩ := Queue.foldl_log r.time r.sampleAt slots (empty r.sampleRate r.server n).queue
  rw [← hqueue, hstart] at hserver hitems hlatest
  refine ⟨hsound, hserver, hitems, hlatest.trans ?_⟩
  exact Option.or_none

/-- In every ring that can be reached: nothing is extracted from a time up to one that is not after it. Otherwise, when
the times of the held slots rise, the ring does not change, and the one that is extracted holds exactly what its slots
with a time from `start` to `stop` hold, in order; its newest time is that of the last of them. Only at the least of all
times nothing can start, because it stands for an empty ring. -/
theorem extract_keeps {r : Ring Float} {accepted : Nat} (h : Reached r accepted) (start stop : Int64) :
    (stop ≤ start → r.extract start stop = .error (.invalidRange start stop)) ∧
      ((r.heldSlots.map r.time).Pairwise (· < ·) → Int64.minValue < start → start < stop →
        ∀ n, slotCount r.sampleRate (extractedSeconds start stop) = .ok n →
          ∃ r', r.request (.extract start stop false) = (.ok (.ring r'), r) ∧ r'.server = r.server ∧
            r'.contents = (r.slotsBetween start stop).map r.sampleAt ∧
            r'.latest = ((r.slotsBetween start stop).map r.time).getLast?) := by
  refine ⟨fun hle => if_pos hle, fun hstrict hmin hlt n hcount => ?_⟩
  obtain ⟨hs, -⟩ := h.sound
  have hrising : r.Rising := hstrict.imp Int64.le_of_lt
  obtain ⟨slots, hslots, hbetween, hall, hextract⟩ := hs.exists_offered start stop
  obtain rfl := hall hrising
  obtain ⟨-, hserver, hcontents, hlatest⟩ := hs.offers_empty hslots (slotCount_pos hcount)
  have hnewer : newer r.time Int64.minValue (r.slotsBetween start stop) = r.slotsBetween start stop := by
    refine newer_eq_self (List.pairwise_cons.mpr ⟨List.forall_mem_map.mpr fun slot hslot => ?_, ?_⟩)
    · exact Int64.lt_of_lt_of_le hmin (hbetween slot hslot).1
    · exact hstrict.sublist (hslots.map r.time)
  rw [hnewer] at hcontents hlatest
  rw [hcount] at hextract
  refine ⟨_, ?_, hserver, hcontents, hlatest⟩
  simp only [request, hextract hlt]
  rfl

theorem slotCount_wrapped : slotCount wrapped.sampleRate (extractedSeconds 2000 3000) = .ok 1 :=
  slotCount_eq (by decide +kernel) (by decide +kernel) (by decide)

/-- From a ring that has lost two of six samples, one that was made for one sample is extracted with two. -/
theorem extract_keeps_more_than_room : ∃ r : Ring Float, Reached r 6 ∧
    (r.heldSlots.map r.time).Pairwise (· < ·) ∧ Int64.minValue < 2000 ∧ (2000 : Int64) < 3000 ∧
      slotCount r.sampleRate (extractedSeconds 2000 3000) = .ok 1 ∧ (r.slotsBetween 2000 3000).length = 2 ∧
        ∃ r', r.request (.extract 2000 3000 false) = (.ok (.ring r'), r) ∧ r'.server = r.server ∧
          r'.contents = (r.slotsBetween 2000 3000).map r.sampleAt ∧
          r'.latest = ((r.slotsBetween 2000 3000).map r.time).getLast? := by
  have hlength : (wrapped.slotsBetween 2000 3000).length = 2 := by decide +kernel
  exact ⟨_, reached_wrapped, wrapped_rises, by decide, by decide, slotCount_wrapped, hlength,
    (extract_keeps reached_wrapped 2000 3000).2 wrapped_rises (by decide) (by decide) 1 slotCount_wrapped⟩

end Ring

end Tremor
