import Tremor.Proofs.ServerRing

/-!
# Looking up times in a waveform ring

The held slots lie one after another from the oldest to the newest one, around the end of the arrays. The look-up halves
the stretch between them without regard to that end, so that a place is a number of samples behind the oldest one. When
the times do not fall along the stretch, it ends at the first slot that is not too early.

- `Reached` : the rings that taking in, resizing and extracting lead to, with the number of samples accepted
- `Reached.sound` : they are sound, and empty exactly when no sample was accepted
- `Sound.closest_eq` : the look-up finds the first held slot that is not too early
- `closest_is_first` : so it does in every ring that can be reached, and it fails only when there is no sample
-/

namespace Tremor.Ring

/-! ## Rings that can be reached -/

/-- The rings that can be reached, with the number of samples that each one ever accepted. A ring that is extracted has
accepted the samples that were copied to it. -/
inductive Reached : Ring Float → (accepted : Nat) → Prop
  | create {sampleRate seconds : Float} {server : Bool} {r : Ring Float}
      (h : create sampleRate seconds server = .ok r) : Reached r 0
  | log {r : Ring Float} {accepted : Nat} (h : Reached r accepted) (time : Int64) (signal : Signal) (levels : Levels)
      (expand : Bool) :
      Reached (r.log time signal levels expand) (if time ≤ r.clock then accepted else accepted + 1)
  | resize {r r' : Ring Float} {accepted : Nat} (h : Reached r accepted) {seconds : Float}
      (hresize : r.resize seconds = .ok r') : Reached r' accepted
  | extract {r r' : Ring Float} {accepted : Nat} (h : Reached r accepted) {start stop : Int64}
      (hextract : r.extract start stop = .ok r') : Reached r' r'.len

/-- No change of a ring makes it unsound. -/
theorem sound_kept : Kept fun r : Ring Float => r.Sound where
  create _ hc := (sound_create hc).1
  push time signal ratios expand h := h.push time signal ratios expand
  resize {r r' seconds} h hr := by
    cases hc : slotCount r.sampleRate seconds with
    | error e =>
      rw [resize, hc] at hr
      cases hr
    | ok n =>
      rw [resize_of_slotCount hc] at hr
      cases hr
      exact sound_withSize r (slotCount_pos hc)

theorem latest_resize {r r' : Ring Float} {seconds : Float} (h : r.resize seconds = .ok r') : r'.latest = r.latest := by
  cases hc : slotCount r.sampleRate seconds with
  | error e =>
    rw [resize, hc] at h
    cases h
  | ok n =>
    rw [resize_of_slotCount hc] at h
    cases h
    rfl

theorem latest_push {R : Type} [Scalar R] {r : Ring R} {time : Int64} (h : ¬ time ≤ r.clock) (signal : Signal)
    (ratios : Ratios) (expand : Bool) : (r.push time signal ratios expand).latest = some time := by
  rw [push, if_neg h]
  split <;> rfl

variable {r : Ring Float} {accepted : Nat}

theorem Sound.len_eq_zero_iff {R : Type} {r : Ring R} (h : r.Sound) : r.len = 0 ↔ r.latest = none := by
  have hpos := h.size_pos
  have ho := h.oldest_lt
  rcases len_cases h with ⟨hl, -, hlen⟩ | ⟨hl, hlen⟩
  · exact iff_of_true hlen hl
  · refine iff_of_false (by omega) fun hnone => ?_
    rw [hnone] at hl
    cases hl

/-- A ring that can be reached is sound, and has a newest time exactly when it accepted a sample. -/
theorem Reached.sound (h : Reached r accepted) : r.Sound ∧ (accepted = 0 ↔ r.latest = none) := by
  induction h with
  | create h =>
    obtain ⟨hs, -, hq⟩ := sound_create h
    exact ⟨hs, iff_of_true rfl (congrArg Queue.latest hq)⟩
  | log _ time signal levels expand ih =>
    refine ⟨ih.1.log time signal levels expand, ?_⟩
    split
    · rw [Ring.log, push_of_le ‹_›]
      exact ih.2
    · rw [Ring.log, latest_push ‹_›]
      exact iff_of_false (Nat.succ_ne_zero _) (Option.some_ne_none _)
  | resize _ hresize ih =>
    refine ⟨sound_kept.resize ih.1 hresize, ?_⟩
    rw [latest_resize hresize]
    exact ih.2
  | extract _ hextract ih =>
    have hs := sound_kept.extract ih.1 hextract
    exact ⟨hs, hs.len_eq_zero_iff⟩

/-! ## The stretch of held slots -/

section

variable {R : Type} {r : Ring R}

/-- The newest sample lies as many places behind the oldest one as there are others. -/
theorem Sound.last_place (h : r.Sound) (hl : 0 < r.len) :
    (if r.newest < r.oldest then r.newest + r.size else r.newest) = r.oldest + (r.len - 1) := by
  have hn := h.next_lt
  have ho := h.oldest_lt
  have hle := len_le_size h.size_pos
  rw [newest, before]
  rcases len_cases h with ⟨-, he, hlen⟩ | ⟨-, ⟨he, hlen⟩ | ⟨hlt, hlen⟩ | ⟨hlt, hlen⟩⟩ <;> grind

theorem Sound.isEmpty_eq_false (h : r.Sound) (hl : 0 < r.len) : r.isEmpty = false := by
  have hsome : r.latest.isSome := Option.isSome_iff_ne_none.mpr (mt h.len_eq_zero_iff.mpr (by omega))
  rw [isEmpty, ← Option.not_isSome, hsome]
  rfl

theorem Sound.place_last (h : r.Sound) (hl : 0 < r.len) : r.place (r.len - 1) = r.newest := by
  have hn := h.next_lt
  have hlast := h.last_place hl
  have hnewest : r.newest < r.size := before_lt hn
  rw [place, ← hlast]
  split
  · rw [Nat.add_mod_right, Nat.mod_eq_of_lt hnewest]
  · exact Nat.mod_eq_of_lt hnewest

theorem mem_heldSlots {slot : Nat} : slot ∈ r.heldSlots ↔ ∃ k < r.len, r.place k = slot := by
  simp [heldSlots_eq]

/-- The first held slot that something holds of. -/
theorem find?_heldSlots {p : Nat → Bool} {k : Nat} (hk : k < r.len) (hp : p (r.place k) = true)
    (hearly : ∀ j < k, p (r.place j) = false) : r.heldSlots.find? p = some (r.place k) := by
  have hrange : (List.range r.len).find? (p ∘ r.place) = some k := by
    rw [List.find?_range_eq_some]
    exact ⟨hp, List.mem_range.mpr hk, fun j hj => by simp [hearly j hj]⟩
  rw [heldSlots_eq, List.find?_map, hrange]
  rfl

variable [Scalar R]

/-- Along the held slots, the time does not fall. -/
def Rising (r : Ring R) : Prop := (r.heldSlots.map r.time).Pairwise (· ≤ ·)

theorem Rising.le (h : r.Rising) {j k : Nat} (hjk : j ≤ k) (hk : k < r.len) :
    r.time (r.place j) ≤ r.time (r.place k) := by
  rcases Nat.lt_or_eq_of_le hjk with hlt | rfl
  · rw [Rising, heldSlots_eq, List.map_map, List.pairwise_map] at h
    have hrange := List.pairwise_iff_getElem.mp h j k (by simp; omega) (by simp; omega) hlt
    simpa using hrange
  · exact Int64.le_refl _

/-- Halving between a place that is too early and one that is not ends where the one kind meets the other. -/
theorem exists_bisect (late : Nat → Bool) {low high : Nat} (hlow : late low = false) (hhigh : late high = true)
    (hlt : low < high) : ∃ k, bisect late low high = low + (k + 1) ∧ low + (k + 1) ≤ high ∧
      late (low + (k + 1)) = true ∧ late (low + k) = false := by
  obtain ⟨k, hk⟩ := Nat.exists_eq_add_of_lt (lt_bisect late hlt)
  have hle := bisect_le late low high
  have hlate : late (bisect late low high) = true := late_bisect hhigh
  have hearly := early_bisect hlow hlt
  rw [hk] at hle hlate hearly
  exact ⟨k, hk, hle, hlate, hearly⟩

/-- When times do not fall, all slots before one that is too early are too early. -/
theorem Rising.early (h : r.Rising) {k : Nat} (hk : k < r.len) {time : Int64} (hearly : ¬ time ≤ r.time (r.place k)) :
    ∀ j ≤ k, ¬ time ≤ r.time (r.place j) :=
  fun _ hj hle => hearly (Int64.le_trans hle (h.le hj hk))

/-- The look-up ends at a held slot: one that is not too early, or else the newest one. When times do not fall, all
slots before it are too early. -/
theorem Sound.closest_cases (h : r.Sound) (hl : 0 < r.len) (time : Int64) : ∃ k < r.len,
    r.closest time = .ok (r.place k) ∧
      (time ≤ r.time (r.place k) ∨ k = r.len - 1 ∧ ¬ time ≤ r.time (r.place k)) ∧
      (r.Rising → ∀ j < k, ¬ time ≤ r.time (r.place j)) := by
  have hempty := h.isEmpty_eq_false hl
  have hplace : ∀ k, (r.oldest + k) % r.size = r.place k := fun _ => rfl
  have holdest : r.oldest % r.size = r.place 0 := rfl
  simp only [closest, hempty, Bool.false_eq_true, if_false, h.last_place hl, holdest, hplace, decide_eq_true_eq,
    Bool.not_eq_true', decide_eq_false_iff_not]
  by_cases hfirst : time ≤ r.time (r.place 0)
  · exact ⟨0, hl, if_pos hfirst, Or.inl hfirst, fun _ => nofun⟩
  · rw [if_neg hfirst]
    by_cases hlast : time ≤ r.time (r.place (r.len - 1))
    · rw [if_neg (not_not_intro hlast)]
      -- halving starts between the oldest place, which is too early, and the newest one, which is not
      have hlt : r.oldest < r.oldest + (r.len - 1) := by
        have hne : r.len - 1 ≠ 0 := fun hzero => hfirst (hzero ▸ hlast)
        omega
      have hlow : decide (time ≤ r.time (r.oldest % r.size)) = false := decide_eq_false hfirst
      obtain ⟨k, heq, hhigh, hlate, hearly⟩ := exists_bisect (fun place => decide (time ≤ r.time (place % r.size)))
        hlow (decide_eq_true hlast) hlt
      rw [heq]
      refine ⟨k + 1, by omega, rfl, Or.inl (of_decide_eq_true hlate), fun hrising j hj => ?_⟩
      exact hrising.early (by omega) (of_decide_eq_false hearly) j (Nat.lt_succ_iff.mp hj)
    · refine ⟨r.len - 1, by omega, if_pos hlast, Or.inr ⟨rfl, hlast⟩, fun hrising j hj => ?_⟩
      exact hrising.early (by omega) hlast j (Nat.le_of_lt hj)

/-- When times do not fall, the look-up finds the first held slot that is not too early, or else the newest slot. -/
theorem Sound.closest_eq (h : r.Sound) (hl : 0 < r.len) (hrising : r.Rising) (time : Int64) :
    r.closest time = .ok ((r.heldSlots.find? fun slot => decide (time ≤ r.time slot)).getD r.newest) := by
  obtain ⟨k, hk, hclosest, hlate | ⟨rfl, hearly⟩, hbefore⟩ := h.closest_cases hl time
  · rw [hclosest, find?_heldSlots hk (decide_eq_true hlate) fun j hj => decide_eq_false (hbefore hrising j hj),
      Option.getD_some]
  · have hnone : (r.heldSlots.find? fun slot => decide (time ≤ r.time slot)) = none := by
      rw [List.find?_eq_none]
      intro slot hslot
      obtain ⟨k, hk, rfl⟩ := mem_heldSlots.mp hslot
      rw [decide_eq_true_eq]
      exact hrising.early (by omega) hearly k (by omega)
    rw [hclosest, hnone, Option.getD_none, h.place_last hl]

end

/-- In every ring that can be reached: the look-up fails for want of samples exactly when no sample was ever accepted.
Otherwise, when the times of the held slots do not fall, it finds the first held slot, from the oldest to the newest,
whose time is not before the one that is looked up, or the newest slot when there is none; either way a held slot. -/
theorem closest_is_first (h : Reached r accepted) (time : Int64) :
    (r.closest time = .error .emptyRing ↔ accepted = 0) ∧
      (accepted ≠ 0 → r.Rising → ∃ slot ∈ r.heldSlots, r.closest time = .ok slot ∧
        slot = (r.heldSlots.find? fun slot => decide (time ≤ r.time slot)).getD r.newest) := by
  obtain ⟨hs, hlatest⟩ := h.sound
  by_cases hzero : accepted = 0
  · have hempty : r.closest time = .error .emptyRing := by
      rw [closest, isEmpty, hlatest.mp hzero]
      rfl
    exact ⟨iff_of_true hempty hzero, fun hne => absurd hzero hne⟩
  · have hl : 0 < r.len := Nat.pos_of_ne_zero (mt hs.len_eq_zero_iff.mp (mt hlatest.mpr hzero))
    obtain ⟨k, hk, hfound, -⟩ := hs.closest_cases hl time
    have hsome : r.closest time ≠ .error .emptyRing := by
      intro herror
      rw [hfound] at herror
      cases herror
    refine ⟨iff_of_false hsome hzero, fun _ hrising => ?_⟩
    have hclosest := hs.closest_eq hl hrising time
    exact ⟨r.place k, mem_heldSlots.mpr ⟨k, hk, rfl⟩, hfound, Except.ok.inj (hfound.symm.trans hclosest)⟩

/-! ## A ring of four slots -/

/-- An empty ring for four seconds at one sample per second. -/
def fourSlots : Ring Float := empty 1 false 4

theorem reached_fourSlots : Reached fourSlots 0 := by
  have hcount : slotCount (1 : Float) 4 = .ok 4 := slotCount_eq (by decide +kernel) (by decide +kernel) (by decide)
  have hcreate : create (1 : Float) 4 false = .ok fourSlots := by
    rw [create, hcount]
    rfl
  exact .create hcreate

/-- The ring after samples without content at some times. -/
def tick (r : Ring Float) (times : List Int64) : Ring Float :=
  times.foldl (fun r time => r.log time ⟨0, 0⟩ ⟨1, 1, 1, 1⟩ false) r

/-- Samples at rising times are all accepted. -/
theorem Reached.tick (h : Reached r accepted) {times : List Int64} (htimes : (r.clock :: times).Pairwise (· < ·)) :
    Reached (r.tick times) (accepted + times.length) := by
  induction times generalizing r accepted with
  | nil => exact h
  | cons time times ih =>
    obtain ⟨hclock, hrest⟩ := List.pairwise_cons.mp htimes
    have hlt : ¬ time ≤ r.clock := Int64.not_le.mpr (hclock time List.mem_cons_self)
    have hstep := h.log time ⟨0, 0⟩ ⟨1, 1, 1, 1⟩ false
    rw [if_neg hlt] at hstep
    have hnext : (r.log time ⟨0, 0⟩ ⟨1, 1, 1, 1⟩ false).clock = time := by
      rw [Ring.log, clock, latest_push hlt, Option.getD_some]
    have hticks := ih hstep (hnext.symm ▸ hrest)
    rwa [List.length_cons, Nat.add_comm times.length 1, ← Nat.add_assoc]

/-- The ring of four slots after six samples, a second apart: the first two are lost. -/
def wrapped : Ring Float := fourSlots.tick [0, 1000, 2000, 3000, 4000, 5000]

set_option maxRecDepth 4000 in
theorem reached_wrapped : Reached wrapped 6 := reached_fourSlots.tick (by decide)

set_option maxRecDepth 4000 in
theorem wrapped_rises : (wrapped.heldSlots.map wrapped.time).Pairwise (· < ·) := by
  decide

/-- A ring that has lost two of six samples: half a second before the fifth one, that one is found. -/
theorem closest_is_first_wrapped : ∃ r : Ring Float, Reached r 6 ∧ (6 : Nat) ≠ 0 ∧ r.Rising ∧
    ∃ slot ∈ r.heldSlots, r.closest 3500 = .ok slot ∧
      slot = (r.heldSlots.find? fun slot => decide (3500 ≤ r.time slot)).getD r.newest := by
  have hrising : wrapped.Rising := wrapped_rises.imp Int64.le_of_lt
  exact ⟨_, reached_wrapped, by decide, hrising, (closest_is_first reached_wrapped 3500).2 (by decide) hrising⟩

end Tremor.Ring
