import Tremor.Proofs.ExtractedTimes

/-!
# Regular samples

A ring stores no times. As long as every sample that it accepts comes one nominal gap after the one before, and that gap
is a whole number of milliseconds, it tells the times that the samples came at all the same: read exactly, the smoothed
interval stays at the gap, whatever is done to the ring. A sample that lies further back than a word can tell is the
exception; it is told too late.

- `Stamped`, `Ring.stamped` : samples with the times that they came at, and those that a ring tells
- `Regular` : the rings that regular samples lead to, with what each one should tell
- `Punctual` : what holds of all of them
- `Punctual.time_place` : the time that is told of a sample within reach
- `regular_times_told` : regular samples are told with their times
- `far_sample_told_late` : one beyond reach is not
-/

namespace Tremor

/-- A sample and the time that it came at. -/
structure Stamped where
  time : Int64
  sample : Sample

namespace Ring

/-- What a ring tells about the sample in a slot. -/
def stampedAt {R : Type} [Scalar R] (r : Ring R) (slot : Nat) : Stamped :=
  { time := r.time slot, sample := r.sampleAt slot }

/-- What a ring tells about the samples that it holds, oldest first. -/
def stamped {R : Type} [Scalar R] (r : Ring R) : List Stamped := r.heldSlots.map r.stampedAt

/-- A sample is within reach of the newest one when a word can tell how much older it is. -/
def InReach (samples : List Stamped) (s : Stamped) : Prop :=
  ∀ newest ∈ samples.getLast?, newest.time.toInt - s.time.toInt ≤ Int64.maxValue.toInt

/-- The rings that can be reached with samples that come one gap after another, and the samples that each one should
hold, oldest first, with the times that they came at. Samples of the past are dropped. A full ring loses its oldest
sample, or grows; a ring with another capacity keeps the newest samples; what is extracted are the samples of a
stretch. -/
inductive Regular (gap : Int) : Ring Rat → List Stamped → Prop
  | create {sampleRate seconds : Rat} {server : Bool} {r : Ring Rat} (hgap : 1000 / sampleRate = gap) (hpos : 1 ≤ gap)
      (h : create sampleRate seconds server = .ok r) : Regular gap r []
  | late {r : Ring Rat} {samples : List Stamped} (h : Regular gap r samples) {time : Int64} (hlate : time ≤ r.clock)
      (signal : Signal) (levels : Levels) (expand : Bool) : Regular gap (r.log time signal levels expand) samples
  | log {r : Ring Rat} {samples : List Stamped} (h : Regular gap r samples) {time : Int64} (hnew : r.clock < time)
      (hregular : ∀ s ∈ samples.getLast?, time.toInt = s.time.toInt + gap) (signal : Signal) (levels : Levels)
      (expand : Bool) :
      Regular gap (r.log time signal levels expand)
        (samples.drop (if samples.length = r.size ∧ expand = false then 1 else 0) ++
          [⟨time, levels.ratios, if r.server then none else some signal⟩])
  | resize {r r' : Ring Rat} {samples : List Stamped} (h : Regular gap r samples) {seconds : Rat}
      (hresize : r.resize seconds = .ok r') : Regular gap r' (samples.drop (samples.length - r'.size))
  | extract {r r' : Ring Rat} {samples : List Stamped} (h : Regular gap r samples)
      (hreach : ∀ s ∈ samples, InReach samples s) {start stop : Int64} (hextract : r.extract start stop = .ok r') :
      Regular gap r' (samples.filter fun s => decide (start ≤ s.time ∧ s.time ≤ stop))

/-! ## What regular samples keep -/

/-- The interval of a ring is its nominal gap, a whole number, and it holds samples that came one gap after another. -/
structure Punctual (gap : Int) (r : Ring Rat) (samples : List Stamped) : Prop where
  gap_pos : 1 ≤ gap
  sound : r.Sound
  nominal : 1000 / r.sampleRate = gap
  interval : r.interval = gap
  contents : r.contents = samples.map (·.sample)
  latest : r.latest = (samples.map (·.time)).getLast?
  regular : (samples.map (·.time)).IsChain fun s t => t.toInt = s.toInt + gap
  /-- The least of all times stands for an empty ring. -/
  after : ∀ s ∈ samples, Int64.minValue < s.time

variable {gap : Int} {r : Ring Rat} {samples : List Stamped}

/-- A gap that is the nominal one does not move the interval; nor does one that is beyond a word, for the difference that
is taken then is far from it. -/
theorem smoothed_of_regular (hpos : 1 ≤ gap) (hnominal : 1000 / r.sampleRate = gap) (hinterval : r.interval = gap)
    {before time : Int64} (hstep : time.toInt = before.toInt + gap) :
    r.smoothed (Scalar.ofInt64 (time - before)) = gap := by
  have hgap : (Scalar.ofInt64 (time - before) : Rat) = ((time - before).toInt : Rat) := rfl
  have hbefore := before.le_toInt
  have hmax : Int64.maxValue.toInt = 0x7fffffffffffffff := rfl
  have htime := time.toInt_le
  rw [smoothed_eq, hgap, hnominal, hinterval, Int64.toInt_sub, hstep, add_sub_cancel_left]
  by_cases hword : gap < 0x8000000000000000
  · rw [Int.bmod_eq_of_le (by omega) (by omega), sub_self, zero_div, sub_zero, ite_self]
  · have hwrapped : gap.bmod Int64.size = gap - 0x10000000000000000 := by
      rw [Int64.size, Int.bmod_def, if_neg (by omega)]
      omega
    have hfar : ¬ |((gap - 0x10000000000000000 : Int) : Rat) - gap| / gap < 1 / 20 := by
      have hpos' : (0 : Rat) < gap := by exact_mod_cast hpos
      have hlt : (gap : Rat) < 0x10000000000000000 := by exact_mod_cast (by omega : gap < 0x10000000000000000)
      rw [Int.cast_sub, sub_sub_cancel_left, abs_neg, not_lt, le_div_iff₀ hpos']
      norm_num
      linarith
    rw [hwrapped, if_neg hfar]

/-- Of samples that are not empty, the newest stays when some of the oldest go. -/
theorem getLast?_drop_of_lt {α : Type} {l : List α} {n : Nat} (h : n < l.length) : (l.drop n).getLast? = l.getLast? := by
  rw [List.getLast?_drop, if_neg (by omega)]

namespace Punctual

theorem length_eq (h : Punctual gap r samples) : samples.length = r.len := by
  have hlength := congrArg List.length h.contents
  rw [length_contents, List.length_map] at hlength
  exact hlength.symm

/-- A new ring. -/
theorem empty {sampleRate : Rat} (hgap : 1000 / sampleRate = gap) (hpos : 1 ≤ gap) (server : Bool) {n : Nat}
    (hn : 0 < n) : Punctual gap (empty sampleRate server n) [] where
  gap_pos := hpos
  sound := sound_empty sampleRate server hn
  nominal := hgap
  interval := hgap
  contents := rfl
  latest := rfl
  regular := List.isChain_nil
  after := List.forall_mem_nil _

/-- A change of the capacity keeps the newest samples. -/
theorem withSize (h : Punctual gap r samples) {n : Nat} (hn : 0 < n) :
    Punctual gap (r.withSize n) (samples.drop (samples.length - n)) where
  gap_pos := h.gap_pos
  sound := sound_withSize r hn
  nominal := h.nominal
  interval := h.interval
  contents := by
    have hcount : r.len - min r.len n = samples.length - n := by
      rw [h.length_eq]
      omega
    rw [h.sound.contents_withSize hn, h.contents, ← List.map_drop, hcount]
  latest := by
    rcases Nat.eq_zero_or_pos samples.length with hzero | hpos
    · obtain rfl := List.length_eq_zero_iff.mp hzero
      rw [List.drop_nil]
      exact h.latest
    · rw [List.map_drop, getLast?_drop_of_lt (by rw [List.length_map]; omega)]
      exact h.latest
  regular := by
    rw [List.map_drop]
    exact h.regular.drop _
  after s hs := h.after s (List.mem_of_mem_drop hs)

/-- A sample that comes one gap after the newest is stored. -/
theorem store (h : Punctual gap r samples) {time : Int64} (hnew : r.clock < time)
    (hregular : ∀ s ∈ samples.getLast?, time.toInt = s.time.toInt + gap) (signal : Signal) (ratios : Ratios) :
    Punctual gap (r.store time signal ratios)
      (samples.drop r.overwritten ++ [⟨time, ratios, if r.server then none else some signal⟩]) where
  gap_pos := h.gap_pos
  sound := h.sound.store time signal ratios
  nominal := h.nominal
  interval := by
    have hlatest := h.latest
    simp only [Ring.store]
    split
    · rename_i before hbefore
      rw [hbefore, List.getLast?_map] at hlatest
      obtain ⟨s, hs, rfl⟩ := Option.map_eq_some_iff.mp hlatest.symm
      exact smoothed_of_regular h.gap_pos h.nominal h.interval (hregular s hs)
    · exact h.interval
  contents := by
    rw [h.sound.contents_store, h.contents, List.map_append, List.map_drop]
    rfl
  latest := by
    simp [Ring.store]
  regular := by
    have hlast : ∀ s ∈ ((samples.drop r.overwritten).map (·.time)).getLast?, time.toInt = s.toInt + gap := by
      intro t ht
      rw [List.getLast?_map, List.getLast?_drop] at ht
      obtain ⟨s, hs, rfl⟩ := Option.map_eq_some_iff.mp ht
      split at hs
      · cases hs
      · exact hregular s hs
    rw [List.map_append, List.isChain_append]
    refine ⟨List.map_drop ▸ h.regular.drop _, List.isChain_singleton _, fun s hs t ht => ?_⟩
    cases ht
    exact hlast s hs
  after s hs := by
    rcases List.mem_append.mp hs with hs | hs
    · exact h.after s (List.mem_of_mem_drop hs)
    · rw [List.mem_singleton.mp hs]
      exact Int64.lt_of_le_of_lt (Int64.minValue_le _) hnew

/-- A sample that comes one gap after the newest is taken in; a full ring loses its oldest one, or grows. -/
theorem push (h : Punctual gap r samples) {time : Int64} (hnew : r.clock < time)
    (hregular : ∀ s ∈ samples.getLast?, time.toInt = s.time.toInt + gap) (signal : Signal) (ratios : Ratios)
    (expand : Bool) :
    Punctual gap (r.push time signal ratios expand)
      (samples.drop (if samples.length = r.size ∧ expand = false then 1 else 0) ++
        [⟨time, ratios, if r.server then none else some signal⟩]) := by
  have hpos := h.sound.size_pos
  have hfull := h.sound.full_iff
  rw [Ring.push, if_neg (Int64.not_le.mpr hnew), Bool.and_assoc, h.length_eq]
  by_cases hgrows : r.len = r.size ∧ expand = true
  · -- the grown ring is not full, so that nothing is lost
    obtain ⟨hlen, rfl⟩ := hgrows
    have hgrown := h.withSize (n := r.size * 2) (by omega)
    have hkept : samples.length - r.size * 2 = 0 := by
      rw [h.length_eq]
      omega
    have hroom : (r.withSize (r.size * 2)).overwritten = 0 := by
      rw [hgrown.sound.overwritten_eq, h.sound.len_withSize (by omega), size_withSize, if_neg (by omega)]
    rw [hkept, List.drop_zero] at hgrown
    have hstored := hgrown.store hnew hregular signal ratios
    rw [hroom] at hstored
    rw [hfull.mpr hlen, Bool.and_true, if_pos rfl, if_neg (by simp)]
    exact hstored
  · have hstays : ¬ (expand && (!r.isEmpty && r.next == r.oldest)) = true := by
      rw [Bool.and_eq_true, hfull]
      exact fun hboth => hgrows hboth.symm
    have hstored := h.store hnew hregular signal ratios
    rw [h.sound.overwritten_eq] at hstored
    rw [if_neg hstays]
    have hlost : (r.len = r.size ∧ expand = false) ↔ r.len = r.size :=
      and_iff_left_of_imp fun hlen => Bool.eq_false_iff.mpr fun hexpand => hgrows ⟨hlen, hexpand⟩
    simpa only [hlost] using hstored

/-! ## Times -/

/-- The times of a ring count back in steps of the gap, as far as a word can tell. -/
theorem timeBehind (h : Punctual gap r samples) {newer : Nat} (hspan : gap * newer ≤ Int64.maxValue.toInt) :
    r.timeBehind newer = Int64.ofIntClamp (r.clock.toInt - gap * newer) := by
  have hmin : Int64.minValue.toInt = -0x8000000000000000 := rfl
  have hmax : Int64.maxValue.toInt = 0x7fffffffffffffff := rfl
  have hpos := h.gap_pos
  have hle : (newer : Int) ≤ gap * newer := le_mul_of_one_le_left (Int.natCast_nonneg newer) hpos
  have hcount : (Int64.ofInt newer).toInt = newer := Int64.toInt_ofInt_of_le (by omega) (by omega)
  have hoffset : r.interval * (Scalar.ofInt64 (Int64.ofInt newer) : Rat) = (gap * newer : Int) := by
    change r.interval * ((Int64.ofInt newer).toInt : Rat) = _
    rw [hcount, h.interval, Int.cast_mul]
  rw [Ring.timeBehind, hoffset, truncate_eq (Int.cast_nonneg (by omega)), Rat.floor_intCast, saturatingSub,
    Int64.toInt_ofIntClamp (by omega) (by omega)]

/-- Samples that come one gap after another count back from the newest one. -/
theorem toInt_time (h : Punctual gap r samples) {newest : Stamped} (hnewest : samples.getLast? = some newest) {k : Nat}
    (hk : k < samples.length) :
    samples[k].time.toInt = newest.time.toInt - gap * (samples.length - 1 - k : Nat) := by
  have hlast : (samples.map (·.time)).getLast? = some newest.time := by
    rw [List.getLast?_map, hnewest]
    rfl
  have hk' : k < (samples.map (·.time)).length := by rwa [List.length_map]
  simpa only [List.getElem_map, List.length_map] using toInt_getElem_of_isChain h.regular hlast hk'

/-- The time that is told of a sample within reach is the one that it came at. -/
theorem time_place (h : Punctual gap r samples) {k : Nat} (hk : k < samples.length)
    (hreach : InReach samples samples[k]) : r.time (r.place k) = samples[k].time := by
  obtain ⟨newest, hnewest⟩ : ∃ newest, samples.getLast? = some newest :=
    ⟨_, List.getLast?_eq_some_getLast (List.ne_nil_of_length_pos (Nat.zero_lt_of_lt hk))⟩
  have hclock : r.clock = newest.time := by
    rw [clock, h.latest, List.getLast?_map, hnewest]
    rfl
  have htime := h.toInt_time hnewest hk
  have hspan : gap * (samples.length - 1 - k : Nat) ≤ Int64.maxValue.toInt := by
    have := hreach newest hnewest
    omega
  have hbehind : (r.len : Int) - 1 - k = (samples.length - 1 - k : Nat) := by
    rw [← h.length_eq]
    omega
  rw [h.sound.time_place (h.length_eq ▸ hk), hbehind, h.timeBehind hspan, hclock, ← htime, Int64.ofIntClamp_toInt]

theorem sampleAt_place (h : Punctual gap r samples) {k : Nat} (hk : k < samples.length) :
    r.sampleAt (r.place k) = samples[k].sample := by
  have hk' : k < r.contents.length := by
    rwa [length_contents, ← h.length_eq]
  rw [← getElem_contents hk']
  simp only [h.contents, List.getElem_map]

/-- A ring tells its samples with the times that they came at when all of them are within reach. -/
theorem stamped_eq (h : Punctual gap r samples) (hreach : ∀ s ∈ samples, InReach samples s) : r.stamped = samples := by
  refine List.ext_getElem (by rw [stamped, List.length_map, length_heldSlots, h.length_eq]) fun k hk hk' => ?_
  have hsample := h.sampleAt_place hk'
  have htime := h.time_place hk' (hreach _ (List.getElem_mem hk'))
  simp only [stamped, stampedAt, heldSlots_eq, List.map_map, List.getElem_map, List.getElem_range, Function.comp_apply,
    htime, hsample]

/-- Within reach, the told times rise. -/
theorem times_rise (h : Punctual gap r samples) (hreach : ∀ s ∈ samples, InReach samples s) :
    (Int64.minValue :: r.heldSlots.map r.time).Pairwise (· < ·) := by
  have hpos := h.gap_pos
  have htimes : r.heldSlots.map r.time = samples.map (·.time) := by
    rw [← h.stamped_eq hreach, stamped, List.map_map]
    rfl
  have hrise : (samples.map (·.time)).IsChain (· < ·) :=
    h.regular.imp fun s t hst => Int64.lt_iff_toInt_lt.mpr (by omega)
  rw [htimes]
  exact List.pairwise_cons.mpr ⟨List.forall_mem_map.mpr h.after, List.isChain_iff_pairwise.mp hrise⟩

/-! ## Extracting -/

/-- A ring that grows takes in all samples that a source tells one gap after another. -/
theorem offers {source target : Ring Rat} (hs : source.Sound) {slots : List Nat}
    (hslots : ∀ slot ∈ slots, slot < source.size) (ht : Punctual gap target samples)
    (hserver : target.server = source.server) (hrise : (target.clock :: slots.map source.time).Pairwise (· < ·))
    (hregular : (samples.map (·.time) ++ slots.map source.time).IsChain fun s t => t.toInt = s.toInt + gap) :
    Punctual gap (slots.foldl source.offer target) (samples ++ slots.map source.stampedAt) := by
  induction slots generalizing target samples with
  | nil => simpa using ht
  | cons slot slots ih =>
    obtain ⟨hslot, hslots'⟩ := List.forall_mem_cons.mp hslots
    obtain ⟨hnew, hrise'⟩ := List.pairwise_cons.mp hrise
    have hlate : target.clock < source.time slot := hnew _ List.mem_cons_self
    have hnext : ∀ s ∈ samples.getLast?, (source.time slot).toInt = s.time.toInt + gap := by
      intro s hs
      refine (List.isChain_append.mp hregular).2.2 s.time ?_ _ rfl
      rw [List.getLast?_map, hs]
      rfl
    have hstep : Punctual gap (source.offer target slot) (samples ++ [source.stampedAt slot]) := by
      have hpush := ht.push hlate hnext (if source.server then ⟨0, 0⟩ else source.signals[slot]!) source.ratios[slot]!
        true
      have hsample : (⟨source.ratios[slot]!, if target.server then none else
          some (if source.server then ⟨0, 0⟩ else source.signals[slot]!)⟩ : Sample) = source.sampleAt slot := by
        rw [hs.sampleAt_eq hslot, hserver]
        cases source.server <;> rfl
      have hkept : ¬ (samples.length = target.size ∧ true = false) := by simp
      rw [hsample, if_neg hkept, List.drop_zero] at hpush
      exact hpush
    have hserver' : (source.offer target slot).server = source.server := by
      have hqueue := congrArg Queue.server (hs.queue_offer ht.sound hserver hslot)
      rw [Queue.server_log] at hqueue
      exact hqueue.trans hserver
    have hclock : (source.offer target slot).clock = source.time slot := by
      rw [clock, offer, latest_push (Int64.not_le.mpr hlate), Option.getD_some]
    have hrest := ih hslots' hstep hserver' (hclock ▸ hrise') (by
      rw [List.map_append, List.append_assoc]
      exact hregular)
    rwa [List.append_assoc] at hrest

/-- What is extracted from a ring, within reach, are the samples of the stretch. -/
theorem extract {r' : Ring Rat} (h : Punctual gap r samples) (hreach : ∀ s ∈ samples, InReach samples s)
    {start stop : Int64} (hextract : r.extract start stop = .ok r') :
    Punctual gap r' (samples.filter fun s => decide (start ≤ s.time ∧ s.time ≤ stop)) := by
  have hlt : start < stop := by
    refine Int64.not_le.mp fun hle => ?_
    rw [Ring.extract, if_pos hle] at hextract
    cases hextract
  have hrise := h.times_rise hreach
  have hrising : r.Rising := (List.pairwise_cons.mp hrise).2.imp Int64.le_of_lt
  obtain ⟨slots, hslots, -, hall, hex⟩ := h.sound.exists_offered start stop
  obtain rfl := hall hrising
  have hcopied := (hex hlt).symm.trans hextract
  cases hcount : slotCount r.sampleRate (extractedSeconds start stop) with
  | error e =>
    rw [hcount] at hcopied
    cases hcopied
  | ok n =>
    rw [hcount] at hcopied
    cases hcopied
    have hstretch : (samples.filter fun s => decide (start ≤ s.time ∧ s.time ≤ stop)) =
        [] ++ (r.slotsBetween start stop).map r.stampedAt := by
      rw [← h.stamped_eq hreach, stamped, List.filter_map]
      rfl
    have hregular : (r.heldSlots.map r.time).IsChain fun s t => t.toInt = s.toInt + gap := by
      have htimes : r.stamped.map (·.time) = r.heldSlots.map r.time := List.map_map
      rw [← htimes, h.stamped_eq hreach]
      exact h.regular
    rw [hstretch]
    refine offers h.sound (fun slot hslot => ?_)
      (Punctual.empty h.nominal h.gap_pos r.server (slotCount_eq_ok_iff.mp hcount).2.1) rfl ?_ ?_
    · obtain ⟨k, -, rfl⟩ := mem_heldSlots.mp (hslots.mem hslot)
      exact h.sound.place_lt k
    · exact hrise.sublist ((hslots.map r.time).cons_cons _)
    · exact List.IsChain.infix hregular ((hrising.slotsBetween_isInfix start stop).map r.time)

end Punctual

/-- All rings that regular samples lead to. -/
theorem Regular.punctual (h : Regular gap r samples) : Punctual gap r samples := by
  induction h with
  | create hgap hpos h =>
    obtain ⟨-, n, hn, rfl⟩ := exists_empty_of_create h
    exact Punctual.empty hgap hpos _ hn
  | late _ hlate signal levels expand ih => rwa [Ring.log, push_of_le hlate]
  | log _ hnew hregular signal levels expand ih => exact ih.push hnew hregular signal levels.ratios expand
  | resize _ hresize ih =>
    obtain ⟨n, hn, rfl⟩ := exists_withSize_of_resize hresize
    exact ih.withSize hn
  | extract _ hreach hextract ih => exact ih.extract hreach hextract

/-- When samples come one gap after another, and the gap is the nominal one and a whole number of milliseconds, each slot
that a ring holds has the sample that it should hold. It is told with the time that it came at, unless it is older than
the newest one by more than a word can tell. This holds whatever was done to the ring, in any order, and for what was
extracted from one whose samples are all within reach. -/
theorem regular_times_told (h : Regular gap r samples) :
    List.Forall₂ (fun slot s => r.sampleAt slot = s.sample ∧ (InReach samples s → r.time slot = s.time))
        r.heldSlots samples ∧
      ((∀ s ∈ samples, InReach samples s) → r.stamped = samples) := by
  have hp := h.punctual
  refine ⟨List.forall₂_of_length_eq_of_get (by rw [length_heldSlots, hp.length_eq]) fun k hk hk' => ?_,
    hp.stamped_eq⟩
  have hplace : r.heldSlots.get ⟨k, hk⟩ = r.place k := by
    simp [heldSlots_eq]
  rw [hplace]
  exact ⟨hp.sampleAt_place hk', hp.time_place hk'⟩

/-- One more sample without content, in time. -/
theorem Regular.tick (h : Regular gap r samples) (time : Int64) (expand : Bool) (hnew : r.clock < time)
    (hregular : ∀ s ∈ samples.getLast?, time.toInt = s.time.toInt + gap) :
    Regular gap (r.log time ⟨0, 0⟩ ⟨1, 1, 1, 1⟩ expand)
      (samples.drop (if samples.length = r.size ∧ expand = false then 1 else 0) ++
        [⟨time, Levels.ratios ⟨1, 1, 1, 1⟩, if r.server then none else some ⟨0, 0⟩⟩]) :=
  h.log hnew hregular _ _ expand

/-- A ring that loses a sample, drops one of the past, grows, shrinks again and is extracted from. -/
theorem regular_times_told_reshaped : ∃ r samples, Regular 1000 r samples ∧ (∀ s ∈ samples, InReach samples s) ∧
    samples.map (·.time) = [4000, 5000] ∧ r.stamped = samples := by
  have hthree : slotCount (1 : Rat) 3 = .ok 3 :=
    slotCount_eq_ok_iff.mpr ⟨by norm_num, by decide, by decide +kernel, by decide⟩
  have htwo : slotCount (1 : Rat) (extractedSeconds 3500 5000) = .ok 2 :=
    slotCount_eq_ok_iff.mpr ⟨by norm_num, by decide, by decide +kernel, by decide⟩
  have h0 : Regular 1000 (empty (1 : Rat) false 3) [] :=
    .create (by norm_num) (by decide) (create_of_slotCount false hthree)
  have h1 := h0.tick 1000 false (by decide +kernel) (by decide)
  have h2 := h1.tick 2000 false (by decide +kernel) (by decide)
  have h3 := h2.tick 3000 false (by decide +kernel) (by decide)
  have h4 := h3.tick 4000 false (by decide +kernel) (by decide)
  have h5 := h4.late (by decide +kernel : (2500 : Int64) ≤ _) ⟨0, 0⟩ ⟨1, 1, 1, 1⟩ false
  have h6 := h5.tick 5000 true (by decide +kernel) (by decide)
  have h7 := h6.resize (resize_of_slotCount hthree)
  obtain ⟨slots, -, hextract⟩ := h7.punctual.sound.exists_extract (by decide) htwo
  have h8 := h7.extract (by unfold InReach; decide) hextract
  exact ⟨_, _, h8, by unfold InReach; decide, by decide, (regular_times_told h8).2 (by unfold InReach; decide)⟩

/-- The oldest of three samples that come 2⁶² ms apart lies one more millisecond back than a word can tell, and is told
one millisecond late. -/
theorem far_sample_told_late : ∃ r samples, Regular 4611686018427387904 r samples ∧
    samples.map (·.time) = [-4611686018427387904, 0, 4611686018427387904] ∧
      r.heldSlots.map r.time = [-4611686018427387903, 0, 4611686018427387904] ∧ r.stamped ≠ samples := by
  have hcount : slotCount (1000 / 4611686018427387904 : Rat) 18000000000000000 = .ok 4 :=
    slotCount_eq_ok_iff.mpr ⟨by norm_num, by decide, by decide +kernel, by decide⟩
  have h0 : Regular 4611686018427387904 (empty (1000 / 4611686018427387904 : Rat) false 4) [] :=
    .create (by norm_num) (by decide) (create_of_slotCount false hcount)
  have h1 := h0.tick (-4611686018427387904) false (by decide +kernel) (by decide)
  have h2 := h1.tick 0 false (by decide +kernel) (by decide)
  have h3 := h2.tick 4611686018427387904 false (by decide +kernel) (by decide)
  refine ⟨_, _, h3, by decide, by decide +kernel, fun heq => ?_⟩
  have htimes := congrArg (fun told => told.map (·.time)) heq
  rw [stamped, List.map_map] at htimes
  exact absurd htimes (by decide +kernel)

end Ring

end Tremor
