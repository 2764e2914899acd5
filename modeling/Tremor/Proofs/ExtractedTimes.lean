import Tremor.Proofs.FaithfulRounding
import Tremor.Proofs.RingExtract
import Tremor.Proofs.SampleClock

/-!
# The times of an extracted ring

An extracted ring stores no times either. It takes its samples in at the times that the source tells, and so its clock
is that of a new ring: the smoothed interval starts again from the nominal one, wherever that of the source has gone.
Still, the newest time is that of the source. So are the others as long as the interval of the source is the nominal
one, and that a whole number of milliseconds; otherwise a sample may even be told before the stretch that it was
extracted from.

- `SameClock`, `sameClock_offers` : the clock of an extracted ring is that of a new one
- `Undrifted` : the smoothed interval is the nominal one, a whole number
- `Undrifted.tick` : regular samples leave it there
- `Undrifted.isChain_newer` : the samples that are extracted are then regular, too
- `extract_restarts_clock` : the samples of an extracted ring, and their times
- `extracted_times_drift` : one with other times than its source
-/

namespace Tremor.Ring

/-! ## Clocks -/

section

variable {R : Type}

/-- Two rings count the times of their samples alike. -/
structure SameClock (a b : Ring R) : Prop where
  sampleRate : a.sampleRate = b.sampleRate
  interval : a.interval = b.interval
  latest : a.latest = b.latest

namespace SameClock

variable {a b c : Ring R}

theorem symm (h : SameClock a b) : SameClock b a := ⟨h.sampleRate.symm, h.interval.symm, h.latest.symm⟩

theorem trans (h : SameClock a b) (h' : SameClock b c) : SameClock a c :=
  ⟨h.sampleRate.trans h'.sampleRate, h.interval.trans h'.interval, h.latest.trans h'.latest⟩

theorem clock (h : SameClock a b) : a.clock = b.clock := by
  rw [Ring.clock, Ring.clock, h.latest]

variable [Scalar R]

theorem store (h : SameClock a b) (time : Int64) (signal signal' : Signal) (ratios ratios' : Ratios) :
    SameClock (a.store time signal ratios) (b.store time signal' ratios') where
  sampleRate := h.sampleRate
  interval := by simp only [Ring.store, smoothed, h.sampleRate, h.interval, h.latest]
  latest := rfl

/-- A sample that is newer than the newest one is stored, whatever room has to be made for it. -/
theorem exists_store {time : Int64} (h : ¬ time ≤ a.clock) (signal : Signal) (ratios : Ratios) (expand : Bool) :
    ∃ a', SameClock a' a ∧ a.push time signal ratios expand = a'.store time signal ratios := by
  rw [Ring.push, if_neg h]
  split
  · exact ⟨a.withSize (a.size * 2), ⟨rfl, rfl, rfl⟩, rfl⟩
  · exact ⟨a, ⟨rfl, rfl, rfl⟩, rfl⟩

/-- What the samples hold and what room there is does not matter to the clock. -/
theorem push (h : SameClock a b) (time : Int64) (signal signal' : Signal) (ratios ratios' : Ratios)
    (expand expand' : Bool) :
    SameClock (a.push time signal ratios expand) (b.push time signal' ratios' expand') := by
  by_cases hle : time ≤ a.clock
  · rwa [push_of_le hle, push_of_le (h.clock ▸ hle)]
  · obtain ⟨a', ha, hstore⟩ := exists_store hle signal ratios expand
    obtain ⟨b', hb, hstore'⟩ := exists_store (h.clock ▸ hle) signal' ratios' expand'
    rw [hstore, hstore']
    exact (ha.trans (h.trans hb.symm)).store time signal signal' ratios ratios'

end SameClock

end

/-- Rings that samples are offered to count their times like one that takes samples in at the times of those that they
accept. -/
theorem sameClock_offers (source : Ring Float) {target fresh : Ring Float} (h : SameClock target fresh)
    (slots : List Nat) : SameClock (slots.foldl source.offer target)
      (fresh.tick ((newer source.time target.clock slots).map source.time)) := by
  induction slots generalizing target fresh with
  | nil => exact h
  | cons slot slots ih =>
    rw [List.foldl_cons, newer]
    by_cases hle : source.time slot ≤ target.clock
    · rw [if_pos hle, offer, push_of_le hle]
      exact ih h
    · have hclock : (source.offer target slot).clock = source.time slot := by
        rw [clock, offer, latest_push hle, Option.getD_some]
      have hpush : SameClock (source.offer target slot) (fresh.log (source.time slot) ⟨0, 0⟩ ⟨1, 1, 1, 1⟩ false) :=
        h.push _ _ _ _ _ _ _
      have hrest := ih hpush
      rw [hclock] at hrest
      rwa [if_neg hle, List.map_cons]

/-! ## Regular samples -/

/-- The smoothed interval is the nominal one, and a whole number of milliseconds. -/
structure Undrifted (r : Ring Float) (gap : Int64) : Prop where
  gap_pos : 0 < gap.toInt
  gap_lt : gap.toInt < 0x20000000000000
  nominal : nominalGap r.sampleRate = Number.ofInt64 gap
  interval : r.interval = Number.ofInt64 gap

variable {r a b : Ring Float} {gap : Int64}

theorem SameClock.undrifted (h : SameClock a b) (hb : b.Undrifted gap) : a.Undrifted gap :=
  ⟨hb.gap_pos, hb.gap_lt, h.sampleRate ▸ hb.nominal, h.interval.trans hb.interval⟩

theorem hasValue_twoHundred : Number.HasValue 200 200 := by
  have hunpack : (200 : Float).toModel.unpack = .finite .positive 7036874417766400 (-45) (by decide) := rfl
  convert Number.hasValue_of_unpack hunpack using 1
  norm_num [Number.signed]

/-- A gap that is as long as the interval does not move it. -/
theorem Undrifted.smoothed (h : r.Undrifted gap) (hrate : ¬ r.sampleRate ≤ 0) :
    r.smoothed (Number.ofInt64 gap) = Number.ofInt64 gap := by
  obtain ⟨m, e, hm, hunpack, -⟩ := Number.unpack_ofInt64 h.gap_pos h.gap_lt
  have hnominal : 1000 / r.sampleRate = Number.ofInt64 gap := h.nominal
  obtain ⟨m', e', hm', hrate'⟩ := Number.finite_of_div hrate (hnominal.symm ▸ hunpack)
  have hpositive : (0 : ℚ) < Number.signed .positive (m' * 2 ^ e') :=
    mul_pos (by exact_mod_cast hm') (zpow_pos (by norm_num) e')
  obtain ⟨hzero, hnumber⟩ :=
    Number.unpack_mul_ne (Number.hasValue_of_unpack hrate') hpositive hasValue_twoHundred (by norm_num)
  have hshare := Number.sub_div_self hunpack hzero hnumber
  simp only [Ring.smoothed, h.interval]
  split
  · exact hshare
  · rfl

theorem Undrifted.store (h : r.Undrifted gap) (hrate : ¬ r.sampleRate ≤ 0) {time : Int64}
    (hgap : ∀ before ∈ r.latest, time.toInt = before.toInt + gap.toInt) (signal : Signal) (ratios : Ratios) :
    (r.store time signal ratios).Undrifted gap where
  gap_pos := h.gap_pos
  gap_lt := h.gap_lt
  nominal := h.nominal
  interval := by
    simp only [Ring.store]
    split
    · rename_i before hlatest
      have hsub : time - before = gap := by
        refine Int64.toInt_inj.mp ?_
        have hpos := h.gap_pos
        have hlt := h.gap_lt
        rw [Int64.toInt_sub, hgap before hlatest, add_sub_cancel_left]
        exact Int.bmod_eq_of_le (by omega) (by omega)
      rw [hsub]
      exact h.smoothed hrate
    · exact h.interval

/-- Regular samples do not move the interval. -/
theorem Undrifted.tick (h : r.Undrifted gap) (hrate : ¬ r.sampleRate ≤ 0) {times : List Int64}
    (htimes : (r.latest.toList ++ times).IsChain fun s t => t.toInt = s.toInt + gap.toInt) :
    (r.tick times).Undrifted gap := by
  induction times generalizing r with
  | nil => exact h
  | cons time times ih =>
    change ((r.log time ⟨0, 0⟩ ⟨1, 1, 1, 1⟩ false).tick times).Undrifted gap
    rw [Ring.log]
    by_cases hle : time ≤ r.clock
    · -- only the least of all times is dropped, while there is no other one
      rw [push_of_le hle]
      refine ih h hrate ?_
      cases hlatest : r.latest with
      | none =>
        rw [hlatest] at htimes
        exact htimes.tail
      | some before =>
        rw [hlatest] at htimes
        have hstep : time.toInt = before.toInt + gap.toInt := (List.isChain_cons_cons.mp htimes).1
        rw [clock, hlatest, Option.getD_some, Int64.le_iff_toInt_le] at hle
        have hpos := h.gap_pos
        omega
    · obtain ⟨r', hsame, heq⟩ := SameClock.exists_store hle ⟨0, 0⟩ (Levels.ratios ⟨1, 1, 1, 1⟩) false
      have hrate' : ¬ r'.sampleRate ≤ 0 := hsame.sampleRate ▸ hrate
      have hgap : ∀ before ∈ r'.latest, time.toInt = before.toInt + gap.toInt := by
        intro before hbefore
        rw [hsame.latest, Option.mem_def] at hbefore
        rw [hbefore] at htimes
        exact (List.isChain_cons_cons.mp htimes).1
      rw [heq]
      exact ih ((hsame.undrifted h).store hrate' hgap _ _) hrate' (htimes.suffix (List.suffix_append _ _))

/-! ## Times -/

/-- The newest time does not depend on the interval. -/
theorem timeBehind_newest (r : Ring Float) : r.timeBehind 0 = r.clock := by
  have hoffset : Number.truncate (r.interval * Number.ofInt64 0) = 0 := Number.truncate_mul_zero r.interval
  change saturatingSub r.clock (Number.truncate (r.interval * Number.ofInt64 0)) = _
  rw [hoffset, saturatingSub, Int64.toInt_zero, Int.sub_zero]
  exact Int64.ofIntClamp_toInt _

theorem Sound.latest_eq (h : r.Sound) (hl : 0 < r.len) : r.latest = some r.clock := by
  obtain ⟨time, htime⟩ := Option.ne_none_iff_exists'.mp (mt h.len_eq_zero_iff.mpr (Nat.pos_iff_ne_zero.mp hl))
  rw [clock, htime, Option.getD_some]

theorem Sound.getLast?_times (h : r.Sound) : (r.heldSlots.map r.time).getLast? = r.latest := by
  rw [h.times_eq, List.getLast?_map, List.getLast?_range]
  rcases Nat.eq_zero_or_pos r.len with hzero | hl
  · rw [if_pos hzero, h.len_eq_zero_iff.mp hzero]
    rfl
  · have hlast : (r.len : Int) - 1 - (r.len - 1 : Nat) = 0 := by omega
    rw [if_neg hl.ne', Option.map_some, hlast, timeBehind_newest, h.latest_eq hl]

/-- Times count back in steps of the interval. -/
theorem Undrifted.timeBehind (h : r.Undrifted gap) {k : Nat} (hk : gap.toInt * k < 0x20000000000000) :
    r.timeBehind k = Int64.ofIntClamp (r.clock.toInt - gap.toInt * k) := by
  rcases Nat.eq_zero_or_pos k with rfl | hpos
  · rw [Nat.cast_zero, timeBehind_newest, mul_zero, sub_zero, Int64.ofIntClamp_toInt]
  · have hle : (k : Int) ≤ gap.toInt * k := le_mul_of_one_le_left (Int.natCast_nonneg k) h.gap_pos
    have hcount : (Int64.ofInt k).toInt = k := Int64.toInt_ofInt_of_le (by omega) (by omega)
    have hproduct : (gap * Int64.ofInt k).toInt = gap.toInt * k := by
      rw [Int64.toInt_mul, hcount]
      exact Int.bmod_eq_of_le (by omega) (by omega)
    have hoffset : Number.truncate (r.interval * Number.ofInt64 (Int64.ofInt k)) = gap * Int64.ofInt k := by
      rw [h.interval, Number.ofInt64_mul h.gap_pos (by omega) (by rwa [hcount])]
      exact Number.truncate_ofInt64 (by omega) (by omega)
    change saturatingSub r.clock (Number.truncate (r.interval * Number.ofInt64 (Int64.ofInt k))) = _
    rw [hoffset, saturatingSub, hproduct]

/-- The times of held samples. -/
theorem Undrifted.time_place (h : r.Undrifted gap) (hs : r.Sound) (hlen : gap.toInt * r.len < 0x20000000000000)
    {k : Nat} (hk : k < r.len) :
    r.time (r.place k) = Int64.ofIntClamp (r.clock.toInt - gap.toInt * (r.len - 1 - k : Nat)) := by
  have hbehind : (r.len : Int) - 1 - k = (r.len - 1 - k : Nat) := by omega
  have hle : gap.toInt * (r.len - 1 - k : Nat) ≤ gap.toInt * r.len :=
    Int.mul_le_mul_of_nonneg_left (by omega) (Int.le_of_lt h.gap_pos)
  rw [hs.time_place hk, hbehind, h.timeBehind (by omega)]

/-! ## Regular stretches -/

/-- Clamping an integer that is not too large leaves it, unless it is too small. -/
theorem ofIntClamp_cases {x : Int} (h : x ≤ Int64.maxValue.toInt) :
    Int64.ofIntClamp x = Int64.minValue ∨ Int64.minValue.toInt ≤ x ∧ (Int64.ofIntClamp x).toInt = x := by
  unfold Int64.ofIntClamp
  by_cases hx : Int64.minValue.toInt ≤ x
  · rw [dif_pos hx, dif_pos h]
    exact Or.inr ⟨hx, Int64.toInt_ofIntLE⟩
  · exact Or.inl (dif_neg hx)

/-- One held sample follows another by the gap, or else the first one is told at the least of all times. -/
theorem Undrifted.isChain (h : r.Undrifted gap) (hs : r.Sound) (hlen : gap.toInt * r.len < 0x20000000000000) :
    r.heldSlots.IsChain fun i j => r.time i = Int64.minValue ∨ (r.time j).toInt = (r.time i).toInt + gap.toInt := by
  rw [heldSlots_eq, List.isChain_map, List.isChain_iff_getElem]
  intro k hk
  rw [List.length_range] at hk
  have hnext : gap.toInt * (r.len - 1 - k : Nat) = gap.toInt * (r.len - 1 - (k + 1) : Nat) + gap.toInt := by
    have hsucc : r.len - 1 - k = r.len - 1 - (k + 1) + 1 := by omega
    rw [hsucc, Nat.cast_succ, mul_add, mul_one]
  have hpos := h.gap_pos
  have hmax := r.clock.toInt_le
  have hbehind : 0 ≤ gap.toInt * (r.len - 1 - (k + 1) : Nat) := mul_nonneg (Int.le_of_lt hpos) (Int.natCast_nonneg _)
  simp only [List.getElem_range]
  rw [h.time_place hs hlen hk, h.time_place hs hlen (Nat.lt_of_succ_lt hk), hnext]
  generalize gap.toInt * (r.len - 1 - (k + 1) : Nat) = offset at hbehind
  refine (ofIntClamp_cases (by omega)).imp_right fun ⟨hmin, hvalue⟩ => ?_
  rw [hvalue, Int64.toInt_ofIntClamp (by omega) (by omega)]
  omega

/-- When the times do not fall, those from one on are at the end. -/
theorem filter_suffix {α : Type} {p : α → Bool} {l : List α} (h : l.Pairwise fun a b => p a → p b) :
    l.filter p <:+ l := by
  induction l with
  | nil => exact List.suffix_refl _
  | cons a l ih =>
    obtain ⟨ha, hl⟩ := List.pairwise_cons.mp h
    by_cases hp : p a = true
    · rw [List.filter_eq_self.mpr (List.forall_mem_cons.mpr ⟨hp, fun b hb => ha b hb hp⟩)]
    · rw [List.filter_cons_of_neg hp]
      exact (ih hl).trans (List.suffix_cons a l)

/-- When the times do not fall, the slots of a stretch follow one another. -/
theorem Rising.slotsBetween_isInfix {R : Type} [Scalar R] {r : Ring R} (h : r.Rising) (start stop : Int64) :
    r.slotsBetween start stop <:+: r.heldSlots := by
  have hrising := List.pairwise_map.mp h
  obtain ⟨kept, hkept⟩ : ∃ kept, kept = r.heldSlots.takeWhile fun slot => decide (r.time slot ≤ stop) := ⟨_, rfl⟩
  have hfront : kept <+: r.heldSlots := hkept ▸ List.takeWhile_prefix _
  have hbetween : r.slotsBetween start stop = kept.filter fun slot => decide (start ≤ r.time slot) :=
    hkept ▸ filter_between_eq hrising start stop
  have hsuffix : r.slotsBetween start stop <:+ kept := by
    rw [hbetween]
    refine filter_suffix ((hrising.sublist hfront.sublist).imp fun hab ha => ?_)
    exact decide_eq_true (Int64.le_trans (of_decide_eq_true ha) hab)
  exact hsuffix.isInfix.trans hfront.isInfix

/-- When times rise from one above the clock on, all are accepted. -/
theorem newer_of_isChain {time : Nat → Int64} {low clock : Int64} {slot : Nat} {slots : List Nat}
    (h : (slot :: slots).IsChain fun i j => time i ≤ low ∨ time i < time j) (hlow : low < time slot)
    (hclock : clock < time slot) : newer time clock (slot :: slots) = slot :: slots := by
  induction slots generalizing slot clock with
  | nil => rw [newer, if_neg (Int64.not_le.mpr hclock), newer]
  | cons next slots ih =>
    obtain ⟨hstep, hrest⟩ := List.isChain_cons_cons.mp h
    have hlt : time slot < time next := hstep.resolve_left (Int64.not_le.mpr hlow)
    rw [newer, if_neg (Int64.not_le.mpr hclock), ih hrest (Int64.lt_trans hlow hlt) hlt]

/-- When times rise as soon as they are above the clock, only slots at the start are not accepted. -/
theorem newer_suffix {time : Nat → Int64} {clock : Int64} {slots : List Nat}
    (h : slots.IsChain fun i j => time i ≤ clock ∨ time i < time j) : newer time clock slots <:+ slots := by
  induction slots with
  | nil => exact List.suffix_refl _
  | cons slot slots ih =>
    by_cases hle : time slot ≤ clock
    · rw [newer, if_pos hle]
      exact (ih h.tail).trans (List.suffix_cons slot slots)
    · have hlt : clock < time slot := Int64.not_le.mp hle
      rw [newer_of_isChain h hlt hlt]

/-- While the interval does not drift, the times do not fall. -/
theorem Undrifted.rising (h : r.Undrifted gap) (hs : r.Sound) (hlen : gap.toInt * r.len < 0x20000000000000) :
    r.Rising := by
  rw [Rising, heldSlots_eq, List.map_map, List.pairwise_map]
  refine List.pairwise_lt_range.imp_of_mem fun {i j} hi hj hij => ?_
  have hj' := List.mem_range.mp hj
  have hle : gap.toInt * (r.len - 1 - j : Nat) ≤ gap.toInt * (r.len - 1 - i : Nat) :=
    Int.mul_le_mul_of_nonneg_left (by omega) (Int.le_of_lt h.gap_pos)
  simp only [Function.comp_apply]
  rw [h.time_place hs hlen (List.mem_range.mp hi), h.time_place hs hlen hj']
  exact ofIntClamp_mono (by omega)

/-- While the interval does not drift, the slots that are extracted follow one another, and so do their times. -/
theorem Undrifted.isChain_newer (h : r.Undrifted gap) (hs : r.Sound) (hlen : gap.toInt * r.len < 0x20000000000000)
    (start stop : Int64) :
    ((newer r.time Int64.minValue (r.slotsBetween start stop)).map r.time).IsChain fun s t =>
      t.toInt = s.toInt + gap.toInt := by
  have hbetween := List.IsChain.infix (h.isChain hs hlen) ((h.rising hs hlen).slotsBetween_isInfix start stop)
  have hnewer : newer r.time Int64.minValue (r.slotsBetween start stop) <:+ r.slotsBetween start stop := by
    have hpos := h.gap_pos
    refine newer_suffix (hbetween.imp fun i j hij => ?_)
    rcases hij with hmin | hnext
    · exact Or.inl (hmin ▸ Int64.le_refl _)
    · exact Or.inr (Int64.lt_iff_toInt_lt.mpr (by omega))
  have hlate := List.pairwise_cons.mp (newer_rising r.time Int64.minValue (r.slotsBetween start stop))
  rw [List.isChain_map]
  refine List.IsChain.imp_of_mem_imp (fun i j hi _ hij => ?_) (hbetween.suffix hnewer)
  refine hij.resolve_left fun hmin => ?_
  exact Int64.lt_irrefl (hmin ▸ hlate.1 _ (List.mem_map_of_mem hi))

/-- Times that follow one another by the gap count back from the last one. -/
theorem toInt_getElem_of_isChain {step : Int} {times : List Int64}
    (h : times.IsChain fun s t => t.toInt = s.toInt + step) {last : Int64} (hlast : times.getLast? = some last) {k : Nat}
    (hk : k < times.length) : times[k].toInt = last.toInt - step * (times.length - 1 - k : Nat) := by
  induction times generalizing k with
  | nil => cases hlast
  | cons time times ih =>
    cases times with
    | nil =>
      cases hlast
      obtain rfl : k = 0 := by simpa using hk
      simp
    | cons next times =>
      obtain ⟨hstep, hrest⟩ := List.isChain_cons_cons.mp h
      have hlast' : (next :: times).getLast? = some last := by rwa [List.getLast?_cons_cons] at hlast
      cases k with
      | zero =>
        have hnext := ih hrest hlast' (k := 0) (Nat.zero_lt_succ _)
        simp only [List.getElem_cons_zero, List.length_cons, Nat.add_sub_cancel, Nat.sub_zero, Nat.cast_succ, mul_add,
          mul_one] at hnext ⊢
        omega
      | succ k =>
        have hnext := ih hrest hlast' (k := k) (Nat.lt_of_succ_lt_succ hk)
        have hbehind : (time :: next :: times).length - 1 - (k + 1) = (next :: times).length - 1 - k := by
          simp only [List.length_cons]
          omega
        rw [List.getElem_cons_succ, hbehind]
        exact hnext

/-! ## Extracted rings -/

/-- What a ring `r'` that is extracted from `r` tells about the `slots` of `r` that were copied: their contents, at the
times of a new ring that took in samples at the times of the source. -/
structure Retells (r r' : Ring Float) (start stop : Int64) (slots : List Nat) : Prop where
  sublist : slots.Sublist r.heldSlots
  rising : (slots.map r.time).Pairwise (· < ·)
  between : ∀ slot ∈ slots, start ≤ r.time slot ∧ r.time slot ≤ stop
  /-- When times do not fall, all samples of the stretch are copied that are newer than those before. -/
  all : r.Rising → slots = newer r.time Int64.minValue (r.slotsBetween start stop)
  contents : r'.contents = slots.map r.sampleAt
  clock : ∀ size, SameClock r' ((empty r.sampleRate r.server size).tick (slots.map r.time))
  newest : (r'.heldSlots.map r'.time).getLast? = (slots.map r.time).getLast?
  times : ∀ gap, r.Undrifted gap → gap.toInt * r.len < 0x20000000000000 → r'.heldSlots.map r'.time = slots.map r.time

/-- Rings that can be made have a positive rate. -/
theorem rate_of_slotCount {sampleRate seconds : Float} {n : Nat} (h : slotCount sampleRate seconds = .ok n) :
    ¬ sampleRate ≤ 0 := by
  intro hrate
  rw [slotCount, if_pos (Or.inr (Or.inr hrate))] at h
  cases h

/-- A ring without drift tells the times that regular samples came at. -/
theorem Undrifted.times_eq (h : r.Undrifted gap) (hs : r.Sound) (hlen : gap.toInt * r.len < 0x20000000000000)
    {times : List Int64} (htimes : times.IsChain fun s t => t.toInt = s.toInt + gap.toInt)
    (hlast : times.getLast? = r.latest) (hlength : times.length = r.len) : r.heldSlots.map r.time = times := by
  refine List.ext_getElem (by rw [List.length_map, length_heldSlots, hlength]) fun k hk hk' => ?_
  have hk'' : k < r.len := hlength ▸ hk'
  rw [hs.latest_eq (by omega)] at hlast
  have htime := toInt_getElem_of_isChain htimes hlast hk'
  have hplace : (r.heldSlots.map r.time)[k] = r.time (r.place k) := by
    simp [heldSlots_eq]
  rw [hplace, h.time_place hs hlen hk'', ← hlength, ← htime, Int64.ofIntClamp_toInt]

/-- The clock of what is offered to a new ring, whatever room that has. -/
theorem sameClock_offers_empty (r : Ring Float) (slots : List Nat) (n size : Nat) :
    SameClock (slots.foldl r.offer (empty r.sampleRate r.server n))
      ((empty r.sampleRate r.server size).tick ((newer r.time Int64.minValue slots).map r.time)) := by
  have hstart : SameClock (empty r.sampleRate r.server n) (empty r.sampleRate r.server size) := ⟨rfl, rfl, rfl⟩
  exact sameClock_offers r hstart slots

/-- While the interval of the source does not drift, a new ring tells the times of the source: the samples that it takes
in are regular, and so it does not drift either. -/
theorem Undrifted.times_offers (h : r.Undrifted gap) (hs : r.Sound) (hlen : gap.toInt * r.len < 0x20000000000000)
    (hrate : ¬ r.sampleRate ≤ 0) (start stop : Int64) {n : Nat} (hn : 0 < n) :
    let r' := (r.slotsBetween start stop).foldl r.offer (empty r.sampleRate r.server n)
    r'.heldSlots.map r'.time = (newer r.time Int64.minValue (r.slotsBetween start stop)).map r.time := by
  have hbetween : (r.slotsBetween start stop).Sublist r.heldSlots := List.filter_sublist
  have htimes := h.isChain_newer hs hlen start stop
  have hempty : (empty r.sampleRate r.server n).Undrifted gap := ⟨h.gap_pos, h.gap_lt, h.nominal, h.nominal⟩
  have hundrifted := (sameClock_offers_empty r (r.slotsBetween start stop) n n).undrifted (hempty.tick hrate htimes)
  obtain ⟨hs', -, hcontents, hlatest⟩ := hs.offers_empty hbetween hn
  have hlength := congrArg List.length hcontents
  rw [length_contents, List.length_map] at hlength
  have hle : (newer r.time Int64.minValue (r.slotsBetween start stop)).length ≤ r.len :=
    length_heldSlots r ▸ ((newer_sublist ..).trans hbetween).length_le
  have hlen' : gap.toInt * (newer r.time Int64.minValue (r.slotsBetween start stop)).length ≤ gap.toInt * r.len :=
    Int.mul_le_mul_of_nonneg_left (by omega) (Int.le_of_lt h.gap_pos)
  exact hundrifted.times_eq hs' (by rw [hlength]; omega) htimes hlatest.symm (by rw [List.length_map, hlength])

/-- The samples that are extracted from a ring that can be reached rise in time, within the stretch, as the source tells
it; when its times do not fall, no sample of the stretch is left out that is newer than those before. The extracted ring
holds just what these hold, and tells the newest time as the source does. The others it tells like a new ring that took
samples in at these times, which are just these times as long as the interval of the source is the nominal one and
whole. -/
theorem extract_restarts_clock {r r' : Ring Float} {accepted : Nat} (h : Reached r accepted) {start stop : Int64}
    (hextract : r.extract start stop = .ok r') : ∃ slots, Retells r r' start stop slots := by
  obtain ⟨hs, -⟩ := h.sound
  have hlt : start < stop := by
    refine Int64.not_le.mp fun hle => ?_
    rw [extract, if_pos hle] at hextract
    cases hextract
  obtain ⟨offered, hoffered, hbetween, hall, hex⟩ := hs.exists_offered start stop
  have hcopied := (hex hlt).symm.trans hextract
  cases hcount : slotCount r.sampleRate (extractedSeconds start stop) with
  | error e =>
    rw [hcount] at hcopied
    cases hcopied
  | ok n =>
    rw [hcount] at hcopied
    cases hcopied
    obtain ⟨hs', -, hcontents, hlatest⟩ := hs.offers_empty hoffered (slotCount_pos hcount)
    have hnewer := newer_sublist r.time Int64.minValue offered
    exact ⟨newer r.time Int64.minValue offered, {
      sublist := hnewer.trans hoffered
      rising := (List.pairwise_cons.mp (newer_rising ..)).2
      between := fun slot hslot => hbetween slot (hnewer.mem hslot)
      all := fun hrising => hall hrising ▸ rfl
      contents := hcontents
      clock := sameClock_offers_empty r offered n
      newest := hs'.getLast?_times.trans hlatest
      times := by
        intro gap hundrifted hlen
        rw [hall (hundrifted.rising hs hlen)]
        exact hundrifted.times_offers hs hlen (rate_of_slotCount hcount) start stop (slotCount_pos hcount) }⟩

/-- A ring that can be made is extracted, whatever it holds. -/
theorem Sound.exists_extract {R : Type} [Scalar R] {r : Ring R} (h : r.Sound) {start stop : Int64}
    (hlt : start < stop) {n : Nat} (hcount : slotCount r.sampleRate (extractedSeconds start stop) = .ok n) :
    ∃ slots : List Nat,
      (r.Rising → slots = r.slotsBetween start stop) ∧
        r.extract start stop = .ok (slots.foldl r.offer (empty r.sampleRate r.server n)) := by
  obtain ⟨slots, -, -, hall, hextract⟩ := h.exists_offered start stop
  rw [hcount] at hextract
  exact ⟨slots, hall, hextract hlt⟩

/-- From a ring that has lost two of six regular samples, two are extracted, with their times. -/
theorem extract_restarts_clock_regular : ∃ r r' : Ring Float, Reached r 6 ∧ r.extract 2000 3000 = .ok r' ∧
    r.Undrifted 1000 ∧ (1000 : Int64).toInt * r.len < 0x20000000000000 ∧ r'.len = 2 ∧
      ∃ slots, Retells r r' 2000 3000 slots := by
  have hnominal : nominalGap (1 : Float) = Number.ofInt64 1000 := Number.eq_of_toBits (by decide +kernel)
  have hempty : fourSlots.Undrifted 1000 := ⟨by decide, by decide, hnominal, hnominal⟩
  have hundrifted : wrapped.Undrifted 1000 := hempty.tick (by decide +kernel) (by decide)
  obtain ⟨slots, hall, hextract⟩ := reached_wrapped.sound.1.exists_extract (by decide) slotCount_wrapped
  rw [hall (wrapped_rises.imp Int64.le_of_lt)] at hextract
  exact ⟨_, _, reached_wrapped, hextract, hundrifted, by decide +kernel, by decide +kernel,
    extract_restarts_clock reached_wrapped hextract⟩

/-- From a ring whose samples come a little early, at 1000, 1960, 2920 and 3880, all four are extracted. The oldest one
is then told before the start of the stretch. -/
theorem extracted_times_drift : ∃ r r' : Ring Float, Reached r 4 ∧ r.extract 882 3880 = .ok r' ∧
    r.heldSlots.map r.time = [882, 1882, 2881, 3880] ∧ r'.heldSlots.map r'.time = [881, 1881, 2881, 3880] ∧
      ∃ slot ∈ r'.heldSlots, r'.time slot < 882 := by
  have hr : Reached (fourSlots.tick [1000, 1960, 2920, 3880]) 4 := reached_fourSlots.tick (by decide +kernel)
  have hcount : slotCount (fourSlots.tick [1000, 1960, 2920, 3880]).sampleRate (extractedSeconds 882 3880) = .ok 4 :=
    slotCount_eq (by decide +kernel) (by decide +kernel) (by decide)
  have hrising : (fourSlots.tick [1000, 1960, 2920, 3880]).Rising := by
    unfold Rising
    decide +kernel
  obtain ⟨slots, hall, hextract⟩ := hr.sound.1.exists_extract (by decide) hcount
  rw [hall hrising] at hextract
  exact ⟨_, _, hr, hextract, by decide +kernel, by decide +kernel, by decide +kernel⟩

end Tremor.Ring
