import Tremor.Waveform.Lookup

/-!
# The slots of a waveform ring

A ring is sound when its places lie in its arrays and it has no gap while it is empty. The slot after the held ones is
then the next one, which is all that is needed to follow the slots around the end of the arrays.

- `Ring.Sound` : what holds of every ring
- `Sound.place_len` : the held slots end at the next one
- `getElem_copySlots` : what a change of capacity copies
- `Sound.time_place`, `Sound.times_eq` : times count back from the newest held slot
-/

namespace Tremor.Ring

/-! ## Turns -/

/-- A place that is at most one turn too far. -/
theorem mod_eq_of_lt_two_mul {n k : Nat} (h : k < 2 * n) : k % n = if k < n then k else k - n := by
  split
  · exact Nat.mod_eq_of_lt (by assumption)
  · rw [Nat.mod_eq_sub_mod (by omega), Nat.mod_eq_of_lt (by omega)]

theorem before_lt {size slot : Nat} (h : slot < size) : before size slot < size := by
  unfold before
  split <;> omega

/-! ## Copies -/

/-- Copying backwards from inside a ring stays inside it, and fills places below the target. -/
theorem mem_copies {size : Nat} {c : Nat × Nat} : ∀ {count source target : Nat}, source < size → count ≤ target →
    c ∈ copies size count source target → c.1 < size ∧ target - count ≤ c.2 ∧ c.2 < target
  | 0, _, _, _, _, hc => by cases hc
  | count + 1, source, target, hs, ht, hc => by
    rcases List.mem_cons.mp hc with rfl | hc
    · exact ⟨before_lt hs, by simp only; omega, by simp only; omega⟩
    · obtain ⟨h1, h2, h3⟩ := mem_copies (before_lt hs) (by omega) hc
      exact ⟨h1, by omega, by omega⟩

variable {α : Type} [Inhabited α]

@[simp] theorem size_copySlots (old : Array α) (slots : List (Nat × Nat)) (new : Array α) :
    (copySlots old new slots).size = new.size := by
  unfold copySlots
  induction slots generalizing new with
  | nil => rfl
  | cons c slots ih => rw [List.foldl_cons, ih, Array.size_set!]

theorem getElem_copySlots_of_not_mem (old : Array α) {i : Nat} {slots : List (Nat × Nat)} (hi : ∀ c ∈ slots, c.2 ≠ i)
    (new : Array α) : (copySlots old new slots)[i]! = new[i]! := by
  unfold copySlots
  induction slots generalizing new with
  | nil => rfl
  | cons c slots ih =>
    rw [List.foldl_cons, ih fun d hd => hi d (List.mem_cons_of_mem _ hd)]
    have hc := hi c List.mem_cons_self
    simp [Array.getElem!_eq_getD, Array.getD_eq_getD_getElem?, hc]

/-- Copying backwards keeps the order: the copied slots end before the source, and the places they fill before the
target. -/
theorem getElem_copySlots (old : Array α) {size : Nat} : ∀ {count source target i : Nat} (new : Array α),
    source < size → count ≤ size → count ≤ target → target ≤ new.size → i < count →
    (copySlots old new (copies size count source target))[target - count + i]! =
      old[(source + size - count + i) % size]!
  | 0, _, _, _, _, _, _, _, _, hi => by cases hi
  | count + 1, source, target, i, new, hs, hn, ht, hnew, hi => by
    have hb := before_lt hs
    rw [copies, copySlots, List.foldl_cons]
    -- the first copy fills the last place, which the later ones leave alone
    rcases Nat.lt_succ_iff_lt_or_eq.mp hi with hi | rfl
    · have ih := getElem_copySlots old (new.set! (target - 1) old[before size source]!) hb
        (by omega : count ≤ size) (by omega : count ≤ target - 1) (by rw [Array.size_set!]; omega) hi
      have hplace : target - (count + 1) + i = target - 1 - count + i := by omega
      have hslot : (source + size - (count + 1) + i) % size = (before size source + size - count + i) % size := by
        unfold before
        split
        · rw [← Nat.add_mod_right (source + size - (count + 1) + i)]
          congr 1
          omega
        · congr 1
          omega
      rw [hplace, hslot]
      exact ih
    · have hmem : ∀ c ∈ copies size i (before size source) (target - 1), c.2 ≠ target - 1 := fun c hc => by
        have := mem_copies hb (by omega) hc
        omega
      have hplace : target - (i + 1) + i = target - 1 := by omega
      have hslot : (source + size - (i + 1) + i) % size = before size source := by
        have he : source + size - (i + 1) + i = source + size - 1 := by omega
        rw [he, mod_eq_of_lt_two_mul (by omega), before]
        split <;> split <;> omega
      have hkeep := getElem_copySlots_of_not_mem old hmem (new.set! (target - 1) old[before size source]!)
      rw [hplace, hslot]
      refine hkeep.trans ?_
      have hlt : target - 1 < new.size := by omega
      simp [Array.getElem!_eq_getD, Array.getD_eq_getD_getElem?, hlt]

/-! ## Sound rings -/

variable {R : Type}

/-- The places of a ring lie in its arrays, and there is no gap while it is empty. -/
structure Sound (r : Ring R) : Prop where
  size_pos : 0 < r.size
  next_lt : r.next < r.size
  oldest_lt : r.oldest < r.size
  size_ratios : r.ratios.size = r.size
  size_signals : r.signals.size = if r.server then 0 else r.size
  next_eq : r.latest = none → r.next = r.oldest

variable {r : Ring R}

/-- The number of held slots by the places of the next and the oldest one. -/
theorem len_cases (h : r.Sound) :
    r.latest = none ∧ r.next = r.oldest ∧ r.len = 0 ∨
      r.latest.isSome ∧ (r.next = r.oldest ∧ r.len = r.size ∨
        r.oldest < r.next ∧ r.len = r.next - r.oldest ∨
        r.next < r.oldest ∧ r.len = r.next + r.size - r.oldest) := by
  have hn := h.next_lt
  have ho := h.oldest_lt
  unfold len isEmpty
  cases hl : r.latest with
  | none => exact Or.inl ⟨rfl, h.next_eq hl, rfl⟩
  | some t =>
    refine Or.inr ⟨rfl, ?_⟩
    simp only [Option.isNone_some, Bool.false_eq_true, if_false]
    split
    · rename_i he
      exact Or.inl ⟨he, rfl⟩
    · rename_i he
      rw [mod_eq_of_lt_two_mul (by omega)]
      rcases Nat.lt_or_gt_of_ne he with hlt | hlt
      · exact Or.inr (Or.inr ⟨hlt, by rw [if_pos (by omega)]⟩)
      · exact Or.inr (Or.inl ⟨hlt, by rw [if_neg (by omega)]; omega⟩)

/-- A ring is full when the next slot is the oldest one and there are samples. -/
theorem Sound.full_iff (h : r.Sound) : (!r.isEmpty && r.next == r.oldest) = true ↔ r.len = r.size := by
  have hpos := h.size_pos
  have hn := h.next_lt
  have ho := h.oldest_lt
  have hempty : r.isEmpty = false ↔ r.latest.isSome := by
    rw [isEmpty, ← Option.not_isSome, Bool.not_eq_false']
  rw [Bool.and_eq_true, Bool.not_eq_true', hempty, beq_iff_eq]
  rcases len_cases h with ⟨hl, -, hlen⟩ | ⟨hl, ⟨he, hlen⟩ | ⟨hlt, hlen⟩ | ⟨hlt, hlen⟩⟩
  · rw [hl]
    simp
    omega
  · exact ⟨fun _ => hlen, fun _ => ⟨hl, he⟩⟩
  · exact ⟨fun hf => absurd hf.2 (by omega), fun hf => absurd hf (by omega)⟩
  · exact ⟨fun hf => absurd hf.2 (by omega), fun hf => absurd hf (by omega)⟩

/-- The slot of the `k`-th oldest sample. -/
def place (r : Ring R) (k : Nat) : Nat := (r.oldest + k) % r.size

theorem heldSlots_eq (r : Ring R) : r.heldSlots = (List.range r.len).map r.place := rfl

/-- A place within one turn of the oldest slot. -/
theorem Sound.place_eq (h : r.Sound) {k : Nat} (hk : k ≤ r.size) :
    r.place k = if r.oldest + k < r.size then r.oldest + k else r.oldest + k - r.size :=
  mod_eq_of_lt_two_mul (by have := h.oldest_lt; omega)

theorem Sound.place_lt (h : r.Sound) (k : Nat) : r.place k < r.size := Nat.mod_lt _ h.size_pos

/-- The held slots end at the next one. -/
theorem Sound.place_len (h : r.Sound) : r.place r.len = r.next := by
  have hn := h.next_lt
  have ho := h.oldest_lt
  rw [h.place_eq (len_le_size h.size_pos)]
  rcases len_cases h with ⟨-, he, hl⟩ | ⟨-, ⟨he, hl⟩ | ⟨hlt, hl⟩ | ⟨hlt, hl⟩⟩ <;> split <;> omega

/-- A held slot is the next one only when the ring is full and the slot is the oldest one. -/
theorem Sound.place_ne_next (h : r.Sound) {k : Nat} (hk : k < r.len) (hfull : 0 < k ∨ r.len ≠ r.size) :
    r.place k ≠ r.next := by
  have hn := h.next_lt
  have ho := h.oldest_lt
  have hle := len_le_size h.size_pos
  rw [h.place_eq (by omega)]
  rcases len_cases h with ⟨-, he, hl⟩ | ⟨-, ⟨he, hl⟩ | ⟨hlt, hl⟩ | ⟨hlt, hl⟩⟩ <;> split <;> omega

/-- The slot behind the newest sample lies as far behind it as there are newer samples. -/
theorem Sound.newest_sub_place (h : r.Sound) {k : Nat} (hk : k < r.len) :
    ((r.newest : Int) - if r.newest < r.place k then (r.place k : Int) - r.size else r.place k) = r.len - 1 - k := by
  have hn := h.next_lt
  have ho := h.oldest_lt
  have hle := len_le_size h.size_pos
  rw [h.place_eq (by omega), newest, before]
  rcases len_cases h with ⟨-, he, hl⟩ | ⟨-, ⟨he, hl⟩ | ⟨hlt, hl⟩ | ⟨hlt, hl⟩⟩ <;> grind

variable [Scalar R]

/-- The time of a held sample, by the number of newer ones. -/
def timeBehind (r : Ring R) (newer : Int) : Int64 :=
  saturatingSub r.clock (Scalar.truncate (r.interval * Scalar.ofInt64 (Int64.ofInt newer)))

/-- The times of held samples count back from the newest one. -/
theorem Sound.time_place (h : r.Sound) {k : Nat} (hk : k < r.len) :
    r.time (r.place k) = r.timeBehind (r.len - 1 - k) := by
  rw [timeBehind, ← h.newest_sub_place hk]
  rfl

/-- The times of held samples, oldest first. -/
theorem Sound.times_eq (h : r.Sound) :
    r.heldSlots.map r.time = (List.range r.len).map fun k : Nat => r.timeBehind (r.len - 1 - k) := by
  rw [heldSlots_eq, List.map_map]
  exact List.map_congr_left fun k hk => h.time_place (List.mem_range.mp hk)

end Tremor.Ring
