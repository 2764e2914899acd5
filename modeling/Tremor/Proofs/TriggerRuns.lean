import Mathlib.Data.Set.Image
import Mathlib.Order.Bounds.Defs
import Mathlib.Order.Interval.Set.Defs
import Tremor.Proofs.BoundedAverages
import Tremor.Proofs.RingRun

/-!
# Runs of a trigger

Whether a detection is open and which one is the latest are two things: the latest detection stays when it is released,
and counts the time of further samples until the next one opens. No sample leaves a detection open that is not there.
What is known of the latest one depends on all samples since it opened, which is told here of every sequence of samples.

- `TriggerTrace` : what is seen of a monitor that takes in samples
- `TriggerTrace.Opens`, `OpenedLast`, `Sums` : openings, the last one, and what the latest detection sums up
- `TriggerTrace.Event` : what a sample can do
- `TriggerTrace.Lawful`, `Runs.lawful` : what holds of traces whose samples do that
- `Monitor.trace_lawful` : the trace of a monitor from its first sample on
-/

namespace Tremor

/-- What is seen of a monitor: before every sample, whether a detection is open, which one is the latest, and the long
average; and for every sample, its time, the ratio after it, and whether it changed a detection. -/
structure TriggerTrace where
  active : ℕ → Bool
  detection : ℕ → Option Detection
  long : ℕ → Float
  time : ℕ → Int64
  ratio : ℕ → Float
  reply : ℕ → Bool

/-- What changes only when a detection opens or grows. -/
def Detection.peak (d : Detection) : Int64 × Double × UInt64 := (d.pWave, d.maxRatio, d.updates)

namespace TriggerTrace

/-! ## Openings -/

def Opens (t : TriggerTrace) (n : ℕ) : Prop := t.active n = false ∧ t.active (n + 1) = true

def Closes (t : TriggerTrace) (n : ℕ) : Prop := t.active n = true ∧ t.active (n + 1) = false

/-- A sample raises the maximum of the open detection. -/
def Raises (t : TriggerTrace) (n : ℕ) : Prop :=
  t.active n = true ∧ ∃ d d', t.detection n = some d ∧ t.detection (n + 1) = some d' ∧
    d.maxRatio.toFloat < d'.maxRatio.toFloat ∧ d'.peak = (d.pWave, .ofFloat (t.ratio n), d.updates + 1)

/-- Sample `k` is the last one before sample `n` with which a detection opened. -/
structure OpenedLast (t : TriggerTrace) (k n : ℕ) : Prop where
  lt : k < n
  opens : t.Opens k
  last : ∀ i, k < i → i < n → ¬ t.Opens i

/-- The samples before `n` from the opening with sample `k` to the closing. -/
def openSpan (t : TriggerTrace) (k n : ℕ) : Set ℕ := {i | i ∈ Set.Ico k n ∧ (i = k ∨ t.active i = true)}

/-- How many samples from `k` on and before `n` opened or raised a detection. -/
def replies (t : TriggerTrace) (k n : ℕ) : ℕ := (List.range' k (n - k)).countP t.reply

/-- A detection sums up the samples before `n` since it opened with sample `k`. -/
structure Sums (t : TriggerTrace) (k n : ℕ) (d : Detection) : Prop where
  pWave : d.pWave = t.time k
  updates : d.updates = UInt64.ofNat (t.replies k n)
  latest : IsGreatest (t.time '' Set.Ico k n) d.latest
  maxRatio : IsGreatest (t.ratio '' t.openSpan k n) d.maxRatio.toFloat

/-- What holds of the trigger of a station after any samples. -/
structure Lawful (station : Station) (sampleRate : Float) (t : TriggerTrace) : Prop where
  present : ∀ n, t.active n = true → ∃ d, t.detection n = some d
  reply_iff : ∀ n, t.reply n = true ↔ t.Opens n ∨ t.Raises n
  unchanged : ∀ n, t.reply n = false → (t.detection (n + 1)).map (·.peak) = (t.detection n).map (·.peak)
  opens_iff : ∀ n, t.Opens n ↔
    t.active n = false ∧ (UInt64.ofNat (n + 1)).toFloat ≥ sampleRate * 30.0 ∧ t.ratio n > 4.5
  opened : ∀ n, t.Opens n → t.detection (n + 1) = some (Detection.start station (t.time n) (t.ratio n))
  closes_iff : ∀ n, t.Closes n ↔ t.active n = true ∧ t.ratio n < 2.0
  /-- It is open as long as no ratio was below the limit since. -/
  active_iff : ∀ k n, t.OpenedLast k n → (t.active n = true ↔ ∀ i, k < i → i < n → ¬ t.ratio i < 2.0)
  between : ∀ k l, t.Opens k → t.Opens l → k < l → ∃ j, k < j ∧ j < l ∧ t.Closes j
  long_rests : ∀ m n, m ≤ n → (∀ i, m ≤ i → i < n → t.active i = true) → t.long n = t.long m
  opened_before : ∀ n d, t.detection n = some d → ∃ k, t.OpenedLast k n
  sums : ∀ k n, t.OpenedLast k n → ∃ d, t.detection n = some d ∧ t.Sums k n d

/-! ## What a sample does -/

/-- What a sample can do: it is taken in by the open detection, closes one that is not there, opens one, or only counts
as the newest one. -/
inductive Event (station : Station) (warm : ℕ → Prop) (t : TriggerTrace) (n : ℕ) : Prop
  | records (d : Detection) (hactive : t.active n = true) (hd : t.detection n = some d)
      (hd' : t.detection (n + 1) = some (d.record (t.time n) (t.ratio n)).1)
      (hreply : t.reply n = (d.record (t.time n) (t.ratio n)).2)
      (hnext : t.active (n + 1) = !decide (t.ratio n < 2.0)) (hlong : t.long (n + 1) = t.long n)
  | drops (hactive : t.active n = true) (hd : t.detection n = none) (hnext : t.active (n + 1) = false)
      (hd' : t.detection (n + 1) = none) (hreply : t.reply n = false)
  | opens (hidle : t.active n = false) (hwarm : warm n) (hratio : t.ratio n > 4.5) (hnext : t.active (n + 1) = true)
      (hd' : t.detection (n + 1) = some (Detection.start station (t.time n) (t.ratio n))) (hreply : t.reply n = true)
  | rests (hidle : t.active n = false) (hquiet : ¬ (warm n ∧ t.ratio n > 4.5)) (hnext : t.active (n + 1) = false)
      (hd' : t.detection (n + 1) = (t.detection n).map (·.reach (t.time n))) (hreply : t.reply n = false)

/-- Nothing was detected before the first sample, and every sample does what it can do. -/
structure Runs (station : Station) (warm : ℕ → Prop) (t : TriggerTrace) : Prop where
  idle : t.active 0 = false
  none : t.detection 0 = none
  event : ∀ n, t.Event station warm n
  number : ∀ n, t.ratio n ≤ t.ratio n

end TriggerTrace

/-! ## Detections -/

namespace Detection

variable (d : Detection) (time : Int64) (ratio : Float)

theorem latest_reach : (d.reach time).latest = if d.latest < time then time else d.latest := rfl

/-- A sample raises the maximum or not, and counts as an update when it does. -/
theorem record_eq : d.record time ratio =
    ({ d.reach time with
        maxRatio := if d.maxRatio.toFloat < ratio then .ofFloat ratio else d.maxRatio
        updates := if d.maxRatio.toFloat < ratio then d.updates + 1 else d.updates },
      decide (d.maxRatio.toFloat < ratio)) := by
  unfold record
  by_cases hlt : d.maxRatio.toFloat < ratio
  · simp only [hlt, if_true, decide_true]
  · simp only [hlt, if_false, decide_false]
    rfl

theorem pWave_record : (d.record time ratio).1.pWave = d.pWave := by rw [record_eq, reach]

theorem latest_record : (d.record time ratio).1.latest = (d.reach time).latest := by rw [record_eq]

theorem maxRatio_record : (d.record time ratio).1.maxRatio =
    if d.maxRatio.toFloat < ratio then .ofFloat ratio else d.maxRatio := by
  rw [record_eq]

theorem toFloat_maxRatio_record : (d.record time ratio).1.maxRatio.toFloat =
    if d.maxRatio.toFloat < ratio then ratio else d.maxRatio.toFloat := by
  rw [maxRatio_record, apply_ite Double.toFloat, Double.toFloat_ofFloat]

theorem record_snd : (d.record time ratio).2 = decide (d.maxRatio.toFloat < ratio) := by rw [record_eq]

theorem updates_record :
    (d.record time ratio).1.updates = if (d.record time ratio).2 then d.updates + 1 else d.updates := by
  simp only [record_eq, decide_eq_true_eq]

end Detection

namespace TriggerTrace

variable {station : Station} {warm : ℕ → Prop} {t : TriggerTrace} {k n : ℕ}

/-! ## Replies -/

/-- Every sample leaves a detection that is there, or none open; and before the first one, none is open. -/
theorem Runs.present (h : t.Runs station warm) (hactive : t.active n = true) : ∃ d, t.detection n = some d := by
  cases n with
  | zero =>
    rw [h.idle] at hactive
    cases hactive
  | succ n =>
    cases h.event n with
    | records d _ _ hd' => exact ⟨_, hd'⟩
    | opens _ _ _ _ hd' => exact ⟨_, hd'⟩
    | drops _ _ hnext | rests _ _ hnext =>
      rw [hnext] at hactive
      cases hactive

/-- So nothing is open that is not there. -/
theorem Runs.not_missing (h : t.Runs station warm) (hactive : t.active n = true) : t.detection n ≠ Option.none := by
  obtain ⟨d, hd⟩ := h.present hactive
  rw [hd]
  exact Option.some_ne_none d

theorem Runs.opens_iff (h : t.Runs station warm) : t.Opens n ↔ t.active n = false ∧ warm n ∧ t.ratio n > 4.5 := by
  cases h.event n with
  | records d hactive | drops hactive =>
    simp [Opens, hactive]
  | opens hidle hwarm hratio hnext => exact ⟨fun _ => ⟨hidle, hwarm, hratio⟩, fun _ => ⟨hidle, hnext⟩⟩
  | rests _ hquiet hnext => simp [Opens, hnext, hquiet]

theorem Runs.opened (h : t.Runs station warm) (ho : t.Opens n) :
    t.detection (n + 1) = some (Detection.start station (t.time n) (t.ratio n)) ∧ t.reply n = true := by
  cases h.event n with
  | records d hactive | drops hactive => simp [Opens, hactive] at ho
  | opens _ _ _ _ hd' hreply => exact ⟨hd', hreply⟩
  | rests _ _ hnext => simp [Opens, hnext] at ho

theorem Runs.reply_iff (h : t.Runs station warm) : t.reply n = true ↔ t.Opens n ∨ t.Raises n := by
  cases h.event n with
  | records d hactive hd hd' hreply =>
    have hopens : ¬ t.Opens n := by simp [Opens, hactive]
    rw [hreply, Detection.record_snd, decide_eq_true_iff]
    constructor
    · intro hlt
      refine Or.inr ⟨hactive, d, _, hd, hd', ?_, ?_⟩
      · rw [Detection.toFloat_maxRatio_record, if_pos hlt]
        exact hlt
      · simp only [Detection.peak, Detection.pWave_record, Detection.maxRatio_record, Detection.updates_record,
          Detection.record_snd, hlt, decide_true, if_true]
    · rintro (ho | ⟨-, e, e', he, he', hlt, hpeak⟩)
      · exact absurd ho hopens
      · rw [hd] at he
        cases he
        rw [hd'] at he'
        cases he'
        have hmax : (d.record (t.time n) (t.ratio n)).1.maxRatio = .ofFloat (t.ratio n) := congrArg (·.2.1) hpeak
        rwa [hmax, Double.toFloat_ofFloat] at hlt
  | drops hactive hd => exact absurd hd (h.not_missing hactive)
  | opens hidle _ _ hnext _ hreply => exact iff_of_true hreply (Or.inl ⟨hidle, hnext⟩)
  | rests hidle _ hnext _ hreply =>
    refine iff_of_false (by simp [hreply]) ?_
    rintro (ho | hr)
    · simp [Opens, hnext] at ho
    · simp [Raises, hidle] at hr

theorem Runs.unchanged (h : t.Runs station warm) (hquiet : t.reply n = false) :
    (t.detection (n + 1)).map (·.peak) = (t.detection n).map (·.peak) := by
  cases h.event n with
  | records d _ hd hd' hreply =>
    rw [hquiet, eq_comm] at hreply
    have hle := hreply
    rw [Detection.record_snd, decide_eq_false_iff_not] at hle
    rw [hd, hd']
    simp only [Option.map_some, Detection.peak, Detection.pWave_record, Detection.maxRatio_record,
      Detection.updates_record, hreply, hle, if_false, Bool.false_eq_true]
  | drops hactive hd => exact absurd hd (h.not_missing hactive)
  | opens _ _ _ _ _ hreply =>
    rw [hquiet] at hreply
    cases hreply
  | rests _ _ _ hd' =>
    rw [hd', Option.map_map]
    rfl

/-! ## Openings and closings -/

theorem Runs.closes_iff (h : t.Runs station warm) : t.Closes n ↔ t.active n = true ∧ t.ratio n < 2.0 := by
  cases h.event n with
  | records d hactive _ _ _ hnext => simp [Closes, hactive, hnext]
  | drops hactive hd => exact absurd hd (h.not_missing hactive)
  | opens hidle | rests hidle => simp [Closes, hidle]

/-- What is open stays open until it is closed. -/
theorem active_of_not_closes {m : ℕ} (hm : t.active m = true) (hmn : m ≤ n)
    (h : ∀ i, m ≤ i → i < n → ¬ t.Closes i) : t.active n = true := by
  induction n, hmn using Nat.le_induction with
  | base => exact hm
  | succ n hmn ih =>
    have hn := ih fun i hi hlt => h i hi (Nat.lt_succ_of_lt hlt)
    exact Bool.of_not_eq_false fun hclosed => h n hmn (Nat.lt_succ_self n) ⟨hn, hclosed⟩

/-- What is open has been open since the last opening. -/
theorem active_of_not_opens {m : ℕ} (hn : t.active n = true) (hmn : m ≤ n)
    (h : ∀ i, m ≤ i → i < n → ¬ t.Opens i) : t.active m = true := by
  induction n, hmn using Nat.le_induction with
  | base => exact hn
  | succ n hmn ih =>
    refine ih (Bool.of_not_eq_false fun hidle => ?_) fun i hi hlt => h i hi (Nat.lt_succ_of_lt hlt)
    exact h n hmn (Nat.lt_succ_self n) ⟨hidle, hn⟩

theorem Runs.active_iff (h : t.Runs station warm) (ho : t.OpenedLast k n) :
    t.active n = true ↔ ∀ i, k < i → i < n → ¬ t.ratio i < 2.0 := by
  constructor
  · intro hn i hki hin hlow
    have hactive : ∀ j, k < j → j ≤ n → t.active j = true := fun j hkj hjn =>
      active_of_not_opens hn hjn fun l hjl hln => ho.last l (by omega) hln
    have hclosed := (h.closes_iff.mpr ⟨hactive i hki hin.le, hlow⟩).2
    rw [hactive (i + 1) (by omega) hin] at hclosed
    cases hclosed
  · intro hhigh
    refine active_of_not_closes ho.opens.2 ho.lt fun i hki hin hc => ?_
    exact hhigh i hki hin (h.closes_iff.mp hc).2

theorem exists_closes_between {l : ℕ} (hk : t.Opens k) (hl : t.Opens l) (hkl : k < l) :
    ∃ j, k < j ∧ j < l ∧ t.Closes j := by
  by_contra hnone
  have hactive : t.active l = true := active_of_not_closes hk.2 hkl fun i hki hil hc => hnone ⟨i, hki, hil, hc⟩
  rw [hl.1] at hactive
  cases hactive

theorem Runs.long_rests (h : t.Runs station warm) {m : ℕ} (hmn : m ≤ n)
    (hactive : ∀ i, m ≤ i → i < n → t.active i = true) : t.long n = t.long m := by
  induction n, hmn using Nat.le_induction with
  | base => rfl
  | succ n hmn ih =>
    have hn := hactive n hmn (Nat.lt_succ_self n)
    rw [← ih fun i hi hlt => hactive i hi (Nat.lt_succ_of_lt hlt)]
    cases h.event n with
    | records _ _ _ _ _ _ hlong => exact hlong
    | drops _ hd => exact absurd hd (h.not_missing hn)
    | opens hidle | rests hidle =>
      rw [hidle] at hn
      cases hn

/-! ## Sums -/

theorem OpenedLast.succ (h : t.OpenedLast k n) (hn : ¬ t.Opens n) : t.OpenedLast k (n + 1) where
  lt := Nat.lt_succ_of_lt h.lt
  opens := h.opens
  last i hki hin := by
    rcases Nat.lt_succ_iff_lt_or_eq.mp hin with hlt | rfl
    · exact h.last i hki hlt
    · exact hn

theorem openedLast_succ (h : t.Opens n) : t.OpenedLast n (n + 1) where
  lt := Nat.lt_succ_self n
  opens := h
  last i hni hin := by omega

theorem Runs.opened_before (h : t.Runs station warm) {d : Detection} (hd : t.detection n = some d) :
    ∃ k, t.OpenedLast k n := by
  induction n generalizing d with
  | zero =>
    rw [h.none] at hd
    cases hd
  | succ n ih =>
    by_cases ho : t.Opens n
    · exact ⟨n, openedLast_succ ho⟩
    · have hbefore : ∃ e, t.detection n = some e := by
        cases h.event n with
        | records e _ he => exact ⟨e, he⟩
        | drops hactive hnone => exact absurd hnone (h.not_missing hactive)
        | opens hidle _ _ hnext => exact absurd ⟨hidle, hnext⟩ ho
        | rests _ _ _ hd' =>
          rw [hd', Option.map_eq_some_iff] at hd
          obtain ⟨e, he, -⟩ := hd
          exact ⟨e, he⟩
      obtain ⟨e, he⟩ := hbefore
      obtain ⟨k, hk⟩ := ih he
      exact ⟨k, hk.succ ho⟩

theorem replies_succ (t : TriggerTrace) (hkn : k ≤ n) :
    t.replies k (n + 1) = t.replies k n + if t.reply n then 1 else 0 := by
  rw [replies, replies, Nat.succ_sub hkn, List.range'_1_concat, List.countP_append, Nat.add_sub_cancel' hkn,
    List.countP_singleton]

theorem mem_openSpan {i : ℕ} : i ∈ t.openSpan k n ↔ (k ≤ i ∧ i < n) ∧ (i = k ∨ t.active i = true) := Iff.rfl

theorem openSpan_succ_of_active (hkn : k ≤ n) (hactive : t.active n = true) :
    t.openSpan k (n + 1) = insert n (t.openSpan k n) := by
  ext i
  rw [Set.mem_insert_iff, mem_openSpan, mem_openSpan]
  constructor
  · rintro ⟨hi, hopen⟩
    by_cases hin : i = n
    · exact Or.inl hin
    · exact Or.inr ⟨by omega, hopen⟩
  · rintro (rfl | ⟨hi, hopen⟩)
    · exact ⟨by omega, Or.inr hactive⟩
    · exact ⟨by omega, hopen⟩

theorem openSpan_succ_of_idle (hkn : k < n) (hidle : t.active n = false) :
    t.openSpan k (n + 1) = t.openSpan k n := by
  ext i
  rw [mem_openSpan, mem_openSpan]
  refine and_congr_left fun hopen => ?_
  have hin : i ≠ n := by
    rintro rfl
    rcases hopen with rfl | hopen
    · exact absurd hkn (Nat.lt_irrefl i)
    · rw [hidle] at hopen
      cases hopen
  omega

/-- The greatest of some values and one more. -/
theorem isGreatest_insert {α : Type} [LE α] [LT α] [DecidableLT α] {s : Set α} {m x : α} (h : IsGreatest s m)
    (hx : x ≤ x) (hle : ¬ m < x → x ≤ m) (hlt : m < x → m ≤ x) (htrans : ∀ y, y ≤ m → m ≤ x → y ≤ x) :
    IsGreatest (insert x s) (if m < x then x else m) := by
  split
  · rename_i hmx
    refine ⟨Set.mem_insert x s, ?_⟩
    rintro y (rfl | hy)
    · exact hx
    · exact htrans y (h.2 hy) (hlt hmx)
  · rename_i hmx
    refine ⟨Set.mem_insert_of_mem x h.1, ?_⟩
    rintro y (rfl | hy)
    · exact hle hmx
    · exact h.2 hy

/-- The time of one more sample is counted. -/
theorem isGreatest_latest {d : Detection} (hkn : k ≤ n) (h : IsGreatest (t.time '' Set.Ico k n) d.latest) :
    IsGreatest (t.time '' Set.Ico k (n + 1)) (d.reach (t.time n)).latest := by
  have hset : Set.Ico k (n + 1) = insert n (Set.Ico k n) := by
    ext i
    rw [Set.mem_insert_iff, Set.mem_Ico, Set.mem_Ico]
    omega
  rw [hset, Set.image_insert_eq, Detection.latest_reach]
  exact isGreatest_insert h (Int64.le_refl _) Int64.not_lt.mp Int64.le_of_lt fun y => Int64.le_trans

/-- The first sample sums up itself. -/
theorem sums_start (hreply : t.reply k = true) (hnumber : t.ratio k ≤ t.ratio k) :
    t.Sums k (k + 1) (Detection.start station (t.time k) (t.ratio k)) where
  pWave := rfl
  updates := by
    rw [replies_succ t (Nat.le_refl k), hreply, replies, Nat.sub_self]
    rfl
  latest := by
    refine ⟨⟨k, ⟨Nat.le_refl k, Nat.lt_succ_self k⟩, rfl⟩, ?_⟩
    rintro _ ⟨i, ⟨hki, hik⟩, rfl⟩
    rw [Nat.le_antisymm (Nat.lt_succ_iff.mp hik) hki]
    exact Int64.le_refl _
  maxRatio := by
    have hstart : (Detection.start station (t.time k) (t.ratio k)).maxRatio.toFloat = t.ratio k :=
      Double.toFloat_ofFloat _
    refine ⟨⟨k, ⟨⟨Nat.le_refl k, Nat.lt_succ_self k⟩, Or.inl rfl⟩, hstart.symm⟩, ?_⟩
    rintro _ ⟨i, ⟨⟨hki, hik⟩, -⟩, rfl⟩
    rw [Nat.le_antisymm (Nat.lt_succ_iff.mp hik) hki]
    exact hstart.symm ▸ hnumber

/-- A sample that comes while the detection is open is summed up. -/
theorem Sums.record {d : Detection} (h : t.Sums k n d) (hkn : k ≤ n) (hactive : t.active n = true)
    (hnumber : t.ratio n ≤ t.ratio n) (hreply : t.reply n = (d.record (t.time n) (t.ratio n)).2) :
    t.Sums k (n + 1) (d.record (t.time n) (t.ratio n)).1 where
  pWave := (d.pWave_record _ _).trans h.pWave
  updates := by
    rw [Detection.updates_record, ← hreply, replies_succ t hkn, UInt64.ofNat_add, ← h.updates]
    split
    · rfl
    · exact (UInt64.add_zero _).symm
  latest := by
    rw [Detection.latest_record]
    exact isGreatest_latest hkn h.latest
  maxRatio := by
    have hmax : d.maxRatio.toFloat ≤ d.maxRatio.toFloat := h.maxRatio.2 h.maxRatio.1
    rw [openSpan_succ_of_active hkn hactive, Set.image_insert_eq, Detection.toFloat_maxRatio_record]
    exact isGreatest_insert h.maxRatio hnumber (Number.le_of_not_lt hnumber hmax) Number.le_of_lt
      fun y => Number.le_trans

/-- Of a sample that comes after the closing, only the time is. -/
theorem Sums.reach {d : Detection} (h : t.Sums k n d) (hkn : k < n) (hidle : t.active n = false)
    (hreply : t.reply n = false) : t.Sums k (n + 1) (d.reach (t.time n)) where
  pWave := h.pWave
  updates := by
    rw [replies_succ t hkn.le, hreply]
    exact h.updates
  latest := isGreatest_latest hkn.le h.latest
  maxRatio := by
    rw [openSpan_succ_of_idle hkn hidle]
    exact h.maxRatio

/-- The latest detection sums up all samples since the last opening. -/
theorem Runs.sums (h : t.Runs station warm) (ho : t.OpenedLast k n) :
    ∃ d, t.detection n = some d ∧ t.Sums k n d := by
  obtain ⟨hkn, hopens, hlast⟩ := ho
  induction n, hkn using Nat.le_induction with
  | base =>
    obtain ⟨hd, hreply⟩ := h.opened hopens
    exact ⟨_, hd, sums_start hreply (h.number k)⟩
  | succ n hkn ih =>
    obtain ⟨d, hd, hsums⟩ := ih fun i hki hin => hlast i hki (Nat.lt_succ_of_lt hin)
    cases h.event n with
    | records e hactive he hd' hreply =>
      rw [hd] at he
      cases he
      exact ⟨_, hd', hsums.record (Nat.le_of_lt hkn) hactive (h.number n) hreply⟩
    | drops hactive hnone => exact absurd hnone (h.not_missing hactive)
    | opens hidle _ _ hnext => exact absurd ⟨hidle, hnext⟩ (hlast n hkn (Nat.lt_succ_self n))
    | rests hidle _ _ hd' hreply =>
      rw [hd] at hd'
      exact ⟨_, hd', hsums.reach hkn hidle hreply⟩

/-- What samples do one by one makes all of it hold. -/
theorem Runs.lawful {sampleRate : Float}
    (h : t.Runs station fun n => (UInt64.ofNat (n + 1)).toFloat ≥ sampleRate * 30.0) :
    t.Lawful station sampleRate where
  present _ := h.present
  reply_iff _ := h.reply_iff
  unchanged _ := h.unchanged
  opens_iff _ := h.opens_iff
  opened _ ho := (h.opened ho).1
  closes_iff _ := h.closes_iff
  active_iff _ _ := h.active_iff
  between _ _ := exists_closes_between
  long_rests _ _ := h.long_rests
  opened_before _ _ := h.opened_before
  sums _ _ := h.sums

end TriggerTrace

/-! ## Triggers -/

namespace Trigger

variable {trigger : Trigger} {station : Station} {warm : Bool} {time : Int64} {ratio : Float}

theorem step_active (h : trigger.active = true) {d : Detection} (hd : trigger.detection = some d) :
    trigger.step station warm time ratio =
      ({ detection := some (d.record time ratio).1, active := !decide (ratio < releaseRatio) },
        (d.record time ratio).2) := by
  simp only [step, h, hd, if_true]

theorem step_missing (h : trigger.active = true) (hd : trigger.detection = none) (station : Station) (warm : Bool)
    (time : Int64) (ratio : Float) :
    trigger.step station warm time ratio = ({ detection := none, active := false }, false) := by
  simp only [step, h, hd, if_true]

theorem step_opens (h : trigger.active = false) (hopen : warm = true ∧ ratio > openRatio) :
    trigger.step station warm time ratio =
      ({ detection := some (Detection.start station time ratio), active := true }, true) := by
  simp [step, h, hopen]

theorem step_rests (h : trigger.active = false) (hquiet : ¬ (warm = true ∧ ratio > openRatio)) (station : Station)
    (time : Int64) :
    trigger.step station warm time ratio =
      ({ detection := trigger.detection.map (·.reach time), active := false }, false) := by
  have hquiet' : (warm && decide (ratio > openRatio)) = false := by simpa using hquiet
  simp only [step, h, hquiet', Bool.false_eq_true, if_false]

end Trigger

/-! ## Monitors -/

namespace Monitor

variable {station : Station} {sampleRate seconds : Float} {server : Bool} {m : Monitor}

/-- The monitor after the first `n` of some samples. -/
def after (m : Monitor) (samples : ℕ → Int64 × Int32) : ℕ → Monitor
  | 0 => m
  | n + 1 => ((m.after samples n).ingest (samples n).1 (samples n).2).1

/-- What is seen of a monitor that takes in samples. -/
def trace (m : Monitor) (samples : ℕ → Int64 × Int32) : TriggerTrace where
  active n := (m.after samples n).isTriggered
  detection n := (m.after samples n).detection?
  long n := (m.after samples n).averages.long
  time n := (samples n).1
  ratio n := (m.after samples (n + 1)).ratio
  reply n := ((m.after samples n).ingest (samples n).1 (samples n).2).2

/-- What stays or is kept in range by every sample, the count of samples included. -/
structure Counts (station : Station) (sampleRate : Float) (m : Monitor) (n : ℕ) : Prop where
  station : m.station = station
  sampleRate : m.sampleRate = sampleRate
  samples : m.averages.samples = UInt64.ofNat n
  bounded : m.averages.Bounded

theorem Counts.ingest {n : ℕ} (h : m.Counts station sampleRate n) (time : Int64) (raw : Int32) :
    (m.ingest time raw).1.Counts station sampleRate (n + 1) where
  station := h.station
  sampleRate := h.sampleRate
  samples := by
    rw [UInt64.ofNat_add, ← h.samples]
    rfl
  bounded := h.bounded.add _ _ raw

/-- What a sample does to the trigger. -/
theorem ingest_eq_step (m : Monitor) (time : Int64) (raw : Int32) :
    let warm := decide ((m.ingest time raw).1.averages.samples.toFloat ≥ m.sampleRate * 30.0)
    ((m.ingest time raw).1.trigger, (m.ingest time raw).2) =
      m.trigger.step m.station warm time (m.ingest time raw).1.ratio := rfl

theorem long_ingest (m : Monitor) (time : Int64) (raw : Int32) (h : m.isTriggered = true) :
    (m.ingest time raw).1.averages.long = m.averages.long := by
  have hlong : (m.ingest time raw).1.averages.long = (m.averages.add m.sampleRate m.isTriggered _).1.long := rfl
  rw [hlong, h]
  rfl

/-- Every sample does one of these things. -/
theorem Counts.event {samples : ℕ → Int64 × Int32} {n : ℕ} (h : (m.after samples n).Counts station sampleRate n) :
    (m.trace samples).Event station (fun n => (UInt64.ofNat (n + 1)).toFloat ≥ sampleRate * 30.0) n := by
  have hstep := ingest_eq_step (m.after samples n) (samples n).1 (samples n).2
  simp only [h.station, h.sampleRate, (h.ingest (samples n).1 (samples n).2).samples] at hstep
  cases hactive : (m.after samples n).trigger.active with
  | true =>
    cases hd : (m.after samples n).trigger.detection with
    | none =>
      have hdrops := hstep.trans (Trigger.step_missing hactive hd station _ _ _)
      have htrigger := congrArg Prod.fst hdrops
      exact .drops hactive hd (congrArg Trigger.active htrigger) (congrArg Trigger.detection htrigger)
        (congrArg Prod.snd hdrops)
    | some d =>
      have hrecords := hstep.trans (Trigger.step_active hactive hd)
      have htrigger := congrArg Prod.fst hrecords
      have hlong := long_ingest (m.after samples n) (samples n).1 (samples n).2 hactive
      exact .records d hactive hd (congrArg Trigger.detection htrigger) (congrArg Prod.snd hrecords)
        (congrArg Trigger.active htrigger) hlong
  | false =>
    by_cases hopen : (UInt64.ofNat (n + 1)).toFloat ≥ sampleRate * 30.0 ∧ (m.trace samples).ratio n > 4.5
    · have hopens := hstep.trans (Trigger.step_opens hactive ⟨decide_eq_true hopen.1, hopen.2⟩)
      have htrigger := congrArg Prod.fst hopens
      exact .opens hactive hopen.1 hopen.2 (congrArg Trigger.active htrigger) (congrArg Trigger.detection htrigger)
        (congrArg Prod.snd hopens)
    · have hquiet : ¬ (decide _ = true ∧ _) := fun hwarm => hopen ⟨of_decide_eq_true hwarm.1, hwarm.2⟩
      have hrests := hstep.trans (Trigger.step_rests hactive hquiet station (samples n).1)
      have htrigger := congrArg Prod.fst hrests
      exact .rests hactive hopen (congrArg Trigger.active htrigger) (congrArg Trigger.detection htrigger)
        (congrArg Prod.snd hrests)

theorem counts_after (h : m.Counts station sampleRate 0) (samples : ℕ → Int64 × Int32) :
    ∀ n, (m.after samples n).Counts station sampleRate n
  | 0 => h
  | n + 1 => (counts_after h samples n).ingest _ _

/-- A new monitor has counted no sample and detected nothing. -/
theorem create_eq (h : create station sampleRate seconds server = .ok m) :
    m.Counts station sampleRate 0 ∧ m.trigger = {} := by
  unfold create at h
  cases hr : Ring.create sampleRate seconds server with
  | error e =>
    rw [hr] at h
    cases h
  | ok ring =>
    rw [hr] at h
    cases h
    exact ⟨⟨rfl, rfl, rfl, Averages.bounded_start⟩, rfl⟩

/-- What is seen of a monitor from its first sample on is lawful, whatever samples come in at whatever times. -/
theorem trace_lawful (h : create station sampleRate seconds server = .ok m) (samples : ℕ → Int64 × Int32) :
    (m.trace samples).Lawful station sampleRate := by
  obtain ⟨hcounts, hidle⟩ := create_eq h
  have hafter := counts_after hcounts samples
  exact TriggerTrace.Runs.lawful {
    idle := congrArg Trigger.active hidle
    none := congrArg Trigger.detection hidle
    event := fun n => (hafter n).event
    number := fun n => (hafter (n + 1)).bounded.ratio }

/-- A shock after thirty quiet seconds, with a sample every five seconds. -/
def shock (n : ℕ) : Int64 × Int32 := (5000 * Int64.ofNat n, if n = 6 then 100 else 0)

/-- A station that takes a sample every five seconds. -/
def slow : Monitor where
  station := { id := ⟨1⟩, network := "", code := "", place := ⟨0.0, 0.0⟩, elevation := 0.0 }
  ring := Ring.empty 0.2 false 1
  sampleRate := 0.2
  averages := Averages.start
  trigger := {}

theorem create_slow : create slow.station 0.2 5 false = .ok slow := by
  have hcount : Ring.slotCount (0.2 : Float) 5 = .ok 1 :=
    Ring.slotCount_eq (by decide +kernel) (by decide +kernel) (by decide)
  rw [create, Ring.create, hcount]
  rfl

theorem shock_opens : (slow.trace shock).Opens 6 := by
  have hidle : (slow.trace shock).active 6 = false := by decide +kernel
  have hactive : (slow.trace shock).active (6 + 1) = true := by decide +kernel
  exact ⟨hidle, hactive⟩

theorem shock_closes : (slow.trace shock).Closes 8 := by
  have hactive : (slow.trace shock).active 8 = true := by decide +kernel
  have hidle : (slow.trace shock).active (8 + 1) = false := by decide +kernel
  exact ⟨hactive, hidle⟩

/-- The shock opens a detection, which is released ten seconds later. -/
theorem trace_lawful_shock : create slow.station 0.2 5 false = .ok slow ∧
    (slow.trace shock).Lawful slow.station 0.2 ∧ (slow.trace shock).Opens 6 ∧ (slow.trace shock).Closes 8 :=
  ⟨create_slow, trace_lawful create_slow shock, shock_opens, shock_closes⟩

end Monitor

end Tremor
