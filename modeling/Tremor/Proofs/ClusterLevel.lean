import Mathlib.Data.List.Nodup
import Mathlib.Logic.Relation
import Mathlib.Order.Bounds.Defs
import Mathlib.Tactic.SplitIfs
import Tremor.Proofs.DirtyCheck
import Tremor.Proofs.DoubleParts

/-!
# The level of a cluster

The level of a cluster is the highest one whose condition on the ratios of the valid detections holds. Each condition
asks for many detections with high ratios, so the level does not fall when a station is added or when a detection goes
on, since the greatest ratio of a detection only grows.

- `Merits` : the condition of each level
- `isGreatest_levelFor` : the level is the highest one that is merited
- `Gains` : a detection of a further station, or a further sample of one
- `Gains.countFrom_le` : what one gain does to the numbers of detections
- `level_mono` : no gains lower the level
-/

namespace Tremor

/-- A sample does not lower the greatest ratio. -/
theorem Detection.le_maxRatio_record {d : Detection} {x : Float} (h : x ≤ d.maxRatio.toFloat) (time : Int64) (ratio : Float) :
    x ≤ (d.record time ratio).1.maxRatio.toFloat := by
  unfold record
  simp only
  split
  · rw [Double.toFloat_ofFloat]
    exact Number.le_trans h (Number.le_of_lt ‹_›)
  · exact h

theorem Detection.station_record (d : Detection) (time : Int64) (ratio : Float) :
    (d.record time ratio).1.station = d.station := by
  unfold record
  simp only
  split <;> rfl

theorem Detection.valid_record (d : Detection) (time : Int64) (ratio : Float) :
    (d.record time ratio).1.valid = d.valid := by
  unfold record
  simp only
  split <;> rfl

namespace Cluster

variable {c c' : Cluster} {g : Geodesy} {root : Point}

/-! ## The highest level -/

/-- The condition of each level on the ratios of detections. -/
def Merits (ds : List Detection) : ℕ → Prop
  | 0 => True
  | 1 => 8 < countFrom 128.0 ds ∨ 3 < countFrom 1024.0 ds
  | 2 => 6 < countFrom 1024.0 ds ∨ 3 < countFrom 8192.0 ds
  | 3 => 4 < countFrom 8192.0 ds ∨ 3 ≤ countFrom 32768.0 ds
  | 4 => 3 < countFrom 32768.0 ds
  | _ + 5 => False

/-- The level is the highest one whose condition holds. -/
theorem isGreatest_levelFor (ds : List Detection) : IsGreatest {level | Merits ds level} (levelFor ds) := by
  constructor
  · show Merits ds (levelFor ds)
    unfold levelFor levelOf
    split
    · assumption
    split
    · assumption
    split
    · assumption
    split
    · assumption
    · trivial
  · intro level hlevel
    change Merits ds level at hlevel
    unfold levelFor levelOf
    match level, hlevel with
    | 0, _ => exact Nat.zero_le _
    | 1, h | 2, h | 3, h | 4, h =>
      simp only [Merits] at h
      split_ifs <;> omega

/-- More detections with high ratios do not lower the level. -/
theorem levelFor_mono {ds es : List Detection} (h : ∀ ratio, countFrom ratio ds ≤ countFrom ratio es) :
    levelFor ds ≤ levelFor es := by
  have h128 := h 128.0
  have h1024 := h 1024.0
  have h8192 := h 8192.0
  have h32768 := h 32768.0
  unfold levelFor levelOf
  split_ifs <;> omega

/-! ## Gains -/

/-- What a cluster gains: the detection of a further station, or a further sample of one that it has. -/
inductive Gains : Cluster → Cluster → Prop
  | assign {c : Cluster} {d : Detection} (hnew : c.contains d.station = false) : Gains c (c.assign d)
  | record {c : Cluster} {d : Detection} (hd : d ∈ c.assigned) (time : Int64) (ratio : Float) :
      Gains c (c.assign (d.record time ratio).1)

theorem Gains.root_eq (h : Gains c c') : c'.root = c.root := by
  cases h <;> rfl

theorem countFrom_valid (ratio : Float) (c : Cluster) :
    countFrom ratio c.valid = c.assigned.countP fun d => decide (d.maxRatio.toFloat ≥ ratio) && d.valid :=
  List.countP_filter

/-- After a gain, no fewer valid detections have at least a ratio. -/
theorem Gains.countFrom_le (h : Gains c c') (ratio : Float) :
    countFrom ratio c.valid ≤ countFrom ratio c'.valid := by
  rw [countFrom_valid, countFrom_valid]
  cases h with
  | @assign d hnew =>
    rw [assigned_assign, hnew, if_neg Bool.false_ne_true, List.countP_append]
    exact Nat.le_add_right _ _
  | @record d hd time r =>
    have hold : c.contains (d.record time r).1.station = true :=
      List.any_eq_true.mpr ⟨d, hd, beq_iff_eq.mpr (d.station_record time r).symm⟩
    rw [assigned_assign, hold, if_pos rfl, List.countP_map]
    refine List.countP_mono_left fun e he hp => ?_
    simp only [Function.comp]
    split
    · -- no other detection is of the station that goes on
      rename_i hsame
      have heq : e = d := List.inj_on_of_nodup_map c.distinct he hd ((eq_of_beq hsame).trans (d.station_record time r))
      subst heq
      obtain ⟨hratio, hvalid⟩ := Bool.and_eq_true_iff.mp hp
      rw [Detection.valid_record, hvalid, Bool.and_true, decide_eq_true_eq]
      exact Detection.le_maxRatio_record (of_decide_eq_true hratio) time r
    · exact hp

/-! ## Runs of gains -/

theorem level_measure (hroot : c.root = some root) (g : Geodesy) : (c.measure g).level = levelFor c.valid := by
  rw [measure, hroot]

/-- Along a run of gains, the root stays and no count falls. -/
theorem countFrom_le_of_gains (h : Relation.ReflTransGen Gains c c') :
    c'.root = c.root ∧ ∀ ratio, countFrom ratio c.valid ≤ countFrom ratio c'.valid := by
  induction h with
  | refl => exact ⟨rfl, fun _ => Nat.le_refl _⟩
  | tail _ hgain ih =>
    obtain ⟨hroot, hle⟩ := ih
    exact ⟨hgain.root_eq.trans hroot, fun ratio => (hle ratio).trans (hgain.countFrom_le ratio)⟩

/-- In a cluster with a root, the level that is recomputed is the highest one whose condition on the valid detections
holds, and neither further stations nor further samples of those that there are lower it. -/
theorem level_mono (hroot : c.root = some root) (g : Geodesy) :
    IsGreatest {level | Merits c.valid level} (c.measure g).level ∧
      ∀ c', Relation.ReflTransGen Gains c c' → (c.measure g).level ≤ (c'.measure g).level := by
  rw [level_measure hroot]
  refine ⟨isGreatest_levelFor c.valid, fun c' hgains => ?_⟩
  obtain ⟨hroot', hle⟩ := countFrom_le_of_gains hgains
  rw [level_measure (hroot'.trans hroot)]
  exact levelFor_mono hle

/-- A detection of a station with a number. -/
def loud (number : UInt32) (ratio : Float) : Detection :=
  { station := ⟨number⟩, place := ⟨35.0, 139.0⟩, elevation := 0.0, pWave := 0, maxRatio := .ofFloat ratio
    updates := 1, valid := true, latest := 0 }

/-- A cluster with three detections of at least 1024, and one of a little less. -/
def nearlyFour : Cluster :=
  { id := ⟨1⟩, detections := { list := [loud 1 1024.0, loud 2 2048.0, loud 3 9000.0, loud 4 1000.0] }
    root := some ⟨35.0, 139.0⟩ }

/-- When the fourth one goes on to 1500, the level rises from 0 to 1. -/
theorem level_mono_nearlyFour : nearlyFour.root = some ⟨35.0, 139.0⟩ ∧
    (nearlyFour.measure .sphere).level = 0 ∧
      (nearlyFour.measure .sphere).level ≤
        ((nearlyFour.assign ((loud 4 1000.0).record 50 1500.0).1).measure .sphere).level ∧
      ((nearlyFour.assign ((loud 4 1000.0).record 50 1500.0).1).measure .sphere).level = 1 := by
  have hmem : loud 4 1000.0 ∈ nearlyFour.assigned := by simp [assigned, nearlyFour]
  refine ⟨rfl, by decide, ?_, by decide⟩
  exact (level_mono rfl .sphere).2 _ (.single (.record hmem 50 1500.0))

end Cluster

end Tremor
