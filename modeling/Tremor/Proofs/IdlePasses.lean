import Tremor.Proofs.PassChecks
import Tremor.Proofs.ReportGrowth
import Tremor.Proofs.Run

/-!
# Idle passes

A pass is idle when there are no picks, when the next search is not due yet, or when nothing has changed since the last
one. It leaves the catalog alone, and the cluster as well, with one exception: over a large cluster with a quake, the
number of picks for the next search is set before it turns out that nothing has changed. Later passes wait for that
number then, although nothing was searched in between.

- `Cluster.Reschedules` : the next search is due, and one more is scheduled
- `pass_of_prepare`, `prepare_idle` : an idle pass is decided by the cluster alone
- `Cluster.follow` : a cluster and the catalog through passes and changes
- `idle_passes` : what idle passes change, and that their number does not matter
- `idle_pass_postpones` : an idle pass can put off the next search
-/

namespace Tremor

/-- There was nothing to do for a pass. -/
def SkipReason.isIdle : SkipReason → Bool
  | noPicks | backoff | noNewPicks => true
  | _ => false

def Outcome.isIdle : Outcome → Bool
  | skipped reason => reason.isIdle
  | _ => false

namespace Cluster

variable {c c' : Cluster} {d : Detector} {g : Geodesy} {now : Int64} {k : Catalog} {reason : SkipReason}

/-! ## One idle pass -/

/-- The frequency of searches is limited, and the next search is due. -/
def Reschedules (c : Cluster) : Prop := c.backsOff = true ∧ c.nextReport ≤ c.assigned.length

instance (c : Cluster) : Decidable c.Reschedules := inferInstanceAs (Decidable (_ ∧ _))

/-- The cluster with the number of picks at which it is searched again. -/
def rescheduled (c : Cluster) : Cluster := { c with nextReport := nextReportAfter c.assigned.length }

theorem backoffStart_le (h : c.backsOff = true) : backoffStart ≤ c.assigned.length := by
  simp only [backsOff, Bool.and_eq_true, decide_eq_true_eq] at h
  exact h.2

theorem isEmpty_of_backsOff (h : c.backsOff = true) : c.assigned.isEmpty = false := by
  rw [List.isEmpty_eq_false_iff, ← List.length_pos_iff]
  exact Nat.lt_of_lt_of_le (by decide) (backoffStart_le h)

theorem schedule_of_reschedules (h : c.Reschedules) : c.schedule = some c.rescheduled := by
  rw [schedule, if_pos h.1, if_neg (Nat.not_lt.mpr h.2), rescheduled]

/-- Without a search that is due, nothing is scheduled. -/
theorem schedule_of_not_reschedules (h : ¬ c.Reschedules) : c.schedule = none ∨ c.schedule = some c := by
  unfold schedule
  split
  · rename_i hb
    refine Or.inl (if_pos (Nat.lt_of_not_le fun hle => h ⟨hb, hle⟩))
  · exact Or.inr rfl

/-- Once the next search was scheduled, it is not due yet. -/
theorem prepare_rescheduled (h : c.backsOff = true) (g : Geodesy) :
    c.rescheduled.prepare g = (c.rescheduled, .error .backoff) := by
  have hlarge := backoffStart_le h
  have hlt := lt_nextReportAfter hlarge
  have hschedule : c.rescheduled.schedule = none := by
    have hb : c.rescheduled.backsOff = true := h
    have hearly : c.rescheduled.assigned.length < c.rescheduled.nextReport := hlt
    rw [schedule, if_pos hb, if_pos hearly]
  have hne : c.rescheduled.assigned.isEmpty = false := isEmpty_of_backsOff h
  simp only [prepare, hne, Bool.false_eq_true, if_false, hschedule]

/-- A pass that is due selects picks when there is something new. -/
theorem prepare_of_reschedules (hr : c.Reschedules) (hnew : c.searchedAt ≠ c.updateCount) (g : Geodesy) :
    c.prepare g = selectPicks { c.rescheduled with searchedAt := c.updateCount } g := by
  have hne : c.assigned.isEmpty = false := isEmpty_of_backsOff hr.1
  simp only [prepare, hne, Bool.false_eq_true, if_false, schedule_of_reschedules hr]
  exact if_neg hnew

/-- Selecting picks is no idle pass. -/
theorem selectPicks_not_idle (h : c.selectPicks g = (c', .error reason)) : reason.isIdle = false := by
  unfold selectPicks at h
  simp only at h
  repeat' split at h
  all_goals cases h <;> rfl

/-- What an idle pass leaves of the cluster. -/
theorem prepare_idle (h : c.prepare g = (c', .error reason)) (hidle : reason.isIdle = true) :
    ¬ c.Reschedules ∧ c' = c ∨ c.Reschedules ∧ reason = .noNewPicks ∧ c' = c.rescheduled := by
  unfold prepare at h
  split at h
  · rename_i hempty
    cases h
    refine Or.inl ⟨fun hr => ?_, rfl⟩
    rw [isEmpty_of_backsOff hr.1] at hempty
    cases hempty
  · by_cases hr : c.Reschedules
    · rw [schedule_of_reschedules hr] at h
      simp only at h
      split at h
      · cases h
        exact Or.inr ⟨hr, rfl, rfl⟩
      · rw [selectPicks_not_idle h] at hidle
        cases hidle
    · refine Or.inl ⟨hr, ?_⟩
      rcases schedule_of_not_reschedules hr with hs | hs
      · rw [hs] at h
        cases h
        rfl
      · rw [hs] at h
        simp only at h
        split at h
        · cases h
          rfl
        · rw [selectPicks_not_idle h] at hidle
          cases hidle

/-- A pass that does not get as far as a search does not depend on the time and the catalog. -/
theorem pass_of_prepare (h : c.prepare d.locator.geodesy = (c', .error reason)) (now : Int64) (k : Catalog) :
    c.pass d now k = (.skipped reason, c', k) := by
  simp only [pass, h]

/-- A solution that is settled was searched for. -/
theorem settle_not_idle (c : Cluster) (d : Detector) (anchor : Point) (s : Solution) (now : Int64) (k : Catalog) :
    (c.settle d anchor s now k).1.isIdle = false := by
  unfold settle
  split
  · simp only [commit]
    split
    · split <;> rfl
    · rfl
  · rfl

/-- An idle pass has not got as far as a search. -/
theorem exists_prepare_of_idle (h : (c.pass d now k).1.isIdle = true) :
    ∃ c' reason, c.prepare d.locator.geodesy = (c', .error reason) ∧ reason.isIdle = true := by
  cases hp : c.prepare d.locator.geodesy with
  | mk c' result =>
    cases result with
    | error reason =>
      rw [pass_of_prepare hp] at h
      exact ⟨c', reason, rfl, h⟩
    | ok task =>
      simp only [pass, hp] at h
      split at h
      · cases h
      · rename_i s _
        rw [settle_not_idle c' d task.anchor s now k] at h
        cases h

/-! ## Idle passes among others -/

/-- A pass over a cluster, a change of it, or something that happens to the catalog. -/
inductive Event where
  | pass (now : Int64)
  | edit (e : Edit)
  | others (change : Catalog → Catalog)

/-- What comes of the passes among some events, and the cluster and the catalog after all of them. -/
def follow (d : Detector) : List Event → Cluster × Catalog → List Outcome × Cluster × Catalog
  | [], s => ([], s)
  | .pass now :: es, (c, k) =>
    let (outcome, s) := c.pass d now k
    let (outcomes, s) := follow d es s
    (outcome :: outcomes, s)
  | .edit e :: es, (c, k) => follow d es (c.edit d.locator.geodesy e, k)
  | .others change :: es, (c, k) => follow d es (c, change k)

/-- Passes without an effect at any time, before other events. -/
theorem follow_idle {outcome : Outcome} (h : ∀ now, c.pass d now k = (outcome, c, k)) (nows : List Int64)
    (es : List Event) :
    follow d (nows.map .pass ++ es) (c, k) =
      (List.replicate nows.length outcome ++ (follow d es (c, k)).1, (follow d es (c, k)).2) := by
  induction nows with
  | nil => rfl
  | cons now nows ih =>
    rw [List.map_cons, List.cons_append, follow, h]
    simp only [ih, List.length_cons, List.replicate_succ, List.cons_append]

/-- An idle pass changes nothing, and any number of them in its place changes nothing of what comes later, unless it
reschedules. A pass that finds no picks, or is not due, does not. One that finds nothing new and reschedules changes
the number of picks for the next search, and nothing else; then any number of further passes changes nothing more. -/
theorem idle_passes (h : (c.pass d now k).1.isIdle = true) :
    (¬ c.Reschedules → (c.pass d now k).2 = (c, k) ∧ ∀ (nows : List Int64) (es : List Event),
      follow d (nows.map .pass ++ es) (c, k) =
        (List.replicate nows.length (c.pass d now k).1 ++ (follow d es (c, k)).1, (follow d es (c, k)).2)) ∧
      (c.Reschedules → (c.pass d now k).1 = .skipped .noNewPicks ∧ (c.pass d now k).2 = (c.rescheduled, k) ∧
        c.nextReport < c.rescheduled.nextReport ∧ ∀ (nows : List Int64) (es : List Event),
          follow d (nows.map .pass ++ es) (c.rescheduled, k) =
            (List.replicate nows.length (.skipped .backoff) ++ (follow d es (c.rescheduled, k)).1,
              (follow d es (c.rescheduled, k)).2)) := by
  obtain ⟨c', reason, hp, hidle⟩ := exists_prepare_of_idle h
  have hpass := pass_of_prepare hp
  rw [hpass]
  rcases prepare_idle hp hidle with ⟨hno, rfl⟩ | ⟨hr, rfl, rfl⟩
  · exact ⟨fun _ => ⟨rfl, fun nows es => follow_idle (fun now => hpass now k) nows es⟩, fun hr => absurd hr hno⟩
  · refine ⟨fun hno => absurd hr hno, fun _ => ⟨rfl, rfl, ?_, fun nows es => ?_⟩⟩
    · exact Nat.lt_of_le_of_lt hr.2 (lt_nextReportAfter (backoffStart_le hr.1))
    · exact follow_idle (fun now => pass_of_prepare (prepare_rescheduled hr.1 d.locator.geodesy) now k) nows es

/-! ## A crowded cluster -/

/-- Thirty weak detections, of which a tick has seen the first 23, in a cluster with a quake. -/
def crowded : Cluster where
  id := ⟨1⟩
  detections :=
    { list := (List.range 30).map fun i => OneSecond.detection (UInt32.ofNat i) 0 0.0 10.0
      distinct := by decide +kernel }
  root := some ⟨0.0, 0.0⟩
  anchor := some ⟨0.0, 0.0⟩
  updateCount := 23
  searchedAt := 23
  quake := some ⟨1⟩

/-- A cluster without detections is left alone, a crowded one is scheduled once. -/
theorem idle_passes_crowded :
    let d := OneSecond.detector
    let k : Catalog := { bus := { capacity := 16 } }
    let c : Cluster := { id := ⟨1⟩ }
    (c.pass d 0 k).1.isIdle = true ∧ ¬ c.Reschedules ∧ (c.pass d 0 k).2 = (c, k) ∧
      (crowded.pass d 0 k).1.isIdle = true ∧ crowded.Reschedules ∧
      (crowded.pass d 0 k).2 = (crowded.rescheduled, k) := by
  intro d k c
  have hidle : (c.pass d 0 k).1.isIdle = true := rfl
  have hno : ¬ c.Reschedules := by decide
  have hcrowded : (crowded.pass d 0 k).1.isIdle = true := rfl
  have hr : crowded.Reschedules := by decide
  exact ⟨hidle, hno, ((idle_passes hidle).1 hno).1, hcrowded, hr, ((idle_passes hcrowded).2 hr).2.1⟩

/-- All the detections of a crowded cluster are too weak for a search. -/
theorem crowded_tooWeak :
    ((Selection.byRatio crowded.picks).getLast?.any fun p => decide (p.maxRatio.toFloat < minRatio)) = true := by
  have hsorted : Selection.byRatio crowded.picks = crowded.picks := List.mergeSort_of_pairwise (by decide +kernel)
  rw [hsorted]
  decide +kernel

theorem selectPicks_tooWeak
    (h : ((Selection.byRatio c.picks).getLast?.any fun p => decide (p.maxRatio.toFloat < minRatio)) = true) :
    c.selectPicks g = (c, .error .tooWeak) := by
  rw [selectPicks]
  exact if_pos h

/-- After a tick, a pass looks at the picks of the crowded cluster. -/
theorem prepare_crowded_tick (g : Geodesy) : ∃ c', (crowded.tick g).1.prepare g = (c', .error .tooWeak) := by
  have hcounted : crowded.updates ≠ crowded.updateCount := by decide
  have htick : (crowded.tick g).1 = measure { crowded with updateCount := crowded.updates } g := by
    rw [tick, if_neg hcounted]
    rfl
  have hr : Reschedules (measure { crowded with updateCount := crowded.updates } g) := by
    show crowded.Reschedules
    decide
  have hnew : crowded.searchedAt ≠ crowded.updates := by decide
  rw [htick, prepare_of_reschedules hr hnew]
  exact ⟨_, selectPicks_tooWeak crowded_tooWeak⟩

/-- A pass that finds nothing new makes the next one wait for more picks, which would otherwise have looked at the new
ones. -/
theorem idle_pass_postpones :
    let d := OneSecond.detector
    let k : Catalog := { bus := { capacity := 16 } }
    (crowded.pass d 0 k).1 = .skipped .noNewPicks ∧ (crowded.pass d 0 k).2.1.nextReport = 36 ∧
      crowded.nextReport = 0 ∧
      (follow d [.edit .tick, .pass 1] (crowded, k)).1 = [.skipped .tooWeak] ∧
      (follow d [.pass 0, .edit .tick, .pass 1] (crowded, k)).1 = [.skipped .noNewPicks, .skipped .backoff] := by
  intro d k
  obtain ⟨c', hweak⟩ := prepare_crowded_tick d.locator.geodesy
  refine ⟨rfl, rfl, rfl, ?_, rfl⟩
  simp only [follow, edit, pass_of_prepare hweak]

end Cluster

end Tremor
