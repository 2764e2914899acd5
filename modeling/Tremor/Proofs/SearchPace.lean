import Mathlib.Data.Nat.Log
import Tremor.Proofs.IdlePasses

/-!
# The pace of searches

A large cluster with a quake is searched again only when it has a fifth more picks than at the last report. The number
of picks for the next report is set as soon as a pass is not put off, and nothing but such a pass changes it: not the
passes over a smaller cluster, or over one without a quake, nor what happens to the detections in between. So the
numbers of picks at the reports grow by a fifth each time.

- `Visit`, `visits` : the passes of a run as they are seen from outside
- `pass_pace` : what a pass does to the number of picks for the next report
- `Paced`, `paced_visits` : along every run, a report comes after a fifth more picks
- `length_le_log` : few numbers grow that fast
- `reports_grow` : the reports of a run
-/

namespace Tremor

/-- The pass was put off until there are more picks. -/
def Outcome.isBackoff : Outcome → Bool
  | skipped .backoff => true
  | _ => false

theorem Outcome.isBackoff_of_not_isIdle {o : Outcome} (h : o.isIdle = false) : o.isBackoff = false := by
  cases o with
  | skipped reason => cases reason <;> first | rfl | cases h
  | rejected | committed | discarded => rfl

namespace Cluster

open Number

variable {c c' : Cluster} {d : Detector} {g : Geodesy} {now : Int64} {k : Catalog} {s : Solution}

/-! ## Passes from outside -/

/-- A pass over a cluster: whether that had a quake when the pass began, how many picks it had, and what came of it. -/
structure Visit where
  linked : Bool
  picks : ℕ
  outcome : Outcome

/-- A pass over a large cluster with a quake that was not put off. -/
def Visit.reports (v : Visit) : Bool := v.linked && decide (24 ≤ v.picks) && !v.outcome.isBackoff

/-- A pass over a cluster at a time. -/
def visit (d : Detector) (now : Int64) (c : Cluster) (k : Catalog) : Visit :=
  { linked := c.quake.isSome, picks := c.picks.length, outcome := (c.pass d now k).1 }

/-- The passes among some events. -/
def visits (d : Detector) : List Event → Cluster × Catalog → List Visit
  | [], _ => []
  | .pass now :: es, (c, k) => visit d now c k :: visits d es (c.pass d now k).2
  | .edit e :: es, (c, k) => visits d es (c.edit d.locator.geodesy e, k)
  | .others change :: es, (c, k) => visits d es (c, change k)

/-- What came of the passes is what follows from the events. -/
theorem map_outcome_visits (d : Detector) (es : List Event) (state : Cluster × Catalog) :
    (visits d es state).map (·.outcome) = (follow d es state).1 := by
  induction es generalizing state with
  | nil => rfl
  | cons e es ih =>
    obtain ⟨c, k⟩ := state
    cases e with
    | pass now => exact congrArg _ (ih _)
    | edit e => exact ih _
    | others change => exact ih _

/-! ## One pass -/

theorem nextReport_edit (g : Geodesy) (c : Cluster) (e : Edit) : (c.edit g e).nextReport = c.nextReport := by
  have hroot : ∀ c : Cluster, c.findRoot.nextReport = c.nextReport := by
    intro c
    simp only [findRoot]
    split <;> rfl
  have hmeasure : ∀ c : Cluster, (c.measure g).nextReport = c.nextReport := by
    intro c
    simp only [measure]
    split <;> rfl
  cases e with
  | assign | unassign | anchorAt | resetAnchor => rfl
  | findRoot => exact hroot c
  | tick =>
    simp only [edit, tick]
    split
    · rfl
    · simp only [hmeasure]
      split
      · exact hroot _
      · rfl

/-- A solution that is settled leaves the number of picks for the next report. -/
theorem nextReport_settle (c : Cluster) (d : Detector) (anchor : Point) (s : Solution) (now : Int64) (k : Catalog) :
    (c.settle d anchor s now k).2.1.nextReport = c.nextReport := by
  unfold settle
  split
  · obtain ⟨anchor', ha⟩ := followDrift_cases c d.locator.geodesy anchor s.hypocenter
    rw [ha]
    simp only [commit]
    split
    · split <;> rfl
    · rfl
  · rfl

/-- After the picks for the next report were counted, a preparation leaves their number. -/
theorem prepare_of_schedule (hne : c.assigned.isEmpty = false) (h : c.schedule = some c') (g : Geodesy) :
    (c.prepare g).1.nextReport = c'.nextReport ∧ (c.prepare g).2 ≠ .error .backoff := by
  simp only [prepare, hne, Bool.false_eq_true, if_false, h]
  split
  · exact ⟨rfl, by simp⟩
  · obtain ⟨selected, hc, -⟩ := selectPicks_cases { c' with searchedAt := c'.updateCount } g
    refine ⟨by rw [hc], fun he => ?_⟩
    have hidle := selectPicks_not_idle (Prod.ext rfl he)
    cases hidle

/-- What is prepared is the number of picks for the next report after the pass, which is not put off then. -/
theorem pass_of_not_backoff (h : (c.prepare d.locator.geodesy).2 ≠ .error .backoff) (now : Int64) (k : Catalog) :
    (c.pass d now k).2.1.nextReport = (c.prepare d.locator.geodesy).1.nextReport ∧
      (c.pass d now k).1.isBackoff = false := by
  unfold pass
  generalize c.prepare d.locator.geodesy = prepared at h
  obtain ⟨c', result⟩ := prepared
  cases result with
  | error reason =>
    refine ⟨rfl, ?_⟩
    cases reason <;> first | rfl | exact absurd rfl h
  | ok task =>
    simp only
    split
    · rename_i condition best _
      cases best <;> exact ⟨rfl, rfl⟩
    · rename_i s _
      exact ⟨nextReport_settle c' d task.anchor s now k, Outcome.isBackoff_of_not_isIdle (settle_not_idle ..)⟩

theorem reports_visit (d : Detector) (now : Int64) (c : Cluster) (k : Catalog) :
    (visit d now c k).reports = (c.backsOff && !(c.pass d now k).1.isBackoff) := by
  simp only [Visit.reports, visit, length_picks]
  rfl

/-- A report comes when it is due, and sets the number of picks for the next one. Any other pass leaves that number. -/
theorem pass_pace (d : Detector) (now : Int64) (c : Cluster) (k : Catalog) :
    ((visit d now c k).reports = true → c.nextReport ≤ c.picks.length ∧ 24 ≤ c.picks.length ∧
        (c.pass d now k).2.1.nextReport = c.picks.length * 6 / 5) ∧
      ((visit d now c k).reports = false → (c.pass d now k).2.1.nextReport = c.nextReport) := by
  rw [reports_visit, length_picks]
  by_cases hr : c.Reschedules
  · obtain ⟨hnext, hresult⟩ :=
      prepare_of_schedule (isEmpty_of_backsOff hr.1) (schedule_of_reschedules hr) d.locator.geodesy
    obtain ⟨hpass, hoff⟩ := pass_of_not_backoff hresult now k
    rw [hoff, hr.1]
    exact ⟨fun _ => ⟨hr.2, backoffStart_le hr.1, (hpass.trans hnext).trans c.nextReportAfter_length⟩,
      fun h => by cases h⟩
  · cases hb : c.backsOff with
    | true =>
      -- the report is not due yet
      have hlt : c.assigned.length < c.nextReport := Nat.lt_of_not_le fun hle => hr ⟨hb, hle⟩
      have hprepare : c.prepare d.locator.geodesy = (c, .error .backoff) := by
        simp only [prepare, isEmpty_of_backsOff hb, Bool.false_eq_true, if_false, schedule, hb, if_true, if_pos hlt]
      rw [pass_of_prepare hprepare]
      exact ⟨fun h => (by cases h), fun _ => rfl⟩
    | false =>
      refine ⟨fun h => (by cases h), fun _ => ?_⟩
      cases hne : c.assigned.isEmpty with
      | true =>
        have hprepare : c.prepare d.locator.geodesy = (c, .error .noPicks) := by
          simp only [prepare, hne, if_true]
        rw [pass_of_prepare hprepare]
      | false =>
        have hschedule : c.schedule = some c := by
          simp only [schedule, hb, Bool.false_eq_true, if_false]
        obtain ⟨hnext, hresult⟩ := prepare_of_schedule hne hschedule d.locator.geodesy
        exact (pass_of_not_backoff hresult now k).1.trans hnext

/-! ## Runs -/

/-- The numbers of picks at the reports among some events. -/
def reportCounts (d : Detector) (es : List Event) (state : Cluster × Catalog) : List ℕ :=
  ((visits d es state).filter Visit.reports).map (·.picks)

/-- Reports at which large clusters have at least so many picks, and a fifth more each time. -/
structure Paced (least : ℕ) (counts : List ℕ) : Prop where
  least_le : ∀ n ∈ counts, least ≤ n
  large : ∀ n ∈ counts, 24 ≤ n
  grows : counts.Pairwise fun n m => n * 6 / 5 ≤ m

theorem paced_nil (least : ℕ) : Paced least [] := ⟨nofun, nofun, .nil⟩

/-- After a report, the next one comes with a fifth more picks. -/
theorem Paced.cons {least n : ℕ} {counts : List ℕ} (h : Paced (n * 6 / 5) counts) (hn : least ≤ n)
    (hlarge : 24 ≤ n) : Paced least (n :: counts) where
  least_le := by
    refine List.forall_mem_cons.mpr ⟨hn, fun m hm => ?_⟩
    have := h.least_le m hm
    omega
  large := List.forall_mem_cons.mpr ⟨hlarge, h.large⟩
  grows := List.pairwise_cons.mpr ⟨h.least_le, h.grows⟩

/-- Along every run, reports come no sooner than the cluster says. -/
theorem paced_visits (d : Detector) (es : List Event) (c : Cluster) (k : Catalog) :
    Paced c.nextReport (reportCounts d es (c, k)) := by
  induction es generalizing c k with
  | nil => exact paced_nil _
  | cons e es ih =>
    cases e with
    | pass now =>
      obtain ⟨hreport, hother⟩ := pass_pace d now c k
      have hrest := ih (c.pass d now k).2.1 (c.pass d now k).2.2
      simp only [reportCounts, visits, List.filter_cons] at hrest ⊢
      split
      · rename_i hv
        obtain ⟨hdue, hlarge, hnext⟩ := hreport hv
        rw [hnext] at hrest
        exact hrest.cons hdue hlarge
      · rename_i hv
        rw [hother (Bool.eq_false_iff.mpr hv)] at hrest
        exact hrest
    | edit e => exact nextReport_edit d.locator.geodesy c e ▸ ih (c.edit d.locator.geodesy e) k
    | others change => exact ih c (change k)

/-! ## Growth -/

/-- Numbers less four grow by a fifth, although a fifth is rounded down. -/
theorem six_mul_le {n m : ℕ} (h : n * 6 / 5 ≤ m) : 6 * (n - 4) ≤ 5 * (m - 4) := by
  omega

/-- Powers of a fifth more between the first number and a bound for all of them. -/
theorem pow_length_le {N : ℕ} : ∀ {n : ℕ} {counts : List ℕ},
    (n :: counts).Pairwise (fun n m => n * 6 / 5 ≤ m) → (∀ m ∈ n :: counts, m ≤ N) →
      6 ^ counts.length * (n - 4) ≤ 5 ^ counts.length * (N - 4)
  | n, [], _, hN => by
    have := hN n List.mem_cons_self
    simp only [List.length_nil, pow_zero, one_mul]
    omega
  | n, m :: counts, h, hN => by
    obtain ⟨hfirst, hrest⟩ := List.pairwise_cons.mp h
    have hgrow := six_mul_le (hfirst m List.mem_cons_self)
    have ih := pow_length_le hrest fun l hl => hN l (List.mem_cons_of_mem _ hl)
    calc 6 ^ (counts.length + 1) * (n - 4) = 6 ^ counts.length * (6 * (n - 4)) := by ring
      _ ≤ 6 ^ counts.length * (5 * (m - 4)) := Nat.mul_le_mul_left _ hgrow
      _ = 5 * (6 ^ counts.length * (m - 4)) := by ring
      _ ≤ 5 * (5 ^ counts.length * (N - 4)) := Nat.mul_le_mul_left _ ih
      _ = 5 ^ (counts.length + 1) * (N - 4) := by ring

/-- Four times a fifth more is more than twice as much. -/
theorem two_pow_mul_five_pow_le (i : ℕ) : 2 ^ (i / 4) * 5 ^ i ≤ 6 ^ i := by
  have hfour : 2 ^ (i / 4) * 5 ^ (4 * (i / 4)) ≤ 6 ^ (4 * (i / 4)) := by
    rw [pow_mul 5, pow_mul 6, ← mul_pow]
    exact Nat.pow_le_pow_left (by norm_num) _
  calc 2 ^ (i / 4) * 5 ^ i = 2 ^ (i / 4) * 5 ^ (4 * (i / 4)) * 5 ^ (i % 4) := by
        rw [mul_assoc, ← pow_add, Nat.div_add_mod]
    _ ≤ 6 ^ (4 * (i / 4)) * 6 ^ (i % 4) := Nat.mul_le_mul hfour (Nat.pow_le_pow_left (by norm_num) _)
    _ = 6 ^ i := by rw [← pow_add, Nat.div_add_mod]

/-- Only a logarithmic number of reports has no more picks than a bound. -/
theorem length_le_log {N least : ℕ} {counts : List ℕ} (h : Paced least counts) (hN : ∀ n ∈ counts, n ≤ N) :
    counts.length ≤ 4 * (Nat.log 2 (N / 20) + 1) := by
  cases counts with
  | nil => exact Nat.zero_le _
  | cons n counts =>
    have hlarge := h.large n List.mem_cons_self
    have hpow := pow_length_le h.grows hN
    have hfive : 0 < 5 ^ counts.length := by positivity
    have htwo : 2 ^ (counts.length / 4) * 20 ≤ N := by
      refine Nat.le_of_mul_le_mul_left ?_ hfive
      calc 5 ^ counts.length * (2 ^ (counts.length / 4) * 20)
          = 2 ^ (counts.length / 4) * 5 ^ counts.length * 20 := by ring
        _ ≤ 6 ^ counts.length * (n - 4) := Nat.mul_le_mul (two_pow_mul_five_pow_le _) (by omega)
        _ ≤ 5 ^ counts.length * (N - 4) := hpow
        _ ≤ 5 ^ counts.length * N := Nat.mul_le_mul_left _ (Nat.sub_le N 4)
    have hquotient : 2 ^ (counts.length / 4) ≤ N / 20 := (Nat.le_div_iff_mul_le (by decide)).mpr htwo
    have hlog : counts.length / 4 ≤ Nat.log 2 (N / 20) :=
      Nat.le_log_of_pow_le (by decide) hquotient
    rw [List.length_cons]
    omega

/-- Among the passes of any run over a cluster that were not put off although it had a quake and at least 24 picks, any
later one had a fifth more picks than an earlier one, which is more; so no two of them had the same number of picks, and
the number of those with at most `N` picks is logarithmic in `N`. -/
theorem reports_grow (d : Detector) (es : List Event) (c : Cluster) (k : Catalog) :
    let counts : List ℕ := ((visits d es (c, k)).filter fun v =>
      v.linked && decide (24 ≤ v.picks) && !v.outcome.isBackoff).map (·.picks)
    (visits d es (c, k)).map (·.outcome) = (follow d es (c, k)).1 ∧
      (counts.Pairwise fun n m : ℕ => ⌊(1.2 : ℚ) * n⌋₊ ≤ m ∧ n < ⌊(1.2 : ℚ) * n⌋₊) ∧
      (∀ n, counts.count n ≤ 1) ∧
      ∀ N, counts.countP (fun n => decide (n ≤ N)) ≤ 4 * (Nat.log 2 (N / 20) + 1) := by
  intro counts
  have hpaced : Paced c.nextReport counts := paced_visits d es c k
  have hgrows : counts.Pairwise fun n m : ℕ => ⌊(1.2 : ℚ) * n⌋₊ ≤ m ∧ n < ⌊(1.2 : ℚ) * n⌋₊ := by
    refine hpaced.grows.imp_of_mem fun {n m} hn _ hnm => ?_
    have hlarge := hpaced.large n hn
    rw [floor_growth]
    exact ⟨hnm, by omega⟩
  refine ⟨map_outcome_visits d es (c, k), hgrows, fun n => ?_, fun N => ?_⟩
  · have hnodup : counts.Nodup := hgrows.imp fun {n m} h => Nat.ne_of_lt (Nat.lt_of_lt_of_le h.2 h.1)
    exact List.nodup_iff_count_le_one.mp hnodup n
  · rw [List.countP_eq_length_filter]
    have hfew : Paced c.nextReport (counts.filter fun n => decide (n ≤ N)) :=
      ⟨fun n hn => hpaced.least_le n (List.mem_of_mem_filter hn),
        fun n hn => hpaced.large n (List.mem_of_mem_filter hn), hpaced.grows.filter _⟩
    exact length_le_log hfew fun n hn => of_decide_eq_true (List.mem_filter.mp hn).2

end Cluster

end Tremor
