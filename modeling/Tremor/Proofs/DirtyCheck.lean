import Mathlib.Algebra.Group.Nat.Defs
import Tremor.Cluster.Basic
import Tremor.Proofs.Doubles
import Tremor.Waveform.Monitor

/-!
# What a tick notices

A tick compares the sum of the updates of all detections with the sum at the last tick. Detections that come in the
place of others can have the same sum, and then the tick leaves size and level as they were. This cannot happen as long
as the detections only go on and get more between two ticks, or only get fewer.

- `Detection.Continues` : one detection after more samples
- `Grown`, `Grown.same` : the sum tells whether detections that only grew are the same
- `Cluster.Measured` : size and level are those of given detections
- `Watched.run` : what is done with a cluster, with the detections at the last tick
- `tick_notices` : what a tick notices after any run, and what size and level are then
-/

namespace Tremor

/-! ## Continued detections -/

namespace Detection

/-- The detection apart from the time of its newest sample. -/
def timeless (d : Detection) : Detection := { d with latest := d.pWave }

/-- Every change from `d` to `e` was counted as an update, but for the time of the newest sample. -/
structure Continues (d e : Detection) : Prop where
  station : e.station = d.station
  updates_le : d.updates.toNat ≤ e.updates.toNat
  kept : e.updates = d.updates → e.timeless = d.timeless

theorem Continues.refl (d : Detection) : Continues d d := ⟨rfl, Nat.le_refl _, fun _ => rfl⟩

theorem Continues.trans {d e f : Detection} (hde : Continues d e) (hef : Continues e f) : Continues d f := by
  refine ⟨hef.station.trans hde.station, Nat.le_trans hde.updates_le hef.updates_le, fun h => ?_⟩
  have hd := hde.updates_le
  have he := hef.updates_le
  rw [h] at he
  have hmid : e.updates = d.updates := UInt64.toNat_inj.mp (by omega)
  rw [hef.kept (h.trans hmid.symm), hde.kept hmid]

/-- A sample after the pick is none that is counted. -/
theorem continues_reach (d : Detection) (time : Int64) : Continues d (d.reach time) :=
  ⟨rfl, Nat.le_refl _, fun _ => rfl⟩

/-- A ratio that is taken in is counted when it is a new maximum. -/
theorem continues_record {d : Detection} (h : d.updates.toNat + 1 < UInt64.size) (time : Int64) (ratio : Float) :
    Continues d (d.record time ratio).1 := by
  have hsum : (d.updates + 1).toNat = d.updates.toNat + 1 := by
    rw [UInt64.toNat_add]
    exact Nat.mod_eq_of_lt h
  unfold record
  simp only
  split
  · refine ⟨rfl, by simp only [hsum]; omega, fun he => ?_⟩
    have hn := congrArg UInt64.toNat he
    simp only [hsum] at hn
    omega
  · exact continues_reach d time

end Detection

/-! ## Sums of updates -/

/-- The sum of the updates, however great. -/
def countUpdates (ds : List Detection) : Nat := (ds.map (·.updates.toNat)).sum

@[simp] theorem countUpdates_cons (d : Detection) (ds : List Detection) :
    countUpdates (d :: ds) = d.updates.toNat + countUpdates ds := by
  simp [countUpdates]

theorem countUpdates_perm {ds es : List Detection} (h : ds.Perm es) : countUpdates ds = countUpdates es :=
  (h.map _).sum_nat

/-- A cluster counts up to the range of its counter. -/
theorem Cluster.toNat_updates (c : Cluster) : c.updates.toNat = countUpdates c.assigned % UInt64.size := by
  have hfold : ∀ (ds : List Detection) (sum : UInt64),
      (ds.foldl (fun sum d => sum + d.updates) sum).toNat = (sum.toNat + countUpdates ds) % UInt64.size := by
    intro ds
    induction ds with
    | nil =>
      intro sum
      simp [countUpdates, Nat.mod_eq_of_lt sum.toNat_lt]
    | cons d ds ih =>
      intro sum
      rw [List.foldl_cons, ih, UInt64.toNat_add, countUpdates_cons, Nat.mod_add_mod, Nat.add_assoc]
  rw [Cluster.updates, hfold]
  simp

/-- Two collections of detections that differ in their order and in the times of the newest samples at most. -/
def Alike (ds es : List Detection) : Prop := (ds.map (·.timeless)).Perm (es.map (·.timeless))

/-- Every detection goes on, and there may be more of them. -/
structure Grown (ds es : List Detection) : Prop where
  continued : ∀ d ∈ ds, ∃ e ∈ es, d.Continues e
  counted : ∀ e ∈ es, 0 < e.updates.toNat

/-- Detections that grow have a greater sum of updates, unless they stay the same. -/
theorem Grown.same {ds es : List Detection} (h : Grown ds es) (hd : (ds.map (·.station)).Nodup) :
    countUpdates ds ≤ countUpdates es ∧ (countUpdates ds = countUpdates es → Alike ds es) := by
  induction ds generalizing es with
  | nil =>
    refine ⟨Nat.zero_le _, fun hsum => ?_⟩
    cases es with
    | nil => exact .nil
    | cons e es =>
      have he := h.counted e List.mem_cons_self
      rw [countUpdates_cons] at hsum
      simp [countUpdates] at hsum
      omega
  | cons d ds ih =>
    rw [List.map_cons, List.nodup_cons] at hd
    obtain ⟨e, he, hc⟩ := h.continued d List.mem_cons_self
    obtain ⟨left, right, rfl⟩ := List.append_of_mem he
    have hperm : (left ++ e :: right).Perm (e :: (left ++ right)) := List.perm_middle
    -- the other detections go on as others than `e`, which is one of another station
    have hrest : Grown ds (left ++ right) := by
      refine ⟨fun d' hd' => ?_, fun e' he' => h.counted e' (hperm.mem_iff.mpr (List.mem_cons_of_mem _ he'))⟩
      obtain ⟨e', he', hc'⟩ := h.continued d' (List.mem_cons_of_mem _ hd')
      rcases List.mem_cons.mp (hperm.mem_iff.mp he') with rfl | he'
      · have hs : d'.station = d.station := hc'.station.symm.trans hc.station
        exact absurd (List.mem_map.mpr ⟨d', hd', hs⟩) hd.1
      · exact ⟨e', he', hc'⟩
    obtain ⟨hle, hsame⟩ := ih hrest hd.2
    have hupdates := hc.updates_le
    rw [countUpdates_perm hperm, countUpdates_cons, countUpdates_cons]
    refine ⟨by omega, fun hsum => ?_⟩
    have heq : e.updates = d.updates := UInt64.toNat_inj.mp (by omega)
    have htail := (hsame (by omega)).cons d.timeless
    refine List.Perm.trans ?_ (hperm.map (·.timeless)).symm
    rw [List.map_cons, List.map_cons, hc.kept heq]
    exact htail

theorem Grown.refl {ds : List Detection} (h : ∀ d ∈ ds, 0 < d.updates.toNat) : Grown ds ds :=
  ⟨fun d hd => ⟨d, hd, .refl d⟩, h⟩

theorem Cluster.mem_assign {c : Cluster} {d e : Detection} :
    e ∈ (c.assign d).assigned ↔ e = d ∨ e ∈ c.assigned ∧ e.station ≠ d.station := by
  rw [Cluster.assigned_assign]
  split
  · rename_i hold
    obtain ⟨old, hmem, hs⟩ := List.any_eq_true.mp hold
    rw [List.mem_map]
    constructor
    · rintro ⟨x, hx, rfl⟩
      split
      · exact Or.inl rfl
      · rename_i hne
        exact Or.inr ⟨hx, fun h => hne (beq_iff_eq.mpr h)⟩
    · rintro (rfl | ⟨he, hne⟩)
      · exact ⟨old, hmem, if_pos hs⟩
      · exact ⟨e, he, if_neg fun h => hne (eq_of_beq h)⟩
  · rename_i hnew
    rw [List.mem_append, List.mem_singleton, or_comm]
    refine or_congr_right ⟨fun he => ⟨he, fun hs => ?_⟩, And.left⟩
    exact hnew (List.any_eq_true.mpr ⟨e, he, beq_iff_eq.mpr hs⟩)

/-- Detections grow when one that goes on, or that of another station, is assigned. -/
theorem Grown.assign {ds : List Detection} {c : Cluster} (h : Grown ds c.assigned) {d : Detection}
    (hpos : 0 < d.updates.toNat) (hd : ∀ e ∈ c.assigned, e.station = d.station → e.Continues d) :
    Grown ds (c.assign d).assigned := by
  refine ⟨fun x hx => ?_, fun e he => ?_⟩
  · obtain ⟨e, he, hc⟩ := h.continued x hx
    by_cases hs : e.station = d.station
    · exact ⟨d, Cluster.mem_assign.mpr (Or.inl rfl), hc.trans (hd e he hs)⟩
    · exact ⟨e, Cluster.mem_assign.mpr (Or.inr ⟨he, hs⟩), hc⟩
  · rcases Cluster.mem_assign.mp he with rfl | ⟨he, -⟩
    · exact hpos
    · exact h.counted e he

/-- What grows into other detections still does after the loss of one. -/
theorem Grown.unassign {es : List Detection} {c : Cluster} (h : Grown c.assigned es) (s : StationId) :
    Grown (c.unassign s).assigned es :=
  ⟨fun d hd => h.continued d (List.mem_filter.mp hd).1, h.counted⟩

/-- The detections `es` come from `ds` by growth alone or by loss alone, and their updates can be counted. -/
structure OneWay (ds es : List Detection) : Prop where
  way : Grown ds es ∨ Grown es ds
  countable_left : countUpdates ds < UInt64.size
  countable_right : countUpdates es < UInt64.size

theorem OneWay.same {ds es : List Detection} (h : OneWay ds es) (hd : (ds.map (·.station)).Nodup)
    (he : (es.map (·.station)).Nodup)
    (hsum : countUpdates ds % UInt64.size = countUpdates es % UInt64.size) : Alike ds es := by
  rw [Nat.mod_eq_of_lt h.countable_left, Nat.mod_eq_of_lt h.countable_right] at hsum
  rcases h.way with hg | hg
  · exact (hg.same hd).2 hsum
  · exact ((hg.same he).2 hsum.symm).symm

/-! ## Size and level -/

/-- The greatest distance of detections from a place, or zero. -/
structure IsReach (g : Geodesy) (place : Point) (ds : List Detection) (x : Float) : Prop where
  attained : x = 0.0 ∨ ∃ d ∈ ds, x = g.distance place d.place
  not_lt_zero : ¬ x < 0.0
  not_lt : ∀ d ∈ ds, ¬ x < g.distance place d.place

/-- The greatest of a number and distances. -/
theorem foldl_max_distance (g : Geodesy) (place : Point) (ds : List Detection) {x : Float} (hx : x ≤ x) :
    let y := ds.foldl (fun size d => Scalar.max size (g.distance place d.place)) x
    (y = x ∨ ∃ d ∈ ds, y = g.distance place d.place) ∧ y ≤ y ∧ ¬ y < x ∧
      ∀ d ∈ ds, ¬ y < g.distance place d.place := by
  induction ds generalizing x with
  | nil => exact ⟨Or.inl rfl, hx, fun h => Number.not_lt_of_lt h h, by simp⟩
  | cons d ds ih =>
    rw [List.foldl_cons]
    rcases Number.max_cases (y := g.distance place d.place) hx with ⟨hmax, hnot⟩ | ⟨hmax, hlt⟩
    · rw [hmax]
      obtain ⟨hmem, hy, hyx, hyd⟩ := ih hx
      refine ⟨hmem.imp_right fun ⟨e, he, h⟩ => ⟨e, List.mem_cons_of_mem _ he, h⟩, hy, hyx, ?_⟩
      simp only [List.forall_mem_cons]
      exact ⟨fun h => hnot (Number.lt_of_not_lt_of_lt hx hyx h), hyd⟩
    · rw [hmax]
      have hself := Number.le_self_of_lt hlt
      obtain ⟨hmem, hy, hyx, hyd⟩ := ih hself
      refine ⟨Or.inr ?_, hy, fun h => ?_, by simp only [List.forall_mem_cons]; exact ⟨hyx, hyd⟩⟩
      · rcases hmem with h | ⟨e, he, h⟩
        · exact ⟨d, List.mem_cons_self, h⟩
        · exact ⟨e, List.mem_cons_of_mem _ he, h⟩
      · exact Number.not_lt_of_lt hlt (Number.lt_of_not_lt_of_lt hself hyx h)

theorem isReach_reach (g : Geodesy) (place : Point) (ds : List Detection) :
    IsReach g place ds (Cluster.reach g place ds) := by
  obtain ⟨hmem, -, hzero, hnot⟩ := foldl_max_distance g place ds (x := 0.0) (by decide +kernel)
  exact ⟨hmem, hzero, hnot⟩

theorem Alike.valid {ds es : List Detection} (h : Alike ds es) :
    Alike (ds.filter (·.valid)) (es.filter (·.valid)) := by
  have hmap : ∀ xs : List Detection,
      (xs.filter (·.valid)).map (·.timeless) = (xs.map (·.timeless)).filter (·.valid) := by
    intro xs
    rw [List.filter_map]
    rfl
  rw [Alike, hmap, hmap]
  exact h.filter _

theorem Alike.levelFor_eq {ds es : List Detection} (h : Alike ds es) : Cluster.levelFor ds = Cluster.levelFor es := by
  have hcount : ∀ ratio, Cluster.countFrom ratio ds = Cluster.countFrom ratio es := by
    intro ratio
    have hp := h.countP_eq fun d => decide (d.maxRatio.toFloat ≥ ratio)
    rw [List.countP_map, List.countP_map] at hp
    exact hp
  simp only [Cluster.levelFor, hcount]

/-- Order and times do not matter for the reach. -/
theorem Alike.isReach {ds es : List Detection} (h : Alike ds es) {g : Geodesy} {place : Point} {x : Float}
    (hx : IsReach g place ds x) : IsReach g place es x := by
  have hplaces : ∀ p, (∃ d ∈ ds, d.place = p) ↔ ∃ e ∈ es, e.place = p := by
    intro p
    have hmem : p ∈ (ds.map (·.timeless)).map (·.place) ↔ p ∈ (es.map (·.timeless)).map (·.place) :=
      (h.map _).mem_iff
    simpa [Detection.timeless] using hmem
  refine ⟨hx.attained.imp_right ?_, hx.not_lt_zero, ?_⟩
  · rintro ⟨d, hd, rfl⟩
    obtain ⟨e, he, hp⟩ := (hplaces d.place).mp ⟨d, hd, rfl⟩
    exact ⟨e, he, by rw [hp]⟩
  · intro e he
    obtain ⟨d, hd, hp⟩ := (hplaces e.place).mpr ⟨e, he, rfl⟩
    rw [← hp]
    exact hx.not_lt d hd

namespace Cluster

/-- Size and level are those of given detections, if there is a root. -/
def Measured (g : Geodesy) (c : Cluster) (ds : List Detection) : Prop :=
  ∀ root, c.root = some root →
    IsReach g root (ds.filter (·.valid)) c.size ∧ c.level = levelFor (ds.filter (·.valid))

theorem Measured.same {g : Geodesy} {c : Cluster} {ds es : List Detection} (hm : c.Measured g ds) (h : Alike ds es) :
    c.Measured g es := by
  intro root hroot
  obtain ⟨hsize, hlevel⟩ := hm root hroot
  exact ⟨h.valid.isReach hsize, hlevel.trans h.valid.levelFor_eq⟩

theorem measured_measure (g : Geodesy) (c : Cluster) : (c.measure g).Measured g c.assigned := by
  intro root hroot
  cases hc : c.root with
  | none => simp [measure, hc] at hroot
  | some place =>
    simp only [measure, hc, Option.some.injEq] at hroot ⊢
    subst hroot
    exact ⟨isReach_reach g place c.valid, rfl⟩

theorem tick_eq_false {c : Cluster} {g : Geodesy} (h : (c.tick g).2 = false) :
    (c.tick g).1 = c ∧ c.updates = c.updateCount := by
  unfold tick at h ⊢
  split at h
  · rw [if_pos ‹_›]
    exact ⟨rfl, ‹_›⟩
  · cases h

theorem tick_eq_false_iff {c : Cluster} {g : Geodesy} : (c.tick g).2 = false ↔ c.updates = c.updateCount := by
  refine ⟨fun h => (tick_eq_false h).2, fun h => ?_⟩
  rw [tick, if_pos h]

theorem findRoot_keeps (c : Cluster) :
    c.findRoot.assigned = c.assigned ∧ c.findRoot.updateCount = c.updateCount := by
  unfold findRoot
  simp only
  split <;> exact ⟨rfl, rfl⟩

theorem measure_keeps (c : Cluster) (g : Geodesy) :
    (c.measure g).assigned = c.assigned ∧ (c.measure g).updateCount = c.updateCount := by
  unfold measure
  split <;> exact ⟨rfl, rfl⟩

/-- A tick that notices a change measures the detections that there are. -/
theorem tick_eq_true {c : Cluster} {g : Geodesy} (h : (c.tick g).2 = true) :
    (c.tick g).1.updateCount = c.updates ∧ (c.tick g).1.assigned = c.assigned ∧
      (c.tick g).1.Measured g c.assigned := by
  unfold tick at h ⊢
  split at h
  · cases h
  · rw [if_neg ‹_›]
    simp only
    generalize hr : (if c.root.isNone then findRoot { c with updateCount := c.updates }
      else { c with updateCount := c.updates }) = rooted
    have hrooted : rooted.assigned = c.assigned ∧ rooted.updateCount = c.updates := by
      rw [← hr]
      split
      · exact findRoot_keeps _
      · exact ⟨rfl, rfl⟩
    obtain ⟨hassigned, hcount⟩ := rooted.measure_keeps g
    have hmeasured := rooted.measured_measure g
    rw [hrooted.1] at hmeasured
    exact ⟨hcount.trans hrooted.2, hassigned.trans hrooted.1, hmeasured⟩

theorem assigned_tick (c : Cluster) (g : Geodesy) : (c.tick g).1.assigned = c.assigned := by
  cases h : (c.tick g).2 with
  | false => rw [(tick_eq_false h).1]
  | true => exact (tick_eq_true h).2.1

theorem updateCount_tick (c : Cluster) (g : Geodesy) : (c.tick g).1.updateCount = c.updates := by
  cases h : (c.tick g).2 with
  | false =>
    obtain ⟨hc, hu⟩ := tick_eq_false h
    rw [hc, hu]
  | true => exact (tick_eq_true h).1

end Cluster

/-! ## Runs -/

/-- A cluster with the detections that it had at its last tick. -/
structure Watched where
  cluster : Cluster
  seen : List Detection

namespace Watched

/-- What is done with the detections of a cluster. -/
inductive Step where
  | assign (d : Detection)
  | unassign (s : StationId)
  | tick

/-- A new cluster. -/
def start (id : ClusterId) : Watched := { cluster := { id }, seen := [] }

def step (g : Geodesy) (w : Watched) : Step → Watched
  | .assign d => { w with cluster := w.cluster.assign d }
  | .unassign s => { w with cluster := w.cluster.unassign s }
  | .tick => { cluster := (w.cluster.tick g).1, seen := w.cluster.assigned }

def run (g : Geodesy) (w : Watched) (steps : List Step) : Watched := steps.foldl (step g) w

/-- Between two ticks, the detections only go on and get more or only get fewer. -/
def Steady (g : Geodesy) (w : Watched) : List Step → Prop
  | [] => True
  | s :: steps => (s = .tick → OneWay w.seen w.cluster.assigned) ∧ Steady g (w.step g s) steps

/-- What holds after every run: the cluster remembers the sum of the updates at its last tick. -/
structure Counted (w : Watched) : Prop where
  distinct_seen : (w.seen.map (·.station)).Nodup
  count : w.cluster.updateCount.toNat = countUpdates w.seen % UInt64.size

theorem counted_start (id : ClusterId) : (start id).Counted :=
  ⟨List.nodup_nil, rfl⟩

theorem Counted.step {w : Watched} (h : w.Counted) (g : Geodesy) (s : Step) : (w.step g s).Counted := by
  cases s with
  | assign | unassign => exact ⟨h.distinct_seen, h.count⟩
  | tick =>
    refine ⟨w.cluster.distinct, ?_⟩
    simp only [Watched.step, Cluster.updateCount_tick]
    exact w.cluster.toNat_updates

theorem Counted.run {w : Watched} (h : w.Counted) (g : Geodesy) (steps : List Step) : (w.run g steps).Counted := by
  induction steps generalizing w with
  | nil => exact h
  | cons s steps ih => exact ih (h.step g s)

/-- A tick notices nothing when the sum of the updates is the same as at the last tick, up to the range of the
counter. -/
theorem Counted.tick_eq_false_iff {w : Watched} (h : w.Counted) (g : Geodesy) :
    (w.cluster.tick g).2 = false ↔
      countUpdates w.seen % UInt64.size = countUpdates w.cluster.assigned % UInt64.size := by
  rw [Cluster.tick_eq_false_iff, ← UInt64.toNat_inj, h.count, Cluster.toNat_updates]
  exact eq_comm

/-- After a tick that was due for a change in one direction, size and level are those of the detections. -/
theorem Counted.measured_tick {w : Watched} (h : w.Counted) {g : Geodesy} (hm : w.cluster.Measured g w.seen)
    (hway : OneWay w.seen w.cluster.assigned) :
    ((w.cluster.tick g).2 = false → Alike w.seen w.cluster.assigned) ∧
      (w.cluster.tick g).1.Measured g w.cluster.assigned := by
  have hsame : (w.cluster.tick g).2 = false → Alike w.seen w.cluster.assigned := fun hn =>
    hway.same h.distinct_seen w.cluster.distinct ((h.tick_eq_false_iff g).mp hn)
  refine ⟨hsame, ?_⟩
  cases hn : (w.cluster.tick g).2 with
  | false =>
    rw [(Cluster.tick_eq_false hn).1]
    exact hm.same (hsame hn)
  | true => exact (Cluster.tick_eq_true hn).2.2

/-- On a steady run, size and level stay those of the detections at the last tick. -/
theorem Counted.measured_run {w : Watched} (h : w.Counted) {g : Geodesy} (hm : w.cluster.Measured g w.seen)
    {steps : List Step} (hs : w.Steady g steps) : (w.run g steps).cluster.Measured g (w.run g steps).seen := by
  induction steps generalizing w with
  | nil => exact hm
  | cons s steps ih =>
    obtain ⟨hway, hs⟩ := hs
    refine ih (h.step g s) ?_ hs
    cases s with
    | assign d => exact hm
    | unassign s => exact hm
    | tick => exact (h.measured_tick hm (hway rfl)).2

theorem steady_append {g : Geodesy} {steps more : List Step} {w : Watched} :
    w.Steady g (steps ++ more) ↔ w.Steady g steps ∧ (w.run g steps).Steady g more := by
  induction steps generalizing w with
  | nil => exact ⟨fun h => ⟨trivial, h⟩, And.right⟩
  | cons s steps ih =>
    simp only [List.cons_append, Steady, ih, and_assoc]
    rfl

/-- What a tick after any run from a new cluster notices: that the sum of the updates is another one than at the last
tick, as far as it can be counted. Then size and level are those of the detections. On a steady run nothing is missed:
a tick that notices nothing finds the same detections as the last one, and size and level are right after every tick.
-/
theorem tick_notices (g : Geodesy) (id : ClusterId) (steps : List Step) :
    let w := (start id).run g steps
    let ticked := (w.cluster.tick g).1
    ((w.cluster.tick g).2 = false ↔
        countUpdates w.seen % UInt64.size = countUpdates w.cluster.assigned % UInt64.size) ∧
      ((w.cluster.tick g).2 = true → ticked.Measured g ticked.assigned) ∧
      ((start id).Steady g (steps ++ [.tick]) →
        ((w.cluster.tick g).2 = false → Alike w.seen w.cluster.assigned) ∧ ticked.Measured g ticked.assigned) := by
  intro w ticked
  have hcounted : w.Counted := (counted_start id).run g steps
  have hassigned : ticked.assigned = w.cluster.assigned := w.cluster.assigned_tick g
  rw [hassigned]
  refine ⟨hcounted.tick_eq_false_iff g, fun hn => (Cluster.tick_eq_true hn).2.2, fun hs => ?_⟩
  obtain ⟨hbefore, hway, -⟩ := steady_append.mp hs
  have hm : w.cluster.Measured g w.seen := by
    refine (counted_start id).measured_run (fun root hr => ?_) hbefore
    cases hr
  exact hcounted.measured_tick hm (hway rfl)

/-- The first detection of a station on the equator. -/
def opened (station : UInt32) (ratio : Float) : Detection :=
  Detection.start { id := ⟨station⟩, network := "", code := "", place := ⟨0.0, 0.0⟩, elevation := 0.0 } 0 ratio

/-- A detection that goes on after a tick, and is lost after the next one. -/
theorem one_station_tick_notices :
    let steps : List Step :=
      [.assign (opened 1 5.0), .tick, .assign ((opened 1 5.0).record 50 6.0).1, .tick, .unassign ⟨1⟩]
    let w := (start ⟨1⟩).run .sphere steps
    let ticked := (w.cluster.tick .sphere).1
    ((w.cluster.tick .sphere).2 = false → Alike w.seen w.cluster.assigned) ∧
      ticked.Measured .sphere ticked.assigned := by
  have hopened : Grown [] (({ id := ⟨1⟩ } : Cluster).assign (opened 1 5.0)).assigned := by
    have hnone : Grown [] ({ id := ⟨1⟩ } : Cluster).assigned := Grown.refl (by simp)
    refine hnone.assign ?_ nofun
    decide +kernel
  have hrecorded : Grown [opened 1 5.0] (({ id := ⟨1⟩, detections := { list := [opened 1 5.0] } } : Cluster).assign
      ((opened 1 5.0).record 50 6.0).1).assigned := by
    have hone : Grown [opened 1 5.0] ({ id := ⟨1⟩, detections := { list := [opened 1 5.0] } } : Cluster).assigned :=
      Grown.refl (by decide +kernel)
    refine hone.assign ?_ ?_
    · decide +kernel
    · intro e he _
      cases List.mem_singleton.mp he
      exact Detection.continues_record (by decide) 50 6.0
  have hlost : Grown (({ id := ⟨1⟩, detections := { list := [((opened 1 5.0).record 50 6.0).1] } } : Cluster).unassign
      ⟨1⟩).assigned [((opened 1 5.0).record 50 6.0).1] := by
    refine Grown.unassign (Grown.refl ?_) ⟨1⟩
    decide +kernel
  refine (tick_notices .sphere ⟨1⟩ _).2.2 ⟨nofun, fun _ => ?_, nofun, fun _ => ?_, nofun, fun _ => ?_, trivial⟩
  · exact ⟨Or.inl hopened, by decide +kernel, by decide +kernel⟩
  · exact ⟨Or.inl hrecorded, by decide +kernel, by decide +kernel⟩
  · exact ⟨Or.inr hlost, by decide +kernel, by decide +kernel⟩

/-- Four strong detections that are replaced by four weak ones between two ticks are not noticed, and the level stays
the highest one. -/
theorem replaced_detections_missed :
    let strong := [opened 1 40000.0, opened 2 40000.0, opened 3 40000.0, opened 4 40000.0]
    let weak := [opened 5 5.0, opened 6 5.0, opened 7 5.0, opened 8 5.0]
    let w := (start ⟨1⟩).run .sphere
      (strong.map .assign ++ [.tick] ++ strong.map (fun d => .unassign d.station) ++ weak.map .assign)
    w.seen.map (·.station) = strong.map (·.station) ∧
      w.cluster.assigned.map (·.station) = weak.map (·.station) ∧ w.cluster.root.isSome ∧
      (w.cluster.tick .sphere).2 = false ∧ (w.cluster.tick .sphere).1.level = 4 ∧
      Cluster.levelFor (w.cluster.tick .sphere).1.valid = 0 := by
  decide +kernel

end Watched

end Tremor
