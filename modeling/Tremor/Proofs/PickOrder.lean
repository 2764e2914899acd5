import Tremor.Proofs.PassChecks
import Tremor.Proofs.PassPlan

/-!
# Detections in any order

A cluster keeps its detections by station, and their order means nothing. A pass looks at the number of the detections
and at their picks in order of ratio, and nothing else. When no two ratios are the same there is only one such order, so
that clusters with the same detections in different orders (`Cluster.Reordered`) go through the same pass. The number of
a new quake is the only thing that the pass takes from outside and passes on.

- `byRatio_perm` : picks with different ratios are sorted in one way
- `prepare_reordered`, `settle_reassigned` : the parts of a pass over the same detections in another order
- `pass_renewed` : a pass when a new quake gets another number
- `pass_any_enumeration` : a pass does not depend on the order of the detections
-/

namespace Tremor

/-- Picks with different ratios can be put in order of ratio in one way only. -/
theorem Selection.byRatio_perm {ps qs : List Pick} (hp : qs.Perm ps)
    (hd : ps.Pairwise fun a b => Number.compareTotal a.maxRatio b.maxRatio ≠ .eq) : byRatio qs = byRatio ps := by
  have hsorted : ∀ xs : List Pick,
      (byRatio xs).Pairwise fun a b => Number.orderKey a.maxRatio ≤ Number.orderKey b.maxRatio :=
    Number.pairwise_mergeSort_key fun p : Pick => Number.orderKey p.maxRatio
  have hnodup : (ps.map fun p => Number.orderKey p.maxRatio).Nodup := by
    refine List.pairwise_map.mpr (hd.imp fun {a b} hab he => hab ?_)
    rw [Number.orderKey_inj.mp he]
    exact Std.ReflCmp.compare_self
  have hsame : (byRatio qs).Perm (byRatio ps) :=
    (List.mergeSort_perm qs _).trans (hp.trans (List.mergeSort_perm ps _).symm)
  refine List.Perm.eq_of_pairwise (fun a b ha hb hab hba => ?_) (hsorted qs) (hsorted ps) hsame
  exact List.inj_on_of_nodup_map hnodup (hp.mem_iff.mp (List.mem_mergeSort.mp ha)) (List.mem_mergeSort.mp hb)
    (Int64.le_antisymm hab hba)

/-- Whether a pass gave a new quake. -/
def Outcome.isNew : Outcome → Bool
  | committed _ _ created => created
  | _ => false

/-- The outcome when a new quake has another identity. -/
def Outcome.renew (id : QuakeId) : Outcome → Outcome
  | committed _ pct true => committed id pct true
  | outcome => outcome

theorem Outcome.renew_eq_self {outcome : Outcome} (h : outcome.isNew = false) (id : QuakeId) :
    outcome.renew id = outcome := by
  cases outcome with
  | committed quake pct created =>
    cases h
    rfl
  | skipped | rejected | discarded => rfl

namespace Cluster

/-- The second cluster is the first one with its detections in another order. -/
structure Reordered (c c' : Cluster) : Prop where
  perm : c'.assigned.Perm c.assigned
  rest : c' = { c with detections := c'.detections }

variable {c : Cluster} {ds : Detections}

/-! ## The parts of a pass -/

/-- The picks are selected from their order by ratio. -/
theorem selectPicks_reassigned (g : Geodesy)
    (hs : Selection.byRatio { c with detections := ds }.picks = Selection.byRatio c.picks) :
    { c with detections := ds }.selectPicks g =
      ({ (c.selectPicks g).1 with detections := ds }, (c.selectPicks g).2) := by
  unfold selectPicks
  rw [hs]
  simp only
  split
  · rfl
  · split
    · rfl
    · split
      · rfl
      · split <;> rfl

/-- How many picks a search waits for depends on the number of detections. -/
theorem schedule_reassigned (hl : { c with detections := ds }.assigned.length = c.assigned.length) :
    { c with detections := ds }.schedule = c.schedule.map fun c => { c with detections := ds } := by
  unfold schedule backsOff
  simp only [hl]
  split
  · split <;> rfl
  · rfl

/-- A search is prepared alike for the detections in another order. -/
theorem prepare_reordered (g : Geodesy) (hp : ds.list.Perm c.assigned)
    (hs : Selection.byRatio (ds.list.map (·.pick)) = Selection.byRatio c.picks) :
    { c with detections := ds }.prepare g = ({ (c.prepare g).1 with detections := ds }, (c.prepare g).2) := by
  have hlength : { c with detections := ds }.assigned.length = c.assigned.length := hp.length_eq
  have hempty : { c with detections := ds }.assigned.isEmpty = c.assigned.isEmpty := by
    rw [Bool.eq_iff_iff, List.isEmpty_iff_length_eq_zero, List.isEmpty_iff_length_eq_zero, hlength]
  unfold prepare
  simp only [hempty, schedule_reassigned hlength]
  split
  · rfl
  · cases hc : c.schedule with
    | none => rfl
    | some scheduled =>
      obtain ⟨nextReport, rfl⟩ := schedule_cases hc
      simp only [Option.map_some]
      split
      · rfl
      · exact selectPicks_reassigned (c := { c with nextReport, searchedAt := c.updateCount }) g hs

/-- What becomes of a solution does not depend on the detections. -/
theorem settle_reassigned (c : Cluster) (ds : Detections) (d : Detector) (anchor : Point) (s : Solution)
    (now : Int64) (k : Catalog) :
    { c with detections := ds }.settle d anchor s now k =
      ((c.settle d anchor s now k).1, { (c.settle d anchor s now k).2.1 with detections := ds },
        (c.settle d anchor s now k).2.2) := by
  have hcommit : ∀ c : Cluster, { c with detections := ds }.commit d s now k =
      ((c.commit d s now k).1, { (c.commit d s now k).2.1 with detections := ds }, (c.commit d s now k).2.2) := by
    intro c
    unfold commit
    simp only
    split
    · split <;> rfl
    · rfl
  unfold settle
  split
  · unfold followDrift
    split
    · exact hcommit (c.anchorAt s.hypocenter.place)
    · exact hcommit c
  · rfl

theorem pass_reordered (d : Detector) (now : Int64) (k : Catalog) (hp : ds.list.Perm c.assigned)
    (hs : Selection.byRatio (ds.list.map (·.pick)) = Selection.byRatio c.picks) :
    { c with detections := ds }.pass d now k =
      ((c.pass d now k).1, { (c.pass d now k).2.1 with detections := ds }, (c.pass d now k).2.2) := by
  unfold pass
  rw [prepare_reordered _ hp hs]
  generalize c.prepare d.locator.geodesy = p
  obtain ⟨prepared, result⟩ := p
  cases result with
  | error reason => rfl
  | ok task =>
    simp only
    cases evaluate d.locator task prepared.previous with
    | error e =>
      simp only
      split <;> rfl
    | ok s =>
      simp only
      rw [settle_reassigned]

/-! ## New quakes -/

/-- A new quake comes of a pass exactly when it was planned. -/
theorem isNew_plan (c : Cluster) (d : Detector) (now : Int64) (own : Option Quake) (fresh : QuakeId) :
    ((c.plan d now own).deed fresh).outcome.isNew = (c.plan d now own).creates := by
  unfold plan
  split
  · rfl
  · split
    · rfl
    · dsimp only
      split
      · unfold planCommit
        split <;> rfl
      · rfl

/-- A pass knows the number of a new quake only to pass it on. -/
theorem pass_renewed (c : Cluster) (d : Detector) (now : Int64) {k k' : Catalog} (hk : k'.registry = k.registry) :
    let r := c.pass d now k
    (c.pass d now k').1 = r.1.renew ⟨k'.next⟩ ∧
      (c.pass d now k').2.1 = { r.2.1 with quake := if r.1.isNew then some ⟨k'.next⟩ else r.2.1.quake } := by
  intro r
  have hdone : Deed.Done _ k r := c.pass_plan d now k
  have hdone' := c.pass_plan d now k'
  have hnew := c.isNew_plan d now (c.own k) ⟨k.next⟩
  have hown : c.own k' = c.own k := by rw [own, own, hk]
  rw [hown] at hdone'
  generalize c.plan d now (c.own k) = p at hdone hdone' hnew
  cases p with
  | settled e =>
    have houtcome : r.1 = e.outcome := hdone.outcome
    have hold : r.1.isNew = false := by
      rw [houtcome]
      exact hnew
    rw [Outcome.renew_eq_self hold, hold]
    exact ⟨hdone'.outcome.trans houtcome.symm, hdone'.cluster.trans hdone.cluster.symm⟩
  | creating pct cluster record =>
    rw [hdone.outcome, hdone.cluster]
    exact ⟨hdone'.outcome, hdone'.cluster⟩

/-- A pass does not depend on the order in which the detections are enumerated. When no two ratios are the same, two
orders of the detections give the same outcome and the same cluster, with the same selected picks in the same order, and
change the catalog in the same way; and when only the live quakes are the same, but not the number of the next new
quake, then that number is all that differs. -/
theorem pass_any_enumeration {c c' : Cluster} (hc : Reordered c c')
    (hd : c.assigned.Pairwise fun a b => Number.compareTotal a.maxRatio b.maxRatio ≠ .eq) (d : Detector) (now : Int64)
    {k k' : Catalog} (hk : k'.registry = k.registry) :
    let r := c.pass d now k
    c'.pass d now k = (r.1, { r.2.1 with detections := c'.detections }, r.2.2) ∧
      (c'.pass d now k').1 = r.1.renew ⟨k'.next⟩ ∧
      (c'.pass d now k').2.1 =
        { r.2.1 with
          detections := c'.detections, quake := if r.1.isNew then some ⟨k'.next⟩ else r.2.1.quake } := by
  intro r
  have hpicks : (c'.assigned.map (·.pick)).Perm c.picks := hc.perm.map _
  have hs := Selection.byRatio_perm hpicks (List.pairwise_map.mpr hd)
  have hsame : c'.pass d now k = (r.1, { r.2.1 with detections := c'.detections }, r.2.2) := by
    rw [hc.rest]
    exact pass_reordered d now k hc.perm hs
  obtain ⟨houtcome, hcluster⟩ := c'.pass_renewed d now hk
  rw [hsame] at houtcome hcluster
  exact ⟨hsame, houtcome, hcluster⟩

end Cluster

/-- The detections of a cluster in two orders, and a new quake that gets another number the second time. -/
theorem OneSecond.pass_cluster_any_enumeration :
    let c' : Cluster := { cluster with detections := { list := first :: others } }
    let k : Catalog := { bus := { capacity := 16 } }
    let k' : Catalog := { bus := { capacity := 16 }, next := 7 }
    Cluster.Reordered cluster c' ∧
      (cluster.assigned.Pairwise fun a b => Number.compareTotal a.maxRatio b.maxRatio ≠ .eq) ∧
        ∃ r, cluster.pass detector 7000 k = r ∧ r.1 = .committed ⟨1⟩ 80.0 true ∧
          c'.pass detector 7000 k = (r.1, { r.2.1 with detections := c'.detections }, r.2.2) ∧
          (c'.pass detector 7000 k').1 = .committed ⟨7⟩ 80.0 true := by
  intro c' k k'
  have hc : Cluster.Reordered cluster c' := ⟨(List.perm_append_singleton first others).symm, rfl⟩
  have hd : cluster.assigned.Pairwise fun a b => Number.compareTotal a.maxRatio b.maxRatio ≠ .eq := by
    decide +kernel
  obtain ⟨after, catalog, hp⟩ := pass_cluster k
  have hk : k'.registry = k.registry := rfl
  have h := Cluster.pass_any_enumeration hc hd detector 7000 hk
  rw [hp] at h
  exact ⟨hc, hd, _, hp, rfl, h.1, h.2.1⟩

end Tremor
