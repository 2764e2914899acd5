import Tremor.Cluster.Pass

/-!
# What a pass changes

A pass touches the bookkeeping of its cluster (`Cluster.booked`) and, when it gets as far as a solution, one quake in
the catalog. `PassEffect` lists what can happen, one case for each way in which a pass can end.

- `prepare_cases` : preparing a search touches the bookkeeping alone
- `pass_effect` : every pass has one of the effects
-/

namespace Tremor

namespace Cluster

/-- A cluster with other bookkeeping: when it is searched again, what it was searched with, where, and the solution. -/
def booked (c : Cluster) (nextReport : Nat) (searchedAt : UInt64) (selected : List Pick) (anchor : Option Point)
    (previous : Option Hypocenter) : Cluster :=
  { c with nextReport, searchedAt, selected, anchor, previous }

/-- The record of a new quake under a solution. -/
def recordOf (c : Cluster) (d : Detector) (s : Solution) (now : Int64) (id : QuakeId) : Quake :=
  { Quake.create id c.id s.hypocenter d.regions now with pct := s.pct, revision := c.revision + 1 }

theorem restate_id (regions : RegionNames) (s : Solution) (revision : UInt32) (now : Int64) (id : QuakeId) :
    ∀ q : Quake, q.id = id → (restate regions s revision now q).id = id := fun _ hq => hq

/-- The ways in which a pass over a cluster can end, with the cluster and the catalog that it leaves. -/
inductive PassEffect (d : Detector) (now : Int64) (c : Cluster) (k : Catalog) : Outcome → Cluster → Catalog → Prop
  /-- The pass did not get as far as a search. -/
  | skipped (reason : SkipReason) (h : reason ≠ .archived) (nextReport : Nat) (searchedAt : UInt64)
      (selected : List Pick) :
      PassEffect d now c k (.skipped reason) (c.booked nextReport searchedAt selected c.anchor c.previous) k
  /-- The search gave no acceptable candidate. -/
  | rejected (condition : Condition) (best : Option Hypocenter) (nextReport : Nat) (searchedAt : UInt64)
      (selected : List Pick) :
      PassEffect d now c k (.rejected condition)
        (c.booked nextReport searchedAt selected c.anchor (best.or c.previous)) k
  /-- The quake of the cluster is no longer live. -/
  | archived (id : QuakeId) (hc : c.quake = some id) (hk : k.registry.get? id = none) (nextReport : Nat)
      (searchedAt : UInt64) (selected : List Pick) (anchor : Option Point) (previous : Option Hypocenter) :
      PassEffect d now c k (.skipped .archived) (c.booked nextReport searchedAt selected anchor previous) k
  /-- The solution is a new quake. -/
  | created (hc : c.quake = none) (s : Solution) (nextReport : Nat) (searchedAt : UInt64) (selected : List Pick)
      (anchor : Option Point) :
      PassEffect d now c k (.committed ⟨k.next⟩ s.pct true)
        { c.booked nextReport searchedAt selected anchor (some s.hypocenter) with
          revision := c.revision + 1, quake := some ⟨k.next⟩ }
        (k.enrol (c.recordOf d s now)).2
  /-- The solution is the next revision of the quake of the cluster. -/
  | revised (id : QuakeId) (hc : c.quake = some id) (s : Solution) (k' : Catalog)
      (hk : k.amend id (restate d.regions s (c.revision + 1) now) = some k') (nextReport : Nat) (searchedAt : UInt64)
      (selected : List Pick) (anchor : Option Point) :
      PassEffect d now c k (.committed id s.pct false)
        { c.booked nextReport searchedAt selected anchor (some s.hypocenter) with revision := c.revision + 1 } k'
  /-- Too few picks fit the solution, and the quake of the cluster is dropped. -/
  | withdrawn (id : QuakeId) (hc : c.quake = some id) (s : Solution) (nextReport : Nat) (searchedAt : UInt64)
      (selected : List Pick) :
      PassEffect d now c k (.discarded s.pct)
        { c.booked nextReport searchedAt selected c.anchor (some s.hypocenter) with quake := none }
        (k.withdraw id c.id)
  /-- Too few picks fit the solution, and the cluster has no quake. -/
  | unsettled (hc : c.quake = none) (s : Solution) (nextReport : Nat) (searchedAt : UInt64) (selected : List Pick) :
      PassEffect d now c k (.discarded s.pct)
        (c.booked nextReport searchedAt selected c.anchor (some s.hypocenter)) k

variable {d : Detector} {now : Int64} {c : Cluster} {k : Catalog}

/-- Selecting picks keeps the rest of the cluster, and does not look at the catalog. -/
theorem selectPicks_cases (c : Cluster) (g : Geodesy) :
    ∃ selected, (c.selectPicks g).1 = { c with selected } ∧ (c.selectPicks g).2 ≠ .error .archived := by
  unfold selectPicks
  simp only
  split
  · exact ⟨c.selected, rfl, by simp⟩
  · split
    · exact ⟨c.selected, rfl, by simp⟩
    · split
      · exact ⟨_, rfl, by simp⟩
      · split
        · exact ⟨_, rfl, by simp⟩
        · exact ⟨_, rfl, by simp⟩

theorem schedule_cases {c' : Cluster} (h : c.schedule = some c') : ∃ nextReport, c' = { c with nextReport } := by
  unfold schedule at h
  split at h
  · split at h
    · cases h
    · exact ⟨_, (Option.some.inj h).symm⟩
  · exact ⟨c.nextReport, (Option.some.inj h).symm⟩

/-- A preparation touches the bookkeeping alone, and does not look at the catalog. -/
theorem prepare_cases (c : Cluster) (g : Geodesy) :
    ∃ nextReport searchedAt selected,
      (c.prepare g).1 = c.booked nextReport searchedAt selected c.anchor c.previous ∧
        (c.prepare g).2 ≠ .error .archived := by
  unfold prepare
  split
  · exact ⟨c.nextReport, c.searchedAt, c.selected, rfl, by simp⟩
  · split
    · exact ⟨c.nextReport, c.searchedAt, c.selected, rfl, by simp⟩
    · rename_i scheduled hs
      obtain ⟨nextReport, rfl⟩ := schedule_cases hs
      split
      · exact ⟨nextReport, c.searchedAt, c.selected, rfl, by simp⟩
      · obtain ⟨selected, hc, hr⟩ := selectPicks_cases { c with nextReport, searchedAt := c.updateCount } g
        exact ⟨nextReport, c.updateCount, selected, hc, hr⟩

theorem followDrift_cases (c : Cluster) (g : Geodesy) (anchor : Point) (h : Hypocenter) :
    ∃ anchor', c.followDrift g anchor h = { c with anchor := anchor' } := by
  unfold followDrift
  split
  · exact ⟨_, rfl⟩
  · exact ⟨c.anchor, rfl⟩

/-! ## Solutions -/

theorem commit_new (d : Detector) (s : Solution) (now : Int64) (k : Catalog) (hc : c.quake = none) :
    c.commit d s now k = (.committed ⟨k.next⟩ s.pct true,
      { c with revision := c.revision + 1, quake := some ⟨k.next⟩ }, (k.enrol (c.recordOf d s now)).2) := by
  unfold commit
  rw [hc]
  rfl

theorem commit_live {id : QuakeId} {s : Solution} {k' : Catalog} (hc : c.quake = some id)
    (hk : k.amend id (restate d.regions s (c.revision + 1) now) = some k') :
    c.commit d s now k = (.committed id s.pct false, { c with revision := c.revision + 1 }, k') := by
  unfold commit
  simp only [hc, hk]

theorem commit_gone {id : QuakeId} {s : Solution} (hc : c.quake = some id)
    (hk : k.amend id (restate d.regions s (c.revision + 1) now) = none) :
    c.commit d s now k = (.skipped .archived, c, k) := by
  unfold commit
  simp only [hc, hk]

/-- A solution that is settled has one of the effects. -/
theorem settle_effect (c : Cluster) (d : Detector) (anchor : Point) (s : Solution) (now : Int64) (k : Catalog)
    (nextReport : Nat) (searchedAt : UInt64) (selected : List Pick) :
    let r := (c.booked nextReport searchedAt selected c.anchor c.previous).settle d anchor s now k
    PassEffect d now c k r.1 { r.2.1 with previous := some s.hypocenter } r.2.2 := by
  intro r
  simp only [r, settle]
  split
  · obtain ⟨anchor', ha⟩ := followDrift_cases (c.booked nextReport searchedAt selected c.anchor c.previous)
      d.locator.geodesy anchor s.hypocenter
    rw [ha]
    cases hq : c.quake with
    | none =>
      rw [commit_new d s now k (by exact hq)]
      exact .created hq s nextReport searchedAt selected anchor'
    | some id =>
      cases hk : k.amend id (restate d.regions s (c.revision + 1) now) with
      | none =>
        rw [commit_gone (by exact hq) (by exact hk)]
        exact .archived id hq (Option.map_eq_none_iff.mp hk) nextReport searchedAt selected anchor' _
      | some k' =>
        rw [commit_live (by exact hq) (by exact hk)]
        exact .revised id hq s k' hk nextReport searchedAt selected anchor'
  · cases hq : c.quake with
    | none =>
      have hd : (c.booked nextReport searchedAt selected c.anchor c.previous).discard s k =
          (.discarded s.pct, c.booked nextReport searchedAt selected c.anchor c.previous, k) := by
        simp [discard, booked, hq]
      rw [hd]
      exact .unsettled hq s nextReport searchedAt selected
    | some id =>
      have hd : (c.booked nextReport searchedAt selected c.anchor c.previous).discard s k =
          (.discarded s.pct, { c.booked nextReport searchedAt selected c.anchor c.previous with quake := none },
            k.withdraw id c.id) := by
        simp [discard, booked, hq]
      rw [hd]
      exact .withdrawn id hq s nextReport searchedAt selected

/-- Every pass has one of the effects. -/
theorem pass_effect (d : Detector) (now : Int64) (c : Cluster) (k : Catalog) :
    PassEffect d now c k (c.pass d now k).1 (c.pass d now k).2.1 (c.pass d now k).2.2 := by
  obtain ⟨nextReport, searchedAt, selected, hc, hr⟩ := prepare_cases c d.locator.geodesy
  unfold pass
  generalize c.prepare d.locator.geodesy = p at hc hr
  obtain ⟨prepared, result⟩ := p
  simp only at hc hr
  subst hc
  cases result with
  | error reason => exact .skipped reason (fun he => hr (by rw [he])) nextReport searchedAt selected
  | ok task =>
    simp only
    cases evaluate d.locator task (c.booked nextReport searchedAt selected c.anchor c.previous).previous with
    | error e =>
      obtain ⟨condition, best⟩ := e
      cases best with
      | none => exact .rejected condition none nextReport searchedAt selected
      | some best => exact .rejected condition (some best) nextReport searchedAt selected
    | ok s => exact settle_effect c d task.anchor s now k nextReport searchedAt selected

end Cluster

end Tremor
