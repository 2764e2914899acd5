import Tremor.Proofs.SearchedPicks

/-!
# Root and anchor

The root of a cluster is where its stations are, the anchor is where its source is searched. Ticks set the root together
with the anchor, passes move the anchor alone, and both can be set from outside. Whatever is done with a new cluster, a
root stays until it is computed anew, and a search never lacks the anchor when there is a root.

- `findRoot_of_valid`, `findRoot_of_none_valid` : a root that is computed is the anchor as well
- `KeepsRoot` : changes that keep the root, and an anchor
- `Rooted` : a cluster with a root has an anchor
- `Action`, `act` : what can be done with a cluster
- `act_rooted`, `act_root`, `run_rooted`, `run_root` : what one action keeps, and what a run of them keeps
- `root_stays` : root and anchor after any run from a new cluster
-/

namespace Tremor.Cluster

variable {c c' c'' : Cluster} {g : Geodesy} {d : Detector} {now : Int64} {k : Catalog} {root : Point}

/-! ## Computing the root -/

/-- Without a valid detection, there is no root to be found. -/
theorem findRoot_of_none_valid (h : ∀ d ∈ c.assigned, d.valid = false) : c.findRoot = c := by
  have hempty : c.valid = [] := by
    rw [valid, List.filter_eq_nil_iff]
    exact fun d hd => Bool.eq_false_iff.mp (h d hd)
  simp only [findRoot, hempty, List.isEmpty_nil, if_true]

/-- With a valid detection, the mean place becomes root and anchor. -/
theorem findRoot_of_valid (h : ∃ d ∈ c.assigned, d.valid = true) :
    c.findRoot = { c with root := some (meanPlace c.valid), anchor := some (meanPlace c.valid) } := by
  obtain ⟨d, hd, hvalid⟩ := h
  have hne : c.valid.isEmpty = false :=
    List.isEmpty_eq_false_iff_exists_mem.mpr ⟨d, List.mem_filter.mpr ⟨hd, hvalid⟩⟩
  simp only [findRoot, hne, Bool.false_eq_true, if_false]

theorem findRoot_cases (c : Cluster) :
    c.findRoot = c ∨ c.findRoot = { c with root := some (meanPlace c.valid), anchor := some (meanPlace c.valid) } := by
  by_cases h : ∃ d ∈ c.assigned, d.valid = true
  · exact Or.inr (findRoot_of_valid h)
  · exact Or.inl (findRoot_of_none_valid fun d hd => Bool.eq_false_iff.mpr fun hvalid => h ⟨d, hd, hvalid⟩)

/-! ## Changes that keep the root -/

/-- The root stays, and there still is an anchor if there was one. -/
structure KeepsRoot (c c' : Cluster) : Prop where
  root : c'.root = c.root
  anchor : c.anchor.isSome → c'.anchor.isSome

theorem KeepsRoot.refl (c : Cluster) : KeepsRoot c c := ⟨rfl, fun ha => ha⟩

theorem KeepsRoot.trans (h : KeepsRoot c c') (h' : KeepsRoot c' c'') : KeepsRoot c c'' :=
  ⟨h'.root.trans h.root, fun ha => h'.anchor (h.anchor ha)⟩

theorem keepsRoot_measure (c : Cluster) (g : Geodesy) : KeepsRoot c (c.measure g) := by
  unfold measure
  split <;> exact ⟨rfl, fun ha => ha⟩

theorem keepsRoot_prepare (c : Cluster) (g : Geodesy) : KeepsRoot c (c.prepare g).1 := by
  obtain ⟨nextReport, searchedAt, selected, hc, -⟩ := prepare_cases c g
  rw [hc]
  exact ⟨rfl, fun ha => ha⟩

/-- A solution far from the anchor moves it, but does not remove it. -/
theorem keepsRoot_followDrift (c : Cluster) (g : Geodesy) (anchor : Point) (h : Hypocenter) :
    KeepsRoot c (c.followDrift g anchor h) := by
  unfold followDrift
  split
  · exact ⟨rfl, fun _ => rfl⟩
  · exact .refl c

theorem keepsRoot_commit (c : Cluster) (d : Detector) (s : Solution) (now : Int64) (k : Catalog) :
    KeepsRoot c (c.commit d s now k).2.1 := by
  unfold commit
  simp only
  split
  · split <;> exact ⟨rfl, fun ha => ha⟩
  · exact ⟨rfl, fun ha => ha⟩

theorem keepsRoot_settle (c : Cluster) (d : Detector) (anchor : Point) (s : Solution) (now : Int64) (k : Catalog) :
    KeepsRoot c (c.settle d anchor s now k).2.1 := by
  unfold settle
  split
  · exact (keepsRoot_followDrift c d.locator.geodesy anchor s.hypocenter).trans (keepsRoot_commit _ d s now k)
  · exact ⟨rfl, fun ha => ha⟩

/-- A pass keeps the root, with all that comes of it. -/
theorem keepsRoot_pass (c : Cluster) (d : Detector) (now : Int64) (k : Catalog) :
    KeepsRoot c (c.pass d now k).2.1 := by
  have hprepare := keepsRoot_prepare c d.locator.geodesy
  unfold pass
  generalize c.prepare d.locator.geodesy = p at hprepare
  obtain ⟨prepared, result⟩ := p
  cases result with
  | error reason => exact hprepare
  | ok task =>
    simp only
    split
    · split
      · exact ⟨hprepare.root, hprepare.anchor⟩
      · exact hprepare
    · rename_i s _
      have hsettle := keepsRoot_settle prepared d task.anchor s now k
      exact hprepare.trans ⟨hsettle.root, hsettle.anchor⟩

/-! ## Rooted clusters -/

/-- A cluster with a root has an anchor. -/
def Rooted (c : Cluster) : Prop := c.root.isSome → c.anchor.isSome

theorem KeepsRoot.rooted (h : KeepsRoot c c') (hc : c.Rooted) : c'.Rooted := by
  intro hroot
  rw [h.root] at hroot
  exact h.anchor (hc hroot)

theorem Rooted.findRoot (h : c.Rooted) : c.findRoot.Rooted := by
  rcases findRoot_cases c with hf | hf
  · rwa [hf]
  · rw [hf]
    exact fun _ => rfl

theorem Rooted.tick (h : c.Rooted) (g : Geodesy) : (c.tick g).1.Rooted := by
  unfold Cluster.tick
  split
  · exact h
  · have hcounted : Rooted { c with updateCount := c.updates } := h
    refine (keepsRoot_measure _ g).rooted ?_
    split
    · exact hcounted.findRoot
    · exact hcounted

/-- A tick looks for a root only when there is none. -/
theorem keepsRoot_tick (h : c.root = some root) (g : Geodesy) : KeepsRoot c (c.tick g).1 := by
  unfold tick
  split
  · exact .refl c
  · have hsome : ¬ c.root.isNone = true := by simp [h]
    simp only [if_neg hsome]
    have hmeasure := keepsRoot_measure { c with updateCount := c.updates } g
    exact ⟨hmeasure.root, hmeasure.anchor⟩

theorem isSome_root_findRoot (h : c.root.isSome) : c.findRoot.root.isSome := by
  rcases findRoot_cases c with hf | hf
  · rwa [hf]
  · rw [hf]
    rfl

/-! ## One action -/

/-- What can be done with a cluster: a change from outside, or a pass with any detector, at any time, over any catalog. -/
inductive Action where
  | edit (g : Geodesy) (e : Edit)
  | pass (d : Detector) (now : Int64) (k : Catalog)

/-- The action computes the root anew. -/
def Action.findsRoot : Action → Bool
  | edit _ .findRoot => true
  | _ => false

def act (c : Cluster) : Action → Cluster
  | .edit g e => c.edit g e
  | .pass d now k => (c.pass d now k).2.1

/-- No action leaves a root without an anchor. -/
theorem act_rooted (h : c.Rooted) (a : Action) : (c.act a).Rooted := by
  cases a with
  | pass d now k => exact (keepsRoot_pass c d now k).rooted h
  | edit g e =>
    cases e with
    | assign | unassign => exact h
    | tick => exact h.tick g
    | findRoot => exact h.findRoot
    | anchorAt p => exact fun _ => rfl
    | resetAnchor => exact fun hroot => hroot

/-- Only one kind of action moves a root. -/
theorem act_root (h : c.root = some root) {a : Action} (ha : a.findsRoot = false) : (c.act a).root = some root := by
  cases a with
  | pass d now k => exact (keepsRoot_pass c d now k).root.trans h
  | edit g e =>
    cases e with
    | assign | unassign | anchorAt | resetAnchor => exact h
    | tick => exact (keepsRoot_tick h g).root.trans h
    | findRoot => cases ha

/-- No action takes a root away. -/
theorem isSome_root_act (h : c.root.isSome) (a : Action) : (c.act a).root.isSome := by
  obtain ⟨root, hroot⟩ := Option.isSome_iff_exists.mp h
  cases ha : a.findsRoot with
  | false => exact Option.isSome_iff_exists.mpr ⟨root, act_root hroot ha⟩
  | true =>
    cases a with
    | pass d now k => cases ha
    | edit g e =>
      cases e with
      | findRoot => exact isSome_root_findRoot h
      | assign | unassign | tick | anchorAt | resetAnchor => cases ha

/-! ## Runs -/

def run (c : Cluster) (actions : List Action) : Cluster := actions.foldl act c

theorem run_rooted (h : c.Rooted) (actions : List Action) : (c.run actions).Rooted := by
  induction actions generalizing c with
  | nil => exact h
  | cons a actions ih => exact ih (act_rooted h a)

theorem isSome_root_run (h : c.root.isSome) (actions : List Action) : (c.run actions).root.isSome := by
  induction actions generalizing c with
  | nil => exact h
  | cons a actions ih => exact ih (isSome_root_act h a)

theorem run_root (h : c.root = some root) {actions : List Action} (ha : ∀ a ∈ actions, a.findsRoot = false) :
    (c.run actions).root = some root := by
  induction actions generalizing c with
  | nil => exact h
  | cons a actions ih =>
    obtain ⟨hfirst, hrest⟩ := List.forall_mem_cons.mp ha
    exact ih (act_root h hfirst) hrest

/-! ## Searches without a root -/

/-- A selection that comes as far as the root misses it or the anchor. -/
theorem selectPicks_noRoot (h : c.selectPicks g = (c', .error .noRoot)) : c.root = none ∨ c.anchor = none := by
  unfold selectPicks at h
  simp only at h
  split at h
  · cases h
  · split at h
    · cases h
    · split at h
      · cases h
      · split at h
        · cases h
        · rename_i hmissing
          cases hroot : c.root with
          | none => exact Or.inl rfl
          | some root =>
            cases hanchor : c.anchor with
            | none => exact Or.inr rfl
            | some anchor => exact absurd hanchor (hmissing root anchor hroot)

theorem prepare_noRoot (h : c.prepare g = (c', .error .noRoot)) : c.root = none ∨ c.anchor = none := by
  unfold prepare at h
  split at h
  · cases h
  · split at h
    · cases h
    · rename_i scheduled hs
      obtain ⟨nextReport, rfl⟩ := schedule_cases hs
      split at h
      · cases h
      · -- neither is touched before the selection
        have hmissing := selectPicks_noRoot h
        exact hmissing

/-- A pass that lacks a root has not come to a search. -/
theorem pass_noRoot (h : (c.pass d now k).1 = .skipped .noRoot) : c.root = none ∨ c.anchor = none := by
  cases hp : c.prepare d.locator.geodesy with
  | mk prepared result =>
    cases result with
    | ok task =>
      obtain ⟨hsearched, -⟩ := pass_of_task hp now k
      rw [h] at hsearched
      cases hsearched
    | error reason =>
      rw [pass_of_prepare hp] at h
      cases h
      exact prepare_noRoot hp

theorem Rooted.root_eq_none (h : c.Rooted) (hmissing : c.root = none ∨ c.anchor = none) : c.root = none := by
  rcases hmissing with hroot | hanchor
  · exact hroot
  · rw [Rooted, hanchor] at h
    exact Option.not_isSome_iff_eq_none.mp fun hroot => by cases h hroot

/-- After any run from a new cluster, a root that is set has an anchor, and both are there after every further run. No
action but one moves it. That one changes root and anchor only when a detection is valid, and sets both to the same
place. A pass that lacks a root finds none. -/
theorem root_stays (id : ClusterId) (past : List Action) :
    let c : Cluster := ({ id } : Cluster).run past
    (c.root.isSome → ∀ future, (c.run future).root.isSome ∧ (c.run future).anchor.isSome) ∧
      (∀ root, c.root = some root → ∀ future : List Action, (∀ a ∈ future, a.findsRoot = false) →
        (c.run future).root = some root) ∧
      ((∀ d ∈ c.assigned, d.valid = false) → c.findRoot = c) ∧
      ((∃ d ∈ c.assigned, d.valid = true) →
        c.findRoot = { c with root := some (meanPlace c.valid), anchor := some (meanPlace c.valid) }) ∧
      ∀ d now k, (c.pass d now k).1 = .skipped .noRoot → c.root = none := by
  intro c
  have hnew : ({ id } : Cluster).Rooted := nofun
  have hrooted : c.Rooted := run_rooted hnew past
  refine ⟨fun hroot future => ?_, fun root hroot future hf => run_root hroot hf, findRoot_of_none_valid,
    findRoot_of_valid, fun d now k hskipped => hrooted.root_eq_none (pass_noRoot hskipped)⟩
  have hlater := isSome_root_run hroot future
  exact ⟨hlater, run_rooted hrooted future hlater⟩

/-- The detections of a world with one candidate, none of them valid. -/
def invalid : List Detection := OneSecond.cluster.assigned.map fun d => { d with valid := false }

/-- Five detections that are not valid give no root, which a pass then lacks. A valid one of the same station in the
place of one of them gives a root, which stays when that detection is lost and the next pass is made. -/
theorem root_stays_five_detections :
    let g := OneSecond.locator.geodesy
    let k : Catalog := { bus := { capacity := 16 } }
    let past : List Action := invalid.map (fun d => .edit g (.assign d)) ++ [.edit g .tick]
    let found : List Action := [.edit g (.assign OneSecond.first), .edit g .findRoot]
    let future : List Action := [.edit g (.unassign ⟨5⟩), .edit g .tick, .pass OneSecond.detector 0 k]
    let c : Cluster := ({ id := ⟨1⟩ } : Cluster).run past
    (c.pass OneSecond.detector 0 k).1 = .skipped .noRoot ∧ c.root = none ∧
      (c.run found).root.isSome ∧ ((c.run found).run future).root.isSome ∧
      ((c.run found).run future).anchor.isSome := by
  intro g k past found future c
  have hpicks : c.picks = OneSecond.cluster.picks := rfl
  have hready : c.Ready g OneSecond.picks := by
    obtain ⟨-, -, -, hratio, hstrongest, hselection, htime, hspread⟩ := OneSecond.ready_cluster
    rw [← hpicks] at hratio hstrongest hselection
    exact ⟨by decide, by decide, by decide, hratio, hstrongest, hselection, htime, hspread⟩
  have hskipped : (c.pass OneSecond.detector 0 k).1 = .skipped .noRoot := by
    have hprepare := hready.prepare_eq
    rw [pass_of_prepare (d := OneSecond.detector) hprepare]
  have hroot : (c.run found).root.isSome := rfl
  have hrun : ({ id := ⟨1⟩ } : Cluster).run (past ++ found) = c.run found := List.foldl_append
  have hlater := (root_stays ⟨1⟩ (past ++ found)).1
  rw [hrun] at hlater
  exact ⟨hskipped, (root_stays ⟨1⟩ past).2.2.2.2 _ _ _ hskipped, hroot, hlater hroot future⟩

end Tremor.Cluster
