import Mathlib.Data.List.Pairwise
import Tremor.Proofs.PassEffect
import Tremor.Proofs.Registry
import Tremor.Proofs.SearchBest
import Tremor.Proofs.TotalOrder

/-!
# What is checked before a commit

A pass that commits a solution has come through every check, and all of them were made of the same picks and the same
candidate: those that the cluster remembers after the pass. The live record is made from that candidate, too.

- `Locator.check_eq_ok_iff` : when a candidate is accepted
- `Cluster.Selects`, `Searchable`, `prepare_ok` : what is known of picks that are searched with
- `Cluster.Fitting`, `evaluate_ok` : what is known of a solution
- `Quake.Records`, `commit_committed` : the live record after a commit
- `Cluster.Checked`, `pass_committed_checked` : all of that, after a pass that commits
- `Cluster.Ready`, `Ready.prepare` : a search that is made with few detections
- `OneSecond` : a world with one candidate, and a pass over five detections that commits it
-/

namespace Tremor

/-! ## Candidates -/

/-- A candidate is accepted when enough picks fit it, more of them far from the root, when the stations lie in enough
directions, and when the previous solution did not fit more picks. -/
theorem Locator.check_eq_ok_iff (l : Locator) (picks : List Pick) (h : Hypocenter) (previous : Option Hypocenter)
    (root : Point) :
    l.check picks (some h) previous root = .ok ↔
      4 ≤ h.correct ∧ (l.geodesy.distance h.place root > 2000.0 → 8 ≤ h.correct) ∧
        requiredSectors (l.geodesy.distance h.place root) ≤ l.occupiedSectors h picks ∧
        ∀ p, previous = some p → p.correct ≤ h.correct := by
  unfold check
  simp only
  split
  · rename_i hfar
    exact iff_of_false (by simp) fun ⟨_, h8, _⟩ => absurd (h8 hfar.1) (Nat.not_le.mpr hfar.2)
  · rename_i hfar
    have h8 : l.geodesy.distance h.place root > 2000.0 → 8 ≤ h.correct := fun hd =>
      Nat.not_lt.mp fun hlt => hfar ⟨hd, hlt⟩
    split
    · rename_i h4
      exact iff_of_false (by simp) fun ⟨h4', _⟩ => absurd h4' (Nat.not_le.mpr h4)
    · rename_i h4
      split
      · rename_i hs
        exact iff_of_false (by simp) fun ⟨_, _, hs', _⟩ => absurd hs' (Nat.not_le.mpr hs)
      · rename_i hs
        cases previous with
        | none => exact iff_of_true rfl ⟨Nat.not_lt.mp h4, h8, Nat.not_lt.mp hs, by simp⟩
        | some p =>
          simp only
          split
          · rename_i hp
            exact iff_of_false (by simp) fun ⟨_, _, _, hp'⟩ => absurd (hp' p rfl) (Nat.not_le.mpr hp)
          · rename_i hp
            refine iff_of_true rfl ⟨Nat.not_lt.mp h4, h8, Nat.not_lt.mp hs, ?_⟩
            rintro _ ⟨⟩
            exact Nat.not_lt.mp hp

/-! ## Picks -/

namespace Selection

/-- The strongest pick is not dropped. -/
theorem getLast?_trimWeak (picks : List Pick) : (trimWeak picks).getLast? = picks.getLast? := by
  unfold trimWeak
  split
  · rfl
  · rename_i threshold ht
    have hpos : 0 < picks.length := Nat.zero_lt_of_lt (List.getElem?_eq_some_iff.mp ht).1
    rw [List.getLast?_drop, if_neg]
    simp only [keepAtLeast]
    omega

/-- Eight picks and fewer are all kept. -/
theorem trimWeak_of_length_le {picks : List Pick} (h : picks.length ≤ keepAtLeast) : trimWeak picks = picks := by
  unfold trimWeak
  split
  · rfl
  · simp only [Nat.sub_eq_zero_of_le h, Nat.min_zero, List.drop_zero]

theorem getLast_mem_selectSpread (distance : Pick → Pick → Float) {picks : List Pick} {p : Pick}
    (h : picks.getLast? = some p) : p ∈ selectSpread distance picks := by
  unfold selectSpread
  rw [h]
  exact List.mem_cons_self

theorem mem_of_mem_trimWeak {picks : List Pick} {p : Pick} (h : p ∈ trimWeak picks) : p ∈ picks := by
  unfold trimWeak at h
  split at h
  · exact h
  · exact List.mem_of_mem_drop h

/-- What is selected from candidates is among them. -/
theorem mem_of_mem_selectFrom {distance : Pick → Pick → Float} {n : Nat} {cs : List Candidate} {p : Pick}
    (h : p ∈ selectFrom distance n cs) : ∃ c ∈ cs, c.pick = p := by
  fun_induction selectFrom distance n cs with
  | case1 | case2 | case3 => cases h
  | case4 more cs i hi next hn ih =>
    rcases List.mem_cons.mp h with rfl | h
    · exact ⟨next, List.mem_of_getElem? hn, rfl⟩
    · obtain ⟨c, hc, rfl⟩ := ih h
      obtain ⟨before, hbefore, rfl⟩ := List.mem_map.mp hc
      exact ⟨before, List.mem_of_mem_eraseIdx hbefore, rfl⟩

theorem mem_of_mem_selectSpread {distance : Pick → Pick → Float} {picks : List Pick} {p : Pick}
    (h : p ∈ selectSpread distance picks) : p ∈ picks := by
  unfold selectSpread at h
  split at h
  · cases h
  · rename_i first hfirst
    rcases List.mem_cons.mp h with rfl | h
    · exact List.mem_of_getLast? hfirst
    · obtain ⟨c, hc, rfl⟩ := mem_of_mem_selectFrom h
      obtain ⟨p, hp, rfl⟩ := List.mem_map.mp hc
      exact List.dropLast_subset picks hp

/-- No pick is stronger than the last one in order of ratio. -/
theorem compareTotal_getLast_byRatio {picks : List Pick} {p q : Pick} (h : (byRatio picks).getLast? = some p)
    (hq : q ∈ picks) : Number.compareTotal q.maxRatio p.maxRatio ≠ .gt := by
  have hmem : q ∈ byRatio picks := List.mem_mergeSort.mpr hq
  have hsorted : (byRatio picks).Pairwise fun a b => Number.orderKey a.maxRatio ≤ Number.orderKey b.maxRatio :=
    Number.pairwise_mergeSort_key (fun p : Pick => Number.orderKey p.maxRatio) picks
  have hlast := hsorted.rel_getLast_of_rel_getLast_getLast hmem (Int64.le_refl _)
  rw [List.getLast?_eq_some_getLast (List.ne_nil_of_mem hmem), Option.some.injEq] at h
  rw [h] at hlast
  exact Number.compareTotal_ne_gt hlast

end Selection

/-- The record of a quake says what is known of a candidate. -/
structure Quake.Records (q : Quake) (h : Hypocenter) (pct : Float) (revision : UInt32) (now : Int64) : Prop where
  place : q.place = h.place
  depth : q.depth = h.depth.toFloat
  origin : q.origin = h.origin
  pct : q.pct = pct
  updated : q.updated = now
  revision : q.revision = revision

namespace Cluster

/-- Picks in order of time are worth a search when the strongest of all assigned picks is among them and strong enough,
and when the arrivals are spread out enough. -/
structure Searchable (assigned picks : List Pick) : Prop where
  subset : ∀ p ∈ picks, p ∈ assigned
  sorted : picks.Pairwise fun a b => a.pWave ≤ b.pWave
  strongest : ∃ p ∈ picks, p ∈ assigned ∧
    (∀ q ∈ assigned, Number.compareTotal q.maxRatio p.maxRatio ≠ .gt) ∧ ¬ p.maxRatio.toFloat < 16.0
  spread : 2200 ≤ Selection.arrivalSpread picks

variable {c c' : Cluster} {g : Geodesy} {task : SearchTask}

/-- The picks that remain when the weak ones are dropped, in order of ratio. -/
def strong (c : Cluster) : List Pick := Selection.trimWeak (Selection.byRatio c.picks)

theorem mem_picks_of_mem_selection {p : Pick} (c : Cluster) (g : Geodesy) (h : p ∈ selection g c.strong) :
    p ∈ c.picks :=
  List.mem_mergeSort.mp
    (Selection.mem_of_mem_trimWeak (Selection.mem_of_mem_selectSpread (List.mem_mergeSort.mp h)))

/-- The last pick in order of ratio survives all that is dropped. -/
theorem getLast_mem_selection (c : Cluster) (g : Geodesy) (h : 0 < c.strong.length) :
    ∃ p, (Selection.byRatio c.picks).getLast? = some p ∧ p ∈ selection g c.strong := by
  have hlast := List.getLast?_eq_some_getLast (List.ne_nil_of_length_pos h)
  refine ⟨_, (Selection.getLast?_trimWeak _).symm.trans hlast, ?_⟩
  exact List.mem_mergeSort.mpr (Selection.getLast_mem_selectSpread _ hlast)

/-- A search is worth it: the strongest pick is strong enough, enough picks are strong, and those that are selected from
them have a spread of arrivals. -/
structure Selects (c : Cluster) (g : Geodesy) (task : SearchTask) : Prop where
  root : c.root = some task.root
  anchor : c.anchor = some task.anchor
  strongest : ((Selection.byRatio c.picks).getLast?.any fun p => decide (p.maxRatio.toFloat < minRatio)) = false
  many : 5 ≤ c.strong.length
  picks : task.picks = selection g c.strong
  spread : 2200 ≤ Selection.arrivalSpread task.picks

theorem Selects.searchable (h : c.Selects g task) : Searchable c.picks task.picks where
  subset p hp := c.mem_picks_of_mem_selection g (h.picks ▸ hp)
  sorted := by
    rw [h.picks]
    exact Number.pairwise_mergeSort_key (fun p : Pick => p.pWave) _
  strongest := by
    obtain ⟨p, hlast, hp⟩ := getLast_mem_selection c g (Nat.lt_of_lt_of_le (by decide) h.many)
    have hratio := h.strongest
    rw [hlast, Option.any_some, decide_eq_false_iff_not] at hratio
    exact ⟨p, h.picks ▸ hp, List.mem_mergeSort.mp (List.mem_of_getLast? hlast),
      fun q hq => Selection.compareTotal_getLast_byRatio hlast hq, hratio⟩
  spread := h.spread

/-- A selection for a search, guard by guard. -/
theorem selectPicks_ok (h : c.selectPicks g = (c', .ok task)) :
    c' = { c with selected := task.picks } ∧ c.Selects g task := by
  unfold selectPicks at h
  simp only at h
  split at h
  · cases h
  · rename_i hstrongest
    split at h
    · cases h
    · rename_i hmany
      split at h
      · cases h
      · rename_i hspread
        split at h
        · rename_i root anchor hroot hanchor
          cases h
          exact ⟨rfl, hroot, hanchor, Bool.eq_false_iff.mpr hstrongest, Nat.not_lt.mp hmany, rfl,
            Int64.not_lt.mp hspread⟩
        · cases h

/-- A preparation that comes to a search remembers its picks. -/
theorem prepare_selects (h : c.prepare g = (c', .ok task)) :
    c'.selected = task.picks ∧ c'.previous = c.previous ∧ c.Selects g task := by
  unfold prepare at h
  split at h
  · cases h
  · split at h
    · cases h
    · rename_i scheduled hs
      obtain ⟨nextReport, rfl⟩ := schedule_cases hs
      split at h
      · cases h
      · obtain ⟨rfl, hroot, hanchor, hstrongest, hmany, hpicks, hspread⟩ := selectPicks_ok h
        exact ⟨rfl, rfl, hroot, hanchor, hstrongest, hmany, hpicks, hspread⟩

theorem prepare_ok (h : c.prepare g = (c', .ok task)) :
    c'.selected = task.picks ∧ c'.previous = c.previous ∧ c.root = some task.root ∧ c.anchor = some task.anchor ∧
      Searchable c.picks task.picks := by
  obtain ⟨hselected, hprevious, hselects⟩ := prepare_selects h
  exact ⟨hselected, hprevious, hselects.root, hselects.anchor, hselects.searchable⟩

/-! ## Solutions -/

/-- A solution was accepted with some picks, and the count of those that contradict it and the share of those that do
not are of the same picks. -/
structure Fitting (l : Locator) (picks : List Pick) (previous : Option Hypocenter) (root : Point) (s : Solution) :
    Prop where
  accepted : l.check picks (some s.hypocenter) previous root = .ok
  wrong : s.hypocenter.wrong = l.wrongPicks picks s.hypocenter
  pct : s.pct = percentage picks.length s.hypocenter.wrong

theorem evaluate_ok {l : Locator} {previous : Option Hypocenter} {s : Solution}
    (h : evaluate l task previous = .ok s) : Fitting l task.picks previous task.root s := by
  unfold evaluate at h
  simp only at h
  split at h
  · rename_i best hcheck hbest
    cases h
    rw [hbest] at hcheck
    -- neither the verdict nor the count looks at the count that the candidate carries
    exact ⟨hcheck, rfl, rfl⟩
  · cases h

/-! ## Records -/

theorem records_recordOf (c : Cluster) (d : Detector) (s : Solution) (now : Int64) (id : QuakeId) :
    (c.recordOf d s now id).Records s.hypocenter s.pct (c.revision + 1) now := ⟨rfl, rfl, rfl, rfl, rfl, rfl⟩

theorem records_restate (regions : RegionNames) (s : Solution) (revision : UInt32) (now : Int64) (q : Quake) :
    (restate regions s revision now q).Records s.hypocenter s.pct revision now := ⟨rfl, rfl, rfl, rfl, rfl, rfl⟩

variable {d : Detector} {s : Solution} {now : Int64} {k k' : Catalog} {id : QuakeId} {pct : Float} {created : Bool}

/-- After a commit the record of the quake says what the solution says, under the revision of the cluster. -/
theorem commit_committed (h : c.commit d s now k = (.committed id pct created, c', k')) :
    pct = s.pct ∧ c'.selected = c.selected ∧
      ∃ q, k'.registry.get? id = some q ∧ q.Records s.hypocenter s.pct c'.revision now := by
  cases hc : c.quake with
  | none =>
    rw [commit_new d s now k hc] at h
    cases h
    refine ⟨rfl, rfl, c.recordOf d s now ⟨k.next⟩, ?_, c.records_recordOf d s now _⟩
    rw [Catalog.enrol, Registry.get?_insert]
    exact if_pos rfl
  | some i =>
    cases hk : k.amend i (restate d.regions s (c.revision + 1) now) with
    | none =>
      rw [commit_gone hc hk] at h
      cases h
    | some k₁ =>
      rw [commit_live hc hk] at h
      cases h
      obtain ⟨old, hold, rfl⟩ := Option.map_eq_some_iff.mp hk
      refine ⟨rfl, rfl, restate d.regions s (c.revision + 1) now old, ?_, records_restate _ s _ now old⟩
      rw [Registry.get?_modify_self _ (restate_id _ _ _ _ _), hold, Option.map_some]

theorem settle_committed {anchor : Point} (h : c.settle d anchor s now k = (.committed id pct created, c', k')) :
    pct = s.pct ∧ s.pct > d.locator.settings.correctness ∧ c'.selected = c.selected ∧
      ∃ q, k'.registry.get? id = some q ∧ q.Records s.hypocenter s.pct c'.revision now := by
  unfold settle at h
  split at h
  · rename_i hpct
    obtain ⟨anchor', ha⟩ := followDrift_cases c d.locator.geodesy anchor s.hypocenter
    rw [ha] at h
    obtain ⟨hs, hselected, hq⟩ := commit_committed h
    exact ⟨hs, hpct, hselected, hq⟩
  · cases h

/-- A pass that commits comes from a search with picks that were worth it, and commits the accepted solution. -/
theorem pass_committed_cases (h : c.pass d now k = (.committed id pct created, c', k')) :
    ∃ root s, c'.previous = some s.hypocenter ∧ c.root = some root ∧ Searchable c.picks c'.selected ∧
      Fitting d.locator c'.selected c.previous root s ∧ pct = s.pct ∧ s.pct > d.locator.settings.correctness ∧
      ∃ q, k'.registry.get? id = some q ∧ q.Records s.hypocenter s.pct c'.revision now := by
  unfold pass at h
  split at h
  · cases h
  · rename_i prepared task hp
    obtain ⟨hselected, hprevious, hroot, -, hpicks⟩ := prepare_ok hp
    split at h
    · cases h
    · rename_i s hs
      have hfit := evaluate_ok hs
      rw [hprevious] at hfit
      generalize hr : prepared.settle d task.anchor s now k = r at h
      obtain ⟨outcome, settled, catalog⟩ := r
      cases h
      obtain ⟨hpct, habove, hkept, hq⟩ := settle_committed hr
      rw [hselected] at hkept
      exact ⟨task.root, s, rfl, hroot, hkept ▸ hpicks, hkept ▸ hfit, hpct, habove, hq⟩

/-- What was checked before a candidate was committed; the cluster is `c` before the pass and `c'` after it. -/
structure Checked (l : Locator) (c c' : Cluster) (root : Point) (h : Hypocenter) (pct : Float) : Prop where
  accepted : l.check c'.selected (some h) c.previous root = .ok
  correct : 4 ≤ h.correct
  correct_far : l.geodesy.distance h.place root > 2000.0 → 8 ≤ h.correct
  covered : Locator.requiredSectors (l.geodesy.distance h.place root) ≤ l.occupiedSectors h c'.selected
  improved : ∀ p, c.previous = some p → p.correct ≤ h.correct
  picks : Searchable c.picks c'.selected
  nonempty : 0 < c'.selected.length
  wrong : h.wrong = l.wrongPicks c'.selected h
  wrong_le : h.wrong ≤ c'.selected.length
  share : pct = 100.0 * (c'.selected.length - h.wrong).toFloat / c'.selected.length.toFloat
  above : pct > l.settings.correctness

/-- Nothing is committed that failed a check: after a pass that commits, the candidate that the cluster remembers went
through every check with the picks that it remembers, and the live record says what is known of that candidate. -/
theorem pass_committed_checked (h : c.pass d now k = (.committed id pct created, c', k')) :
    ∃ root best q, c.root = some root ∧ c'.previous = some best ∧ Checked d.locator c c' root best pct ∧
      k'.registry.get? id = some q ∧ q.Records best pct c'.revision now := by
  obtain ⟨root, s, hprevious, hroot, hpicks, hfit, rfl, habove, q, hq, hrecords⟩ := pass_committed_cases h
  obtain ⟨hcorrect, hfar, hcovered, himproved⟩ := (Locator.check_eq_ok_iff _ _ _ _ _).mp hfit.accepted
  obtain ⟨p, hp, -⟩ := hpicks.strongest
  refine ⟨root, s.hypocenter, q, hroot, hprevious, ?_, hq, hrecords⟩
  exact {
    accepted := hfit.accepted
    correct := hcorrect
    correct_far := hfar
    covered := hcovered
    improved := himproved
    picks := hpicks
    nonempty := List.length_pos_of_mem hp
    wrong := hfit.wrong
    wrong_le := hfit.wrong ▸ Locator.wrongPicks_le _ _ _
    share := hfit.pct
    above := habove }

/-! ## A search with few detections -/

/-- From five to eight detections in order of ratio that are worth a search, and the picks that are selected from
them, in order of time. -/
structure Ready (c : Cluster) (g : Geodesy) (selected : List Pick) : Prop where
  fresh : c.searchedAt ≠ c.updateCount
  many : 5 ≤ c.assigned.length
  few : c.assigned.length ≤ 8
  byRatio : c.picks.Pairwise fun a b => Number.orderKey a.maxRatio ≤ Number.orderKey b.maxRatio
  strongest : (c.picks.getLast?.any fun p => decide (p.maxRatio.toFloat < minRatio)) = false
  selection : Selection.selectSpread (fun a b => g.distance a.place b.place) c.picks = selected
  byTime : selected.Pairwise fun a b => a.pWave ≤ b.pWave
  spread : ¬ Selection.arrivalSpread selected < minArrivalSpread

theorem Ready.trimWeak_byRatio {selected : List Pick} (h : c.Ready g selected) :
    Selection.byRatio c.picks = c.picks ∧ Selection.trimWeak c.picks = c.picks :=
  ⟨List.mergeSort_of_pairwise (h.byRatio.imp fun hle => decide_eq_true hle),
    Selection.trimWeak_of_length_le (c.length_picks.trans_le h.few)⟩

/-- Few detections in order of ratio are all strong. -/
theorem Ready.strong {selected : List Pick} (h : c.Ready g selected) : c.strong = c.picks := by
  obtain ⟨hratio, htrim⟩ := h.trimWeak_byRatio
  rw [Cluster.strong, hratio, htrim]

/-- A preparation with such detections comes as far as the root. -/
theorem Ready.prepare_eq {selected : List Pick} (h : c.Ready g selected) :
    c.prepare g = ({ c with searchedAt := c.updateCount, selected },
      match c.root, c.anchor with
      | some root, some anchor => .ok { picks := selected, root, anchor }
      | _, _ => .error .noRoot) := by
  obtain ⟨hratio, htrim⟩ := h.trimWeak_byRatio
  have hne : c.assigned.isEmpty = false :=
    List.isEmpty_eq_false_iff.mpr (List.ne_nil_of_length_pos (Nat.lt_of_lt_of_le (by decide) h.many))
  have hfew : decide (backoffStart ≤ c.assigned.length) = false :=
    decide_eq_false (Nat.not_le.mpr (Nat.lt_of_le_of_lt h.few (by decide)))
  have hschedule : c.schedule = some c := by
    rw [schedule, backsOff, hfew, Bool.and_false, if_neg Bool.false_ne_true]
  have hsame : ({ c with searchedAt := c.updateCount } : Cluster).picks = c.picks := rfl
  have hmany : ¬ c.picks.length < minPicks := by
    rw [length_picks]
    exact Nat.not_lt.mpr h.many
  have hpicks : Cluster.selection g c.picks = selected := by
    rw [Cluster.selection, h.selection]
    exact List.mergeSort_of_pairwise (h.byTime.imp fun hle => decide_eq_true hle)
  simp only [Cluster.prepare, hne, Bool.false_eq_true, if_false, hschedule, h.fresh, selectPicks, hsame, hratio, htrim,
    h.strongest, hmany, hpicks, h.spread]
  generalize c.root = root
  generalize c.anchor = anchor
  cases root <;> cases anchor <;> rfl

/-- Such detections are searched with what is selected from them. -/
theorem Ready.prepare {selected : List Pick} {root anchor : Point} (h : c.Ready g selected) (hroot : c.root = some root)
    (hanchor : c.anchor = some anchor) :
    c.prepare g = ({ c with searchedAt := c.updateCount, selected }, .ok { picks := selected, root, anchor }) := by
  rw [h.prepare_eq, hroot, hanchor]

/-! ## A pass that commits -/

theorem evaluate_accepted {l : Locator} {previous : Option Hypocenter} {best : Hypocenter} {wrong : Nat}
    (hl : l.locate task.picks task.anchor previous = some best)
    (hc : l.check task.picks (some best) previous task.root = .ok) (hw : l.wrongPicks task.picks best = wrong)
    (hp : percentage task.picks.length wrong = pct) :
    evaluate l task previous = .ok { hypocenter := { best with wrong }, pct } := by
  simp only [evaluate, hl, hc, hw, hp]

/-- A pass stores a solution near the anchor that enough picks fit. -/
theorem pass_of_solution {prepared : Cluster} (hp : c.prepare d.locator.geodesy = (prepared, .ok task))
    (hs : evaluate d.locator task prepared.previous = .ok s) (hpct : s.pct > d.locator.settings.correctness)
    (hnear : ¬ d.locator.geodesy.distance s.hypocenter.place task.anchor > anchorDrift) :
    c.pass d now k =
      ((prepared.commit d s now k).1, { (prepared.commit d s now k).2.1 with previous := some s.hypocenter },
        (prepared.commit d s now k).2.2) := by
  simp only [pass, hp, hs, settle, if_pos hpct, followDrift, if_neg hnear]

end Cluster

/-! ## A world with one candidate -/

namespace OneSecond

/-- All places are a kilometre apart, a P wave takes a second to each of them and an S wave two seconds, and all circles
are one place. -/
def locator : Locator where
  geodesy :=
    { distance := fun _ _ => 1.0, chord := fun _ _ _ _ => 1.0, bearing := fun _ p => p.lat
      circle := fun _ _ _ => ⟨0.0, 0.0⟩ }
  travelTimes := { pWave := fun _ _ => some 1.0, sWave := fun _ _ => some 2.0, maxDepth := 0.0 }
  settings := {}

/-- A detection whose latitude is the direction in which it is seen. -/
def detection (station : UInt32) (pWave : Int64) (bearing maxRatio : Float) : Detection :=
  { station := ⟨station⟩, place := ⟨bearing, 0.0⟩, elevation := 0.0, pWave, maxRatio := .ofFloat maxRatio, updates := 1
    valid := true, latest := pWave }

/-- The earliest of five detections, which is the strongest one, too. -/
def first : Detection := detection 5 0 120.0 60.0

/-- The other ones, in order of time and ratio. -/
def others : List Detection :=
  [detection 1 1100 0.0 20.0, detection 2 1200 30.0 30.0, detection 3 2200 60.0 40.0, detection 4 2300 90.0 50.0]

def picks : List Pick := (first :: others).map (·.pick)

def travels : List (Option Float) := List.replicate 5 (some 1.0)

/-- The only candidate, which comes a second before the mean arrival. -/
def candidate : Hypocenter := .scored ⟨0.0, 0.0⟩ 0.0 360 (Search.score 1000.0 360 picks travels).1 5

/-- There is one depth to try in every phase. -/
theorem bestInColumn_phase : ∀ phase ∈ [locator.nearby, locator.far, locator.exact, locator.deep],
    locator.bestInColumn picks (locator.depthSteps phase.depthStep) phase.depthStep ⟨0.0, 0.0⟩ = some candidate := by
  intro phase hphase
  have hdepth : locator.depthSteps phase.depthStep = 0 ∧ (0 : Nat).toFloat * phase.depthStep = 0.0 := by
    revert phase
    decide +kernel
  have htravels : (locator.angles picks ⟨0.0, 0.0⟩).map (locator.travelTimes.pWave 0.0) = travels := rfl
  have hmean : Search.meanOrigin picks travels = some 360 := by decide +kernel
  have hcorrect : (Search.score 1000.0 360 picks travels).2 = 5 := by decide +kernel
  have hscore : Search.score locator.settings.tolerance 360 picks travels =
      ((Search.score 1000.0 360 picks travels).1, 5) := Prod.ext rfl hcorrect
  have hfound : locator.candidate picks ⟨0.0, 0.0⟩ (locator.angles picks ⟨0.0, 0.0⟩) 0.0 = some candidate := by
    rw [Locator.candidate, htravels, Search.scoredAt, hmean, Option.map_some, hscore]
    rfl
  rw [Locator.bestInColumn, hdepth.1]
  simp only [Nat.zero_add, List.range_one, List.foldl_cons, List.foldl_nil, hdepth.2, hfound, selectBetter_none_right]

theorem locate_picks (anchor : Point) (previous : Option Hypocenter) :
    locator.locate picks anchor previous = some candidate := by
  have hcircle : ∀ phase ∈ [locator.nearby, locator.far, locator.exact, locator.deep], ∀ centre dist,
      locator.bestOnCircle dist phase.horizontal centre picks phase.depthStep = some candidate :=
    fun phase hphase centre dist => Locator.bestOnCircle_uniform _ _ fun _ => bestInColumn_phase phase hphase
  have hne : picks ≠ [] := List.cons_ne_nil _ _
  exact Locator.locate_uniform locator picks anchor previous hne hcircle

/-- The first of the five picks comes before the origin of the only candidate, and four of five are enough. -/
def solution : Solution := { hypocenter := { candidate with wrong := 1 }, pct := 80.0 }

theorem evaluate_picks (root anchor : Point) {previous : Option Hypocenter}
    (hprevious : ∀ p, previous = some p → p.correct ≤ 5) :
    Cluster.evaluate locator { picks, root, anchor } previous = .ok solution := by
  have hcovered : Locator.requiredSectors 1.0 ≤ locator.occupiedSectors candidate picks := by decide +kernel
  have hnear : ¬ (1.0 : Float) > 2000.0 := by decide +kernel
  have hcheck : locator.check picks (some candidate) previous root = .ok :=
    (Locator.check_eq_ok_iff _ _ _ _ _).mpr ⟨by decide, fun hfar => absurd hfar hnear, hcovered, hprevious⟩
  have hwrong : locator.wrongPicks picks candidate = 1 := by decide +kernel
  have hshare : Cluster.percentage picks.length 1 = 80.0 := by decide +kernel
  exact Cluster.evaluate_accepted (locate_picks anchor previous) hcheck hwrong hshare

def detector : Detector := { locator, regions := .coordinates }

variable {c : Cluster} {root anchor : Point}

/-- A pass over a cluster with the five picks stores the solution. -/
theorem pass_of_ready (h : c.Ready locator.geodesy picks) (hroot : c.root = some root) (hanchor : c.anchor = some anchor)
    (hprevious : ∀ p, c.previous = some p → p.correct ≤ 5) (now : Int64) (k : Catalog) :
    let prepared := { c with searchedAt := c.updateCount, selected := picks }
    c.pass detector now k =
      ((prepared.commit detector solution now k).1,
        { (prepared.commit detector solution now k).2.1 with previous := some solution.hypocenter },
        (prepared.commit detector solution now k).2.2) := by
  intro prepared
  have habove : (80.0 : Float) > locator.settings.correctness := by decide +kernel
  have hnear : ¬ (1.0 : Float) > Cluster.anchorDrift := by decide +kernel
  exact Cluster.pass_of_solution (d := detector) (h.prepare hroot hanchor) (evaluate_picks root anchor hprevious) habove
    hnear

/-- The solution becomes a new quake, or the next revision of the quake of the cluster. -/
theorem pass_creates (h : c.Ready locator.geodesy picks) (hroot : c.root = some root) (hanchor : c.anchor = some anchor)
    (hprevious : ∀ p, c.previous = some p → p.correct ≤ 5) (hquake : c.quake = none) (now : Int64) (k : Catalog) :
    c.pass detector now k =
      (.committed ⟨k.next⟩ 80.0 true,
        { c with
          searchedAt := c.updateCount, selected := picks, previous := some solution.hypocenter
          revision := c.revision + 1, quake := some ⟨k.next⟩ },
        (k.enrol (c.recordOf detector solution now)).2) := by
  rw [pass_of_ready h hroot hanchor hprevious,
    Cluster.commit_new (c := { c with searchedAt := c.updateCount, selected := picks }) detector solution now k hquake]
  rfl

theorem pass_revises (h : c.Ready locator.geodesy picks) (hroot : c.root = some root) (hanchor : c.anchor = some anchor)
    (hprevious : ∀ p, c.previous = some p → p.correct ≤ 5) {id : QuakeId} (hquake : c.quake = some id) {now : Int64}
    {k k' : Catalog} (hk : k.amend id (Cluster.restate detector.regions solution (c.revision + 1) now) = some k') :
    c.pass detector now k =
      (.committed id 80.0 false,
        { c with
          searchedAt := c.updateCount, selected := picks, previous := some solution.hypocenter
          revision := c.revision + 1 },
        k') := by
  rw [pass_of_ready h hroot hanchor hprevious,
    Cluster.commit_live (c := { c with searchedAt := c.updateCount, selected := picks }) hquake hk]
  rfl

/-- The five detections, the earliest one last. -/
def detections : Detections := { list := others ++ [first] }

def cluster : Cluster :=
  { id := ⟨1⟩, detections, root := some ⟨0.0, 0.0⟩, anchor := some ⟨0.0, 0.0⟩
    updateCount := 5 }

theorem ready_cluster : cluster.Ready locator.geodesy picks where
  fresh := by decide
  many := by decide
  few := by decide
  byRatio := by decide +kernel
  strongest := by decide +kernel
  selection := rfl
  byTime := by decide +kernel
  spread := by decide +kernel

/-- What is searched with does not depend on what else is known of the cluster. -/
theorem ready_of {c : Cluster} (hfresh : c.searchedAt ≠ c.updateCount) (hpicks : c.picks = cluster.picks) :
    c.Ready locator.geodesy picks where
  fresh := hfresh
  many := by
    rw [← c.length_picks, hpicks]
    decide
  few := by
    rw [← c.length_picks, hpicks]
    decide
  byRatio := hpicks ▸ ready_cluster.byRatio
  strongest := hpicks ▸ ready_cluster.strongest
  selection := hpicks ▸ ready_cluster.selection
  byTime := ready_cluster.byTime
  spread := ready_cluster.spread

theorem pass_cluster (k : Catalog) :
    ∃ c' k', cluster.pass detector 7000 k = (.committed ⟨k.next⟩ 80.0 true, c', k') :=
  ⟨_, _, pass_creates ready_cluster rfl rfl nofun rfl 7000 k⟩

/-- Four of the five picks fit the committed solution. -/
theorem cluster_pass_committed_checked :
    let d : Detector := { locator, regions := .coordinates }
    let k : Catalog := { bus := { capacity := 16 } }
    ∃ c' k', cluster.pass d 7000 k = (.committed ⟨1⟩ 80.0 true, c', k') ∧
      ∃ root best q, cluster.root = some root ∧ c'.previous = some best ∧
        Cluster.Checked locator cluster c' root best 80.0 ∧
        k'.registry.get? ⟨1⟩ = some q ∧ q.Records best 80.0 c'.revision 7000 := by
  intro d k
  obtain ⟨c', k', hp⟩ := pass_cluster k
  exact ⟨c', k', hp, Cluster.pass_committed_checked hp⟩

end OneSecond

end Tremor
