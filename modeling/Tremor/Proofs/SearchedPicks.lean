import Mathlib.Data.List.NodupEquivFin
import Tremor.Proofs.IdlePasses
import Tremor.Proofs.Spread

/-!
# The picks of a search

Five picks must remain when the weak ones are dropped. A search gets those of them that lie far apart, which are counted
no more: of picks at one place only one is selected. There are three at least, as one or two arrivals have no spread.
So a search has five picks or more exactly when the strong ones stand at five places.

- `Outcome.isSearched`, `Cluster.exists_task_of_searched` : a search was made, and the picks that it was made with
- `three_le_of_le_arrivalSpread` : one pick has no spread of arrivals, nor have two
- `Selection.Vanishes`, `Spread.different` : no two selected picks are at one place
- `Selection.Tells`, `Spread.length_ge` : there are as many as places, thirty at most
- `Cluster.pass_searched` : the picks of every search
- `Meridian.pass_searches_three` : a search with three picks
-/

namespace Tremor

/-! ## Places -/

/-- Picks at one place. A place without a latitude or a longitude is no place at all. -/
def Pick.SamePlace (p q : Pick) : Prop := p.place.lat == q.place.lat ∧ p.place.lon == q.place.lon

instance (p q : Pick) : Decidable (p.SamePlace q) := inferInstanceAs (Decidable (_ ∧ _))

namespace Pick.SamePlace

variable {p q r : Pick}

theorem symm (h : p.SamePlace q) : q.SamePlace p := ⟨Number.beq_symm h.1, Number.beq_symm h.2⟩

theorem trans (h : p.SamePlace q) (h' : q.SamePlace r) : p.SamePlace r :=
  ⟨Number.beq_trans h.1 h'.1, Number.beq_trans h.2 h'.2⟩

end Pick.SamePlace

namespace Selection

/-- Distances that are numbers, and zero between picks at one place. -/
structure Vanishes (distance : Pick → Pick → Float) (picks : List Pick) : Prop where
  number : ∀ p ∈ picks, ∀ q ∈ picks, (distance p q).isNaN = false
  zero : ∀ p ∈ picks, ∀ q ∈ picks, p.SamePlace q → distance p q == 0.0

/-- Distances that tell places apart: they are above zero between picks that are not at one place. -/
structure Tells (distance : Pick → Pick → Float) (picks : List Pick) : Prop extends Vanishes distance picks where
  pos : ∀ p ∈ picks, ∀ q ∈ picks, ¬ p.SamePlace q → 0.0 < distance p q

variable {distance : Pick → Pick → Float} {picks : List Pick} {p q : Pick}

theorem Vanishes.not_samePlace (h : Vanishes distance picks) (hp : p ∈ picks) (hq : q ∈ picks)
    (hpos : 0.0 < distance p q) : ¬ p.SamePlace q := fun hsame =>
  (Number.le_iff.mp (Number.le_of_beq (h.zero p hp q hq hsame))).2.2 hpos

theorem Tells.samePlace (h : Tells distance picks) (hp : p ∈ picks) (hq : q ∈ picks) (hzero : distance p q ≤ 0.0) :
    p.SamePlace q :=
  Decidable.byContradiction fun hne => (Number.le_iff.mp hzero).2.2 (h.pos p hp q hq hne)

/-! ## Selected picks -/

variable {order : List (Fin picks.length)}

/-- Each selected position is at a distance from those before. -/
theorem Spread.pos (h : Spread distance picks order) :
    order.Pairwise fun s next => 0.0 < distance (picks.get next) (picks.get s) := by
  refine List.pairwise_iff_getElem.mpr fun i j hi hj hlt => ?_
  have hsplit : order = order.take j ++ order[j] :: order.drop (j + 1) := by
    rw [← List.drop_eq_getElem_cons, List.take_append_drop]
  have hbefore : order[i] ∈ order.take j := List.mem_take_iff_getElem.mpr ⟨i, by omega, rfl⟩
  obtain ⟨-, d, hgap, hpos, -⟩ := h.furthest _ _ _ hsplit (List.ne_nil_of_mem hbefore)
  exact Number.lt_of_lt_of_le hpos (hgap.2 _ hbefore)

/-- No two selected picks are at one place. -/
theorem Spread.different (h : Spread distance picks order) (hv : Vanishes distance picks) :
    (order.map picks.get).Pairwise fun p q => ¬ p.SamePlace q :=
  List.pairwise_map.mpr <| h.pos.imp fun {_ _} hpos hsame =>
    hv.not_samePlace (List.getElem_mem _) (List.getElem_mem _) hpos (Pick.SamePlace.symm hsame)

/-- Of positions that are all selected, or at the place of a selected one, no more are at different places than are
selected. -/
theorem length_le_of_covered (hcovers : ∀ i, ∃ s ∈ order, i = s ∨ (picks.get i).SamePlace (picks.get s))
    {apart : List Pick} (hsub : apart.Sublist picks) (hapart : apart.Pairwise fun p q => ¬ p.SamePlace q) :
    apart.length ≤ order.length := by
  obtain ⟨position, hposition⟩ := List.sublist_iff_exists_fin_orderEmbedding_get_eq.mp hsub
  choose nearest hmem hnearest using hcovers
  have hne : ∀ i j : Fin apart.length, i < j → nearest (position i) ≠ nearest (position j) := by
    intro i j hlt heq
    have hdifferent : ¬ (picks.get (position i)).SamePlace (picks.get (position j)) := by
      have := List.pairwise_iff_get.mp hapart i j hlt
      rwa [hposition i, hposition j] at this
    have hi := hnearest (position i)
    have hj := hnearest (position j)
    rw [heq] at hi
    rcases hi with hi | hi <;> rcases hj with hj | hj
    · exact absurd (position.injective (hi.trans hj.symm)) hlt.ne
    · rw [← hi] at hj
      exact hdifferent hj.symm
    · rw [← hj] at hi
      exact hdifferent hi
    · exact hdifferent (hi.trans hj.symm)
  have hnodup : ((List.finRange apart.length).map fun i => nearest (position i)).Nodup :=
    List.pairwise_map.mpr ((List.pairwise_lt_finRange _).imp fun hlt => hne _ _ hlt)
  have hsubset : ((List.finRange apart.length).map fun i => nearest (position i)) ⊆ order := by
    intro s hs
    obtain ⟨i, -, rfl⟩ := List.mem_map.mp hs
    exact hmem _
  simpa using (List.subperm_of_subset hnodup hsubset).length_le

/-- As many picks are selected as are at different places, thirty at most. -/
theorem Spread.length_ge (h : Spread distance picks order) (ht : Tells distance picks) {apart : List Pick}
    (hsub : apart.Sublist picks) (hapart : apart.Pairwise fun p q => ¬ p.SamePlace q) :
    min 30 apart.length ≤ order.length := by
  rcases Nat.lt_or_ge order.length 30 with hlt | hge
  · refine (Nat.min_le_right _ _).trans (length_le_of_covered (fun i => ?_) hsub hapart)
    by_cases hi : i ∈ order
    · exact ⟨i, hi, Or.inl rfl⟩
    · obtain ⟨s, hs, hzero, -⟩ := h.ended hlt i hi
      exact ⟨s, hs, Or.inr (ht.samePlace (List.getElem_mem _) (List.getElem_mem _) hzero)⟩
  · exact (Nat.min_le_left _ _).trans hge

/-- Picks with a spread of arrivals are three at least: of one or two, the 10th and the 90th percentile are the same. -/
theorem three_le_of_le_arrivalSpread (h : 2200 ≤ arrivalSpread picks) : 3 ≤ picks.length := by
  by_contra hfew
  have hzero : ∀ last < 2, Number.truncateNat (Nat.toFloat last * 0.1) = 0 ∧
      Number.truncateNat (Nat.toFloat last * 0.9) = 0 := by
    decide +kernel
  obtain ⟨hlow, hhigh⟩ := hzero (picks.length - 1) (by omega)
  rw [arrivalSpread, hlow, hhigh, Int64.sub_self] at h
  exact absurd h (by decide)

end Selection

/-! ## Searches -/

/-- A search was made. -/
def Outcome.isSearched : Outcome → Bool
  | .skipped .archived | .rejected _ | .committed .. | .discarded _ => true
  | .skipped _ => false

namespace Cluster

variable {c c' : Cluster} {d : Detector} {g : Geodesy} {now : Int64} {k : Catalog} {task : SearchTask}

/-- A solution that is settled was searched for, and the cluster still remembers with what. -/
theorem settle_searched (c : Cluster) (d : Detector) (anchor : Point) (s : Solution) (now : Int64) (k : Catalog) :
    (c.settle d anchor s now k).1.isSearched = true ∧ (c.settle d anchor s now k).2.1.selected = c.selected := by
  unfold settle
  split
  · obtain ⟨anchor', ha⟩ := followDrift_cases c d.locator.geodesy anchor s.hypocenter
    rw [ha, commit]
    split
    · split <;> exact ⟨rfl, rfl⟩
    · exact ⟨rfl, rfl⟩
  · exact ⟨rfl, rfl⟩

/-- A pass that comes to a search makes it. -/
theorem pass_of_task (h : c.prepare d.locator.geodesy = (c', .ok task)) (now : Int64) (k : Catalog) :
    (c.pass d now k).1.isSearched = true ∧ (c.pass d now k).2.1.selected = task.picks := by
  obtain ⟨hselected, -⟩ := prepare_ok h
  simp only [pass, h]
  split
  · refine ⟨rfl, ?_⟩
    split <;> exact hselected
  · obtain ⟨hsearched, hkept⟩ := settle_searched c' d task.anchor _ now k
    exact ⟨hsearched, hkept.trans hselected⟩

/-- A search was prepared, with picks that the cluster remembers. -/
theorem exists_task_of_searched (h : (c.pass d now k).1.isSearched = true) :
    ∃ c' task, c.prepare d.locator.geodesy = (c', .ok task) := by
  cases hp : c.prepare d.locator.geodesy with
  | mk c' result =>
    cases result with
    | ok task => exact ⟨c', task, rfl⟩
    | error reason =>
      obtain ⟨-, -, -, -, harchived⟩ := prepare_cases c d.locator.geodesy
      rw [hp] at harchived
      rw [pass_of_prepare hp] at h
      cases reason with
      | archived => exact absurd rfl harchived
      | noPicks | backoff | noNewPicks | tooWeak | tooFewPicks | noRoot | notEnoughDeltaP => cases h

/-- The positions that picks are selected from, when the distances are numbers. -/
theorem exists_spread (hp : c.prepare g = (c', .ok task))
    (hv : Selection.Vanishes (fun p q => g.distance p.place q.place) c.strong) :
    ∃ order : List (Fin c.strong.length), task.picks.Perm (order.map c.strong.get) ∧
      Selection.Spread (fun p q => g.distance p.place q.place) c.strong order := by
  obtain ⟨-, -, hselects⟩ := prepare_selects hp
  have hne : c.strong ≠ [] := List.ne_nil_of_length_pos (Nat.lt_of_lt_of_le (by decide) hselects.many)
  obtain ⟨order, horder, hspread⟩ := Selection.selectSpread_spread _ c.strong hne hv.number
  exact ⟨order, hselects.picks ▸ horder ▸ List.mergeSort_perm _ _, hspread⟩

/-- A search gets at least three picks and at most thirty. When distances between picks at one place are zero, no two of
them are at one place. When they tell places apart, there are as many as strong picks at different places, unless these
are more than thirty. -/
theorem pass_searched (h : (c.pass d now k).1.isSearched = true) :
    ∃ task, (c.prepare d.locator.geodesy).2 = .ok task ∧ (c.pass d now k).2.1.selected = task.picks ∧
      5 ≤ c.strong.length ∧ 3 ≤ task.picks.length ∧ task.picks.length ≤ 30 ∧
      (Selection.Vanishes (fun p q => d.locator.geodesy.distance p.place q.place) c.strong →
        task.picks.Pairwise fun p q => ¬ p.SamePlace q) ∧
      (Selection.Tells (fun p q => d.locator.geodesy.distance p.place q.place) c.strong →
        ∀ apart : List Pick, apart.Sublist c.strong → (apart.Pairwise fun p q => ¬ p.SamePlace q) →
          min 30 apart.length ≤ task.picks.length) := by
  obtain ⟨c', task, hp⟩ := exists_task_of_searched h
  obtain ⟨-, -, hselects⟩ := prepare_selects hp
  have hlength : task.picks.length ≤ 30 := by
    rw [hselects.picks, selection, Selection.byArrival, List.length_mergeSort]
    exact Selection.length_selectSpread_le _ _
  refine ⟨task, congrArg Prod.snd hp, (pass_of_task hp now k).2, hselects.many,
    Selection.three_le_of_le_arrivalSpread hselects.spread, hlength, fun hv => ?_, fun ht apart hsub hapart => ?_⟩
  · obtain ⟨order, hperm, hspread⟩ := exists_spread hp hv
    exact (hperm.pairwise_iff fun hne hsame => hne hsame.symm).mpr (hspread.different hv)
  · obtain ⟨order, hperm, hspread⟩ := exists_spread hp ht.toVanishes
    rw [hperm.length_eq, List.length_map]
    exact hspread.length_ge ht hsub hapart

end Cluster

/-! ## Stations on a meridian -/

namespace Meridian

/-- The distance is the difference of the latitudes. -/
def geodesy : Geodesy := { OneSecond.locator.geodesy with distance := fun a b => (a.lat - b.lat).abs }

def detector : Detector := { locator := { OneSecond.locator with geodesy }, regions := .coordinates }

/-- A cluster of some detections that was not searched before. -/
def cluster (ds : Detections) : Cluster :=
  { id := ⟨1⟩, detections := ds, root := some ⟨0.0, 0.0⟩, anchor := some ⟨0.0, 0.0⟩, updateCount := 1 }

/-- What is selected from the picks of some detections. -/
def selected (ds : Detections) : List Pick :=
  Selection.selectSpread (fun a b => geodesy.distance a.place b.place) (cluster ds).picks

/-- Six detections at five places. -/
def fivePlaces : Detections where
  list := [OneSecond.detection 1 1000 0.0 20.0, OneSecond.detection 2 1000 0.0 30.0,
    OneSecond.detection 3 4000 1.0 40.0, OneSecond.detection 4 3000 2.0 50.0, OneSecond.detection 5 5000 3.0 60.0,
    OneSecond.detection 6 0 4.0 70.0]

/-- Five detections at three places. -/
def threePlaces : Detections where
  list := [OneSecond.detection 1 3000 0.0 20.0, OneSecond.detection 2 3000 0.0 30.0,
    OneSecond.detection 3 3000 0.0 40.0, OneSecond.detection 4 6000 1.0 50.0, OneSecond.detection 5 0 2.0 60.0]

theorem ready_fivePlaces : (cluster fivePlaces).Ready geodesy (selected fivePlaces) where
  fresh := by decide
  many := by decide +kernel
  few := by decide +kernel
  byRatio := by decide +kernel
  strongest := by decide +kernel
  selection := rfl
  byTime := by decide +kernel
  spread := by decide +kernel

theorem ready_threePlaces : (cluster threePlaces).Ready geodesy (selected threePlaces) where
  fresh := by decide
  many := by decide +kernel
  few := by decide +kernel
  byRatio := by decide +kernel
  strongest := by decide +kernel
  selection := rfl
  byTime := by decide +kernel
  spread := by decide +kernel

/-- With six detections at five places, a search gets five picks at different places. -/
theorem pass_searched_fivePlaces :
    let k : Catalog := { bus := { capacity := 16 } }
    ((cluster fivePlaces).pass detector 7000 k).1.isSearched = true ∧
      Selection.Tells (fun p q => geodesy.distance p.place q.place) (cluster fivePlaces).strong ∧
      ∃ task, ((cluster fivePlaces).prepare geodesy).2 = .ok task ∧
        (task.picks.Pairwise fun p q => ¬ p.SamePlace q) ∧ 5 ≤ task.picks.length := by
  intro k
  have hsearched := (Cluster.pass_of_task (d := detector) (ready_fivePlaces.prepare rfl rfl) 7000 k).1
  have htells : Selection.Tells (fun p q => geodesy.distance p.place q.place) (cluster fivePlaces).picks :=
    { number := by decide +kernel, zero := by decide +kernel, pos := by decide +kernel }
  rw [← ready_fivePlaces.strong] at htells
  obtain ⟨task, htask, -, -, -, -, hdifferent, hcount⟩ := Cluster.pass_searched hsearched
  have hapart : (cluster fivePlaces).picks.tail.Pairwise fun p q => ¬ p.SamePlace q := by decide +kernel
  have hfive := hcount htells _ (ready_fivePlaces.strong ▸ List.tail_sublist _) hapart
  exact ⟨hsearched, htells, task, htask, hdifferent htells.toVanishes, hfive⟩

/-- Five detections are enough for a search, but it gets only three picks when they are at three places. -/
theorem pass_searches_three :
    let k : Catalog := { bus := { capacity := 16 } }
    ((cluster threePlaces).pass detector 7000 k).1.isSearched = true ∧
      ∃ task, ((cluster threePlaces).prepare geodesy).2 = .ok task ∧ task.picks.length = 3 := by
  intro k
  have hsearched := (Cluster.pass_of_task (d := detector) (ready_threePlaces.prepare rfl rfl) 7000 k).1
  have hthree : (selected threePlaces).length = 3 := by decide +kernel
  exact ⟨hsearched, _, congrArg Prod.snd (ready_threePlaces.prepare rfl rfl), hthree⟩

end Meridian

end Tremor
