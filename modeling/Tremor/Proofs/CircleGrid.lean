import Tremor.Proofs.MeanOrigin
import Tremor.Proofs.SearchBest

/-!
# The best candidate of a circle

A circle is searched direction by direction, and each direction from the surface downwards; a place and a depth without
any arrival are left out. The result is the best candidate of the whole grid, and does not depend on how the directions
are shared out between workers.

- `Shares` : a way of sharing out a range of directions
- `BestOf.foldl_parts`, `Shares.bestOf` : the best candidate of parts that are searched one by one
- `candidate_eq_none_iff`, `candidate_eq_some_iff` : what a place and a depth give
- `bestOnCircle_bestOf` : a circle gives the best candidate of its grid
- `bestOnCircle_exhaustive` : the same in full
-/

namespace Tremor

/-! ## Searching part by part -/

/-- A search whose steps take up a part each gives the best candidate of all parts. -/
theorem BestOf.foldl_parts {ι : Type} {step : Option Hypocenter → ι → Option Hypocenter}
    {parts : ι → List (Option Hypocenter)} {best : Option Hypocenter} {cs : List (Option Hypocenter)}
    (h : BestOf best cs)
    (hstep : ∀ best cs i, BestOf best cs → BestOf (step best i) (cs ++ parts i)) (is : List ι) :
    BestOf (is.foldl step best) (cs ++ is.flatMap parts) := by
  induction is generalizing best cs with
  | nil => simpa using h
  | cons i is ih =>
    have hrest := ih (hstep best cs i h)
    rwa [List.append_assoc, ← List.flatMap_cons] at hrest

/-- A way of sharing out the numbers from `start` up to `stop`: one worker goes through them in order, or they are split
anywhere, and both parts are shared out on. -/
inductive Shares : (start stop : Nat) → Type where
  | whole (start stop : Nat) : Shares start stop
  | split {start middle stop : Nat} (left : Shares start middle) (right : Shares middle stop)
    (hleft : start ≤ middle) (hright : middle ≤ stop) : Shares start stop

namespace Shares

variable {start stop : Nat}

/-- The best of numbered candidates, when the numbers are shared out; every worker starts with none. -/
def best (f : Nat → Option Hypocenter) : {start stop : Nat} → Shares start stop → Option Hypocenter
  | _, _, whole start stop =>
    (List.range' start (stop - start)).foldl (fun best i => selectBetter best (f i)) none
  | _, _, split left right _ _ => selectBetter (left.best f) (right.best f)

theorem bestOf (f : Nat → Option Hypocenter) (s : Shares start stop) :
    BestOf (s.best f) ((List.range' start (stop - start)).map f) := by
  induction s with
  | whole start stop =>
    have h := (bestOf_bestInOrder ((List.range' start (stop - start)).map f))
    rwa [bestInOrder, List.foldl_map] at h
  | @split start middle stop left right hleft hright ihleft ihright =>
    have hrange : List.range' start (middle - start) ++ List.range' middle (stop - middle) =
        List.range' start (stop - start) := by
      have happend := List.range'_append_1 (s := start) (m := middle - start) (n := stop - middle)
      rwa [show start + (middle - start) = middle by omega,
        show middle - start + (stop - middle) = stop - start by omega] at happend
    rw [← hrange, List.map_append]
    exact ihleft.select ihright

end Shares

namespace Locator

variable {l : Locator} {picks : List Pick} {place : Point} {depth : Float}

/-! ## Single candidates -/

theorem length_travels (l : Locator) (picks : List Pick) (place : Point) (depth : Float) :
    (l.travels picks place depth).length = picks.length := by
  rw [travels, angles, List.length_map, List.length_map]

/-- A place and a depth give no candidate when no wave arrives from there. -/
theorem candidate_eq_none_iff (hn : picks.length < 0x8000000000000000) :
    l.candidate picks place (l.angles picks place) depth = none ↔
      ∀ travel ∈ l.travels picks place depth, travel = none := by
  rw [candidate, Search.scoredAt, Option.map_eq_none_iff]
  exact Search.meanOrigin_eq_none_iff (l.length_travels picks place depth) hn

/-- The candidate that a place and a depth give has the mean of the implied origins, and the error and the number of
fitting picks with that origin. -/
theorem candidate_eq_some_iff {h : Hypocenter} :
    l.candidate picks place (l.angles picks place) depth = some h ↔
      Search.meanOrigin picks (l.travels picks place depth) = some h.origin ∧
        h = .scored place depth h.origin
          (Search.score l.settings.tolerance h.origin picks (l.travels picks place depth)).1
          (Search.score l.settings.tolerance h.origin picks (l.travels picks place depth)).2 := by
  rw [candidate, Search.scoredAt, Option.map_eq_some_iff]
  constructor
  · rintro ⟨origin, horigin, rfl⟩
    exact ⟨horigin, rfl⟩
  · rintro ⟨horigin, hscored⟩
    exact ⟨h.origin, horigin, hscored.symm⟩

/-! ## The grid -/

/-- The candidates of a circle, direction by direction, and each direction from the surface downwards. -/
def candidates (l : Locator) (dist horizontal : Float) (centre : Point) (picks : List Pick) (depthStep : Float) :
    List (Option Hypocenter) :=
  (l.grid dist horizontal centre depthStep).map fun c => l.candidate picks c.1 (l.angles picks c.1) c.2

/-- The best candidate in one of the directions of a circle. -/
def bestInDirection (l : Locator) (dist horizontal : Float) (centre : Point) (picks : List Pick) (depthStep : Float)
    (i : Nat) : Option Hypocenter :=
  l.bestInColumn picks (l.depthSteps depthStep) depthStep
    (l.geodesy.circle centre dist (i.toFloat * l.turn dist horizontal))

/-- A place gives the best candidate of all its depths. -/
theorem bestInColumn_bestOf (l : Locator) (picks : List Pick) (depthStep : Float) (place : Point) :
    BestOf (l.bestInColumn picks (l.depthSteps depthStep) depthStep place)
      ((l.depths depthStep).map (l.candidate picks place (l.angles picks place))) := by
  have hcolumn : BestOf (l.bestInColumn picks (l.depthSteps depthStep) depthStep place)
      ([] ++ (List.range (l.depthSteps depthStep + 1)).flatMap fun step =>
        [l.candidate picks place (l.angles picks place) (step.toFloat * depthStep)]) := by
    refine BestOf.nothing.foldl_parts (fun best cs step hbest => ?_) _
    have hselect := (BestOf.single (l.candidate picks place (l.angles picks place) (step.toFloat * depthStep))).select
      hbest
    generalize l.candidate picks place (l.angles picks place) (step.toFloat * depthStep) = c at hselect
    have hnew : BestOf (selectBetter c best) (cs ++ [c]) := hselect.congr fun d => by
      simp only [List.mem_append, or_comm]
    cases c with
    | none => exact hnew
    | some found => exact hnew
  rwa [depths, List.map_map, List.map_eq_flatMap]

theorem bestOnCircle_eq (l : Locator) (dist horizontal : Float) (centre : Point) (picks : List Pick)
    (depthStep : Float) :
    l.bestOnCircle dist horizontal centre picks depthStep =
      (List.range (directions (l.turn dist horizontal))).foldl
        (fun best i => selectBetter best (l.bestInDirection dist horizontal centre picks depthStep i)) none :=
  rfl

theorem candidates_eq (l : Locator) (dist horizontal : Float) (centre : Point) (picks : List Pick)
    (depthStep : Float) :
    l.candidates dist horizontal centre picks depthStep =
      (l.places dist horizontal centre).flatMap fun place =>
        (l.depths depthStep).map (l.candidate picks place (l.angles picks place)) := by
  simp only [candidates, grid, List.map_flatMap, List.map_map]
  rfl

/-- A circle gives the best candidate of its grid. -/
theorem bestOnCircle_bestOf (l : Locator) (dist horizontal : Float) (centre : Point) (picks : List Pick)
    (depthStep : Float) :
    BestOf (l.bestOnCircle dist horizontal centre picks depthStep)
      (l.candidates dist horizontal centre picks depthStep) := by
  rw [bestOnCircle_eq, candidates_eq, places, List.flatMap_map]
  refine BestOf.foldl_parts BestOf.nothing (fun best cs i hbest => ?_) _
  exact hbest.select (l.bestInColumn_bestOf picks depthStep _)

theorem mem_grid_iff {dist horizontal : Float} {centre : Point} {depthStep : Float} :
    (place, depth) ∈ l.grid dist horizontal centre depthStep ↔
      (∃ i < directions (l.turn dist horizontal),
        place = l.geodesy.circle centre dist (i.toFloat * l.turn dist horizontal)) ∧
      ∃ step ≤ l.depthSteps depthStep, depth = step.toFloat * depthStep := by
  simp only [grid, places, depths, List.mem_flatMap, List.mem_map, List.mem_range, Prod.mk.injEq, Nat.lt_succ_iff]
  constructor
  · rintro ⟨_, ⟨i, hi, rfl⟩, _, ⟨step, hstep, rfl⟩, rfl, rfl⟩
    exact ⟨⟨i, hi, rfl⟩, step, hstep, rfl⟩
  · rintro ⟨⟨i, hi, rfl⟩, step, hstep, rfl⟩
    exact ⟨_, ⟨i, hi, rfl⟩, _, ⟨step, hstep, rfl⟩, rfl, rfl⟩

theorem mem_candidates_iff {dist horizontal : Float} {centre : Point} {depthStep : Float} {c : Option Hypocenter} :
    c ∈ l.candidates dist horizontal centre picks depthStep ↔
      ∃ place depth, (place, depth) ∈ l.grid dist horizontal centre depthStep ∧
        l.candidate picks place (l.angles picks place) depth = c := by
  rw [candidates, List.mem_map]
  constructor
  · rintro ⟨⟨place, depth⟩, hgrid, hc⟩
    exact ⟨place, depth, hgrid, hc⟩
  · rintro ⟨place, depth, hgrid, hc⟩
    exact ⟨(place, depth), hgrid, hc⟩

/-- No wrong picks are counted while candidates are sought. -/
theorem wrong_of_mem_candidates {dist horizontal : Float} {centre : Point} {depthStep : Float} {h : Hypocenter}
    (hc : some h ∈ l.candidates dist horizontal centre picks depthStep) : h.wrong = 0 := by
  obtain ⟨place, depth, -, hcandidate⟩ := mem_candidates_iff.mp hc
  rw [(candidate_eq_some_iff.mp hcandidate).2]
  rfl

/-- The candidates of the directions are among those of the grid. -/
theorem mem_candidates_of_direction {dist horizontal : Float} {centre : Point} {depthStep : Float} {i : Nat}
    (hi : i < directions (l.turn dist horizontal)) {h : Hypocenter}
    (hh : l.bestInDirection dist horizontal centre picks depthStep i = some h) :
    some h ∈ l.candidates dist horizontal centre picks depthStep := by
  obtain ⟨depth, hdepth, hc⟩ := List.mem_map.mp ((l.bestInColumn_bestOf picks depthStep _).mem h hh)
  obtain ⟨step, hstep, rfl⟩ := List.mem_map.mp hdepth
  refine mem_candidates_iff.mpr ⟨_, _, mem_grid_iff.mpr ⟨⟨i, hi, rfl⟩, step, ?_, rfl⟩, hc⟩
  exact Nat.lt_succ_iff.mp (List.mem_range.mp hstep)

/-- However the directions are shared out, the result is that of one worker. -/
theorem shares_best_eq (l : Locator) (dist horizontal : Float) (centre : Point) (picks : List Pick) (depthStep : Float)
    (s : Shares 0 (directions (l.turn dist horizontal))) :
    s.best (l.bestInDirection dist horizontal centre picks depthStep) =
      l.bestOnCircle dist horizontal centre picks depthStep := by
  have hwhole := (Shares.whole 0 (directions (l.turn dist horizontal))).bestOf
    (l.bestInDirection dist horizontal centre picks depthStep)
  rw [Shares.best, Nat.sub_zero, ← List.range_eq_range', ← bestOnCircle_eq] at hwhole
  have hshared := s.bestOf (l.bestInDirection dist horizontal centre picks depthStep)
  rw [Nat.sub_zero, ← List.range_eq_range'] at hshared
  have hwrong : ∀ x, some x ∈ (List.range (directions (l.turn dist horizontal))).map
      (l.bestInDirection dist horizontal centre picks depthStep) → x.wrong = 0 := by
    intro x hx
    obtain ⟨i, hi, hcolumn⟩ := List.mem_map.mp hx
    exact wrong_of_mem_candidates (mem_candidates_of_direction (List.mem_range.mp hi) hcolumn)
  exact hshared.unique hwhole (fun _ => Iff.rfl) fun x y hx hy => (hwrong x hx).trans (hwrong y hy).symm

/-- A circle gives the best candidate of its grid, as a reduction of all of them in order does. It is missing only when
no wave arrives at any pick from any place and depth of the grid. Otherwise it is the scored candidate of one of these,
and no other of the grid comes before it. Any way of sharing out the directions gives the same. -/
theorem bestOnCircle_exhaustive (l : Locator) (dist horizontal : Float) (centre : Point) (picks : List Pick)
    (depthStep : Float) (hn : picks.length < 0x8000000000000000) :
    let best := l.bestOnCircle dist horizontal centre picks depthStep
    let turn := l.turn dist horizontal
    best = bestInOrder (l.candidates dist horizontal centre picks depthStep) ∧
      (best = none ↔
        ∀ c ∈ l.grid dist horizontal centre depthStep, ∀ travel ∈ l.travels picks c.1 c.2, travel = none) ∧
      (∀ h, best = some h →
        (∃ i < directions turn, h.place = l.geodesy.circle centre dist (i.toFloat * turn)) ∧
        (∃ step ≤ l.depthSteps depthStep, h.depth = .ofFloat (step.toFloat * depthStep)) ∧
        Search.meanOrigin picks (l.travels picks h.place h.depth.toFloat) = some h.origin ∧
        let score := Search.score l.settings.tolerance h.origin picks (l.travels picks h.place h.depth.toFloat)
        h.totalError = .ofFloat score.1 ∧ h.correct = score.2) ∧
      (∀ c ∈ l.candidates dist horizontal centre picks depthStep, prefersFirst c best = false) ∧
      ∀ s : Shares 0 (directions turn), s.best (l.bestInDirection dist horizontal centre picks depthStep) = best := by
  intro best turn
  have hbest : BestOf best (l.candidates dist horizontal centre picks depthStep) :=
    l.bestOnCircle_bestOf dist horizontal centre picks depthStep
  refine ⟨?_, ?_, fun h hh => ?_, fun c hc => ?_, l.shares_best_eq dist horizontal centre picks depthStep⟩
  · exact hbest.unique (bestOf_bestInOrder _) (fun _ => Iff.rfl) fun x y hx hy =>
      (wrong_of_mem_candidates hx).trans (wrong_of_mem_candidates hy).symm
  · rw [hbest.eq_none_iff, candidates, List.forall_mem_map]
    exact forall₂_congr fun c _ => candidate_eq_none_iff hn
  · obtain ⟨place, depth, hgrid, hcandidate⟩ := mem_candidates_iff.mp (hbest.mem h hh)
    obtain ⟨horigin, hscored⟩ := candidate_eq_some_iff.mp hcandidate
    obtain ⟨⟨i, hi, hplace⟩, step, hstep, hdepth⟩ := mem_grid_iff.mp hgrid
    have hat : h.place = place ∧ h.depth.toFloat = depth := by
      rw [hscored]
      exact ⟨Hypocenter.place_scored .., Hypocenter.depth_scored ..⟩
    obtain ⟨rfl, rfl⟩ := hat
    refine ⟨⟨i, hi, hplace⟩, ⟨step, hstep, ?_⟩, horigin, congrArg (·.totalError) hscored, congrArg (·.correct) hscored⟩
    rw [← hdepth]
    exact congrArg (·.depth) hscored
  · exact prefersFirst_eq_false_iff.mpr (hbest.first c hc)

/-- Two picks that every place would explain by a travel time of one second. -/
theorem bestOnCircle_exhaustive_two_picks :
    let times : TravelTimes := { pWave := fun _ _ => some 1.0, sWave := fun _ _ => none, maxDepth := 10.0 }
    let l : Locator := { geodesy := .sphere, travelTimes := times, settings := {} }
    let picks : List Pick := [⟨5000, ⟨0.0, 0.0⟩, 0.0, 100.0⟩, ⟨7000, ⟨1.0, 1.0⟩, 0.0, 100.0⟩]
    picks.length < 0x8000000000000000 ∧
      ∃ h, l.bestOnCircle 500.0 15.0 ⟨0.0, 0.0⟩ picks 10.0 = some h ∧ h.origin = 5000 ∧
        ∀ s : Shares 0 (directions (l.turn 500.0 15.0)),
          s.best (l.bestInDirection 500.0 15.0 ⟨0.0, 0.0⟩ picks 10.0) = some h := by
  intro times l picks
  have hn : picks.length < 0x8000000000000000 := by decide
  obtain ⟨-, hnone, hsome, -, hshares⟩ := l.bestOnCircle_exhaustive 500.0 15.0 ⟨0.0, 0.0⟩ picks 10.0 hn
  cases hbest : l.bestOnCircle 500.0 15.0 ⟨0.0, 0.0⟩ picks 10.0 with
  | none =>
    have hgrid : (l.geodesy.circle ⟨0.0, 0.0⟩ 500.0 (Nat.toFloat 0 * l.turn 500.0 15.0), Nat.toFloat 0 * 10.0) ∈
        l.grid 500.0 15.0 ⟨0.0, 0.0⟩ 10.0 :=
      mem_grid_iff.mpr ⟨⟨0, directions_pos _, rfl⟩, 0, Nat.zero_le _, rfl⟩
    cases hnone.mp hbest _ hgrid (some 1.0) List.mem_cons_self
  | some h =>
    obtain ⟨-, -, horigin, -⟩ := hsome h hbest
    have hmean : Search.meanOrigin picks [some 1.0, some 1.0] = some 5000 := by decide +kernel
    exact ⟨hn, h, rfl, Option.some.inj (horigin.symm.trans hmean), fun s => (hshares s).trans hbest⟩

end Locator

end Tremor
