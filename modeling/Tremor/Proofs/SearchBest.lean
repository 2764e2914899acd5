import Tremor.Proofs.Doubles
import Tremor.Proofs.Ranking
import Tremor.Proofs.SearchTrace

/-!
# A search loses no candidate

Every phase of a search asks for circles and keeps the best candidate of all of them and of the one that it started
from; the next phase starts from that. So the result of a search is the best of all circles of all phases.

- `Narrowing.Met` : a narrowing that knows the best candidate of all that it met
- `narrow_bestOf` : a narrowing gives the best of what it asked for
- `Locator.circles` : the best candidates of all circles that a search asks for
- `runPhase_bestOf`, `locate_bestOf` : a phase and a search give the best of their circles
- `locate_best` : what a search gives is one of its circles and behind none of them
- `locate_uniform` : a search in a world with one candidate
-/

namespace Tremor

/-! ## Narrowing -/

namespace Narrowing

variable {R : Type} [Scalar R] {sample : R → Option Hypocenter} {s : Narrowing R} {cs : List (Option Hypocenter)}

/-- The best candidate is that of all candidates met so far, and the retained sample is one of them. -/
structure Met (s : Narrowing R) (cs : List (Option Hypocenter)) : Prop where
  best : BestOf s.best cs
  retained : s.retained ∈ cs

/-- A step meets one more candidate. -/
theorem Met.step (h : Met s cs) : Met (s.step sample) (cs ++ [sample s.question]) where
  best := by
    have hpair := (BestOf.single (sample s.question)).select (BestOf.single s.retained)
    refine (h.best.select hpair).congr fun c => ?_
    -- the retained sample is not new
    have hr : c = s.retained → c ∈ cs := fun hc => hc ▸ h.retained
    simp only [List.mem_append, List.mem_singleton]
    tauto
  retained := by
    show (if !prefersFirst (sample s.question) s.retained then s.retained else sample s.question) ∈ _
    split
    · exact List.mem_append_left _ h.retained
    · exact List.mem_append_right _ (List.mem_singleton_self _)

theorem Met.run (n : Nat) (h : Met s cs) : Met (run sample n s) (cs ++ (asked sample n s).map sample) := by
  induction n generalizing s cs with
  | zero => simpa [asked, run] using h
  | succ n ih =>
    have hstep : Met (s.step sample) (cs ++ [sample s.question]) := h.step
    have hs := ih hstep
    rwa [List.append_assoc] at hs

end Narrowing

section Narrow

variable {R : Type} [Scalar R] (sample : R → Option Hypocenter) (limit : R) (steps : Nat) (best : Option Hypocenter)

/-- A narrowing gives the best of the candidates that it asked for and of the one that it started from. -/
theorem narrow_bestOf :
    BestOf (narrow sample limit steps best) (best :: (narrowAsked sample limit steps best).map sample) := by
  have hs : (Narrowing.start sample limit best).Met [best, sample (Narrowing.pointAt 0 limit (2 / 3))] :=
    ⟨(BestOf.single best).select (BestOf.single _), List.mem_cons_of_mem _ (List.mem_singleton_self _)⟩
  exact (hs.run steps).best

/-- Before its first step, a narrowing asks for the upper third point, and then for the lower one. -/
theorem thirds_mem_narrowAsked (hsteps : 0 < steps) :
    Narrowing.pointAt 0 limit (2 / 3) ∈ narrowAsked sample limit steps best ∧
      Narrowing.pointAt 0 limit (1 / 3) ∈ narrowAsked sample limit steps best := by
  cases steps with
  | zero => cases hsteps
  | succ n => exact ⟨List.mem_cons_self, List.mem_cons_of_mem _ List.mem_cons_self⟩

/-- A narrowing that meets one candidate everywhere gives it. -/
theorem narrow_uniform {x : Hypocenter} (h : ∀ dist, sample dist = some x) (hb : best = none ∨ best = some x) :
    narrow sample limit steps best = some x := by
  refine (narrow_bestOf sample limit steps best).eq_some ?_ ?_
  · exact List.mem_cons_of_mem _ (List.mem_map.mpr ⟨_, List.mem_cons_self, h _⟩)
  · simp only [List.mem_cons, List.mem_map]
    rintro c (rfl | ⟨dist, -, rfl⟩)
    · exact hb
    · exact Or.inr (h dist)

end Narrow

/-! ## Circles -/

namespace Locator

/-- The best candidates of the circles that a phase asks for. -/
def phaseCircles (l : Locator) (picks : List Pick) (phase : Phase) (centre : Point) (best : Option Hypocenter) :
    List (Option Hypocenter) :=
  let circle := fun dist => l.bestOnCircle dist phase.horizontal centre picks phase.depthStep
  (narrowAsked circle phase.limit phase.steps best).map circle

def nearbyCircles (l : Locator) (picks : List Pick) (anchor : Point) : List (Option Hypocenter) :=
  l.phaseCircles picks l.nearby anchor none

def farCircles (l : Locator) (picks : List Pick) (anchor : Point) : List (Option Hypocenter) :=
  l.phaseCircles picks l.far anchor (l.runPhase picks l.nearby anchor none)

/-- The circles around the anchor. -/
def coarseCircles (l : Locator) (picks : List Pick) (anchor : Point) (previous : Option Hypocenter) :
    List (Option Hypocenter) :=
  l.nearbyCircles picks anchor ++ if needsFar previous then l.farCircles picks anchor else []

/-- The circles around the best candidate of those around the anchor. -/
def closeCircles (l : Locator) (picks : List Pick) (coarse : Hypocenter) : List (Option Hypocenter) :=
  l.phaseCircles picks l.exact coarse.place (some coarse) ++
    match l.runPhase picks l.exact coarse.place (some coarse) with
    | none => []
    | some close => l.phaseCircles picks l.deep close.place (some close)

/-- The best candidates of all circles that a search asks for. -/
def circles (l : Locator) (picks : List Pick) (anchor : Point) (previous : Option Hypocenter) :
    List (Option Hypocenter) :=
  l.coarseCircles picks anchor previous ++
    match l.locateCoarsely picks anchor previous with
    | none => []
    | some coarse => l.closeCircles picks coarse

/-- Every circle is searched in at least one direction. -/
theorem directions_pos (turn : Float) : 0 < directions turn := Number.truncateNat_max_one_pos _

/-- A circle with one candidate in every direction gives it. -/
theorem bestOnCircle_uniform (l : Locator) (picks : List Pick) {dist horizontal : Float} {centre : Point} {depthStep : Float} {x : Hypocenter}
    (h : ∀ bearing,
      l.bestInColumn picks (l.depthSteps depthStep) depthStep (l.geodesy.circle centre dist bearing) = some x) :
    l.bestOnCircle dist horizontal centre picks depthStep = some x := by
  have hb := bestOf_bestInOrder ((List.range (directions (l.turn dist horizontal))).map fun _ => some x)
  simp only [bestOnCircle, h]
  rw [bestInOrder, List.foldl_map] at hb
  refine hb.eq_some (List.mem_map.mpr ⟨0, List.mem_range.mpr (directions_pos _), rfl⟩) ?_
  simp

/-! ## Phases -/

/-- A phase gives the best of its circles and of the candidate that it started from. -/
theorem runPhase_bestOf (l : Locator) (picks : List Pick) (phase : Phase) (centre : Point)
    (best : Option Hypocenter) :
    BestOf (l.runPhase picks phase centre best) (best :: l.phaseCircles picks phase centre best) :=
  narrow_bestOf _ _ _ _

variable (l : Locator) (picks : List Pick) (anchor : Point) (previous : Option Hypocenter)

theorem nearby_bestOf : BestOf (l.runPhase picks l.nearby anchor none) (l.nearbyCircles picks anchor) :=
  BestOf.nothing.chain (l.runPhase_bestOf picks l.nearby anchor none)

theorem locateCoarsely_bestOf :
    BestOf (l.locateCoarsely picks anchor previous) (l.coarseCircles picks anchor previous) := by
  have hnear := l.nearby_bestOf picks anchor
  simp only [locateCoarsely, coarseCircles]
  split
  · exact hnear.chain (l.runPhase_bestOf picks l.far anchor _)
  · simpa using hnear

theorem locateClosely_bestOf (coarse : Hypocenter) :
    BestOf (l.locateClosely picks coarse) (some coarse :: l.closeCircles picks coarse) := by
  have hexact := l.runPhase_bestOf picks l.exact coarse.place (some coarse)
  simp only [locateClosely, closeCircles, Option.bind_eq_bind]
  cases hclose : l.runPhase picks l.exact coarse.place (some coarse) with
  | none => simpa [hclose] using hexact
  | some close =>
    rw [hclose] at hexact
    exact hexact.chain (l.runPhase_bestOf picks l.deep close.place (some close))

theorem locate_eq_bind (hp : picks ≠ []) :
    l.locate picks anchor previous = (l.locateCoarsely picks anchor previous).bind (l.locateClosely picks) := by
  simp only [locate, List.isEmpty_iff, hp, if_false, Option.bind_eq_bind]

/-- A search for the source of some picks gives the best of all its circles. -/
theorem locate_bestOf (hp : picks ≠ []) :
    BestOf (l.locate picks anchor previous) (l.circles picks anchor previous) := by
  have hcoarse := l.locateCoarsely_bestOf picks anchor previous
  rw [locate_eq_bind l picks anchor previous hp, circles]
  cases hc : l.locateCoarsely picks anchor previous with
  | none => simpa [hc] using hcoarse
  | some coarse =>
    rw [hc] at hcoarse
    rw [Option.bind_some]
    exact hcoarse.chain (l.locateClosely_bestOf picks coarse)

/-- A search gives nothing only when no circle around the anchor holds a candidate. -/
theorem locate_eq_none_iff (hp : picks ≠ []) :
    l.locate picks anchor previous = none ↔ ∀ c ∈ l.coarseCircles picks anchor previous, c = none := by
  rw [← (l.locateCoarsely_bestOf picks anchor previous).eq_none_iff, locate_eq_bind l picks anchor previous hp]
  cases hc : l.locateCoarsely picks anchor previous with
  | none => simp
  | some coarse =>
    -- what is sought closely around a candidate is at least that candidate
    have hclose := (l.locateClosely_bestOf picks coarse).eq_none_iff
    rw [Option.bind_some, hclose]
    simp

theorem needsFar_iff : needsFar previous = true ↔ ∀ p, previous = some p → p.correct < farCutoff := by
  cases previous <;> simp [needsFar]

/-- What a search gives is the best candidate of one of its circles, and that of no circle comes before it. No phase
loses the candidate that it started from. A search gives nothing only when no circle nearby holds a candidate, and no
circle far off either, unless the previous solution fits twelve picks. -/
theorem locate_best (hp : picks ≠ []) :
    (∀ h, l.locate picks anchor previous = some h → some h ∈ l.circles picks anchor previous) ∧
      (∀ c ∈ l.circles picks anchor previous, prefersFirst c (l.locate picks anchor previous) = false) ∧
      (∀ phase centre best, prefersFirst best (l.runPhase picks phase centre best) = false) ∧
      (l.locate picks anchor previous = none ↔
        (∀ c ∈ l.nearbyCircles picks anchor, c = none) ∧
          ((∀ p, previous = some p → p.correct < 12) → ∀ c ∈ l.farCircles picks anchor, c = none)) := by
  have hbest := l.locate_bestOf picks anchor previous hp
  refine ⟨fun h hh => hbest.mem h hh, fun c hc => ?_, fun phase centre best => ?_, ?_⟩
  · exact prefersFirst_eq_false_iff.mpr (hbest.first c hc)
  · exact prefersFirst_eq_false_iff.mpr ((l.runPhase_bestOf picks phase centre best).first best List.mem_cons_self)
  · have hfar : (∀ p, previous = some p → p.correct < 12) ↔ needsFar previous = true := (needsFar_iff previous).symm
    rw [l.locate_eq_none_iff picks anchor previous hp, hfar, coarseCircles, List.forall_mem_append]
    refine and_congr_right fun _ => ?_
    split <;> simp [*]

/-- A world on a line: latitudes are kilometres, and a wave takes 16 seconds for a degree. -/
def onLine : Locator where
  geodesy :=
    { distance := fun a b => (a.lat - b.lat).abs, chord := fun _ _ _ _ => 1.0, bearing := fun _ _ => 0.0
      circle := fun centre dist _ => ⟨centre.lat + dist, centre.lon⟩ }
  travelTimes := { pWave := fun _ angle => some (angle * 16.0), sWave := fun _ _ => none, maxDepth := 0.0 }
  settings := {}

/-- Arrivals from a source near kilometre 170. -/
def onLinePicks : List Pick :=
  [⟨23000, ⟨0.0, 0.0⟩, 0.0, .ofFloat 100.0⟩, ⟨3000, ⟨200.0, 0.0⟩, 0.0, .ofFloat 100.0⟩,
    ⟨32000, ⟨400.0, 0.0⟩, 0.0, .ofFloat 100.0⟩]

/-- The only candidate at a distance from the anchor. -/
def onLineCandidate (dist : Float) : Option Hypocenter :=
  let step := onLine.nearby.depthStep
  onLine.bestInColumn onLinePicks (onLine.depthSteps step) step ⟨0.0 + dist, 0.0⟩

/-- The search starts with a candidate that fits no pick and one that fits all three, and ends with one that fits
them, too. -/
theorem locate_best_onLine :
    let anchor : Point := ⟨0.0, 0.0⟩
    ∃ h off close, onLine.locate onLinePicks anchor none = some h ∧
      some h ∈ onLine.circles onLinePicks anchor none ∧
      (∀ c ∈ onLine.circles onLinePicks anchor none, prefersFirst c (some h) = false) ∧
      (∀ phase centre, prefersFirst (some h) (onLine.runPhase onLinePicks phase centre (some h)) = false) ∧
      some off ∈ onLine.nearbyCircles onLinePicks anchor ∧ off.correct = 0 ∧
      some close ∈ onLine.nearbyCircles onLinePicks anchor ∧ close.correct = 3 ∧ 3 ≤ h.correct := by
  intro anchor
  have hp : onLinePicks ≠ [] := List.cons_ne_nil _ _
  obtain ⟨off, hoff⟩ : ∃ off, onLineCandidate (Narrowing.pointAt 0 500.0 (2 / 3)) = some off :=
    Option.isSome_iff_exists.mp (by decide +kernel)
  obtain ⟨close, hclose⟩ : ∃ close, onLineCandidate (Narrowing.pointAt 0 500.0 (1 / 3)) = some close :=
    Option.isSome_iff_exists.mp (by decide +kernel)
  have hoffCorrect : (onLineCandidate (Narrowing.pointAt 0 500.0 (2 / 3))).map (·.correct) = some 0 := by
    decide +kernel
  have hcloseCorrect : (onLineCandidate (Narrowing.pointAt 0 500.0 (1 / 3))).map (·.correct) = some 3 := by
    decide +kernel
  rw [hoff, Option.map_some, Option.some.injEq] at hoffCorrect
  rw [hclose, Option.map_some, Option.some.injEq] at hcloseCorrect
  let circle := fun dist => onLine.bestOnCircle dist onLine.nearby.horizontal anchor onLinePicks onLine.nearby.depthStep
  have hcircle : ∀ dist x, dist ∈ narrowAsked circle onLine.nearby.limit onLine.nearby.steps none →
      onLineCandidate dist = some x → some x ∈ onLine.nearbyCircles onLinePicks anchor :=
    fun dist x hasked hx => List.mem_map.mpr ⟨dist, hasked, onLine.bestOnCircle_uniform onLinePicks fun _ => hx⟩
  obtain ⟨hupper, hlower⟩ :=
    thirds_mem_narrowAsked circle onLine.nearby.limit onLine.nearby.steps none (by decide +kernel)
  have hoffMem := hcircle _ off hupper hoff
  have hcloseMem := hcircle _ close hlower hclose
  obtain ⟨hmem, hfirst, hphase, hnone⟩ := onLine.locate_best onLinePicks anchor none hp
  cases hl : onLine.locate onLinePicks anchor none with
  | none => exact absurd ((hnone.mp hl).1 _ hoffMem) (Option.some_ne_none off)
  | some h =>
    have hin : some close ∈ onLine.circles onLinePicks anchor none :=
      List.mem_append_left _ (List.mem_append_left _ hcloseMem)
    have hbehind : prefersFirst (some close) (some h) = false := hl ▸ hfirst _ hin
    have hcorrect : 3 ≤ h.correct := by
      refine Nat.le_of_not_lt fun hlt => ?_
      have hcompare : compare h.correct close.correct = .lt := Nat.compare_eq_lt.mpr (hcloseCorrect ▸ hlt)
      simp [prefersFirst, Hypocenter.rank, hcompare, Ordering.then] at hbehind
    exact ⟨h, off, close, rfl, hmem h hl, fun c hc => hl ▸ hfirst c hc, fun phase centre => hphase phase centre _,
      hoffMem, hoffCorrect, hcloseMem, hcloseCorrect, hcorrect⟩

/-! ## Uniform worlds -/

/-- When all circles hold one candidate, a search gives it. -/
theorem locate_uniform (hp : picks ≠ []) {x : Hypocenter}
    (h : ∀ phase ∈ [l.nearby, l.far, l.exact, l.deep], ∀ centre dist,
      l.bestOnCircle dist phase.horizontal centre picks phase.depthStep = some x) :
    l.locate picks anchor previous = some x := by
  have hphase : ∀ phase ∈ [l.nearby, l.far, l.exact, l.deep], ∀ centre best, best = none ∨ best = some x →
      l.runPhase picks phase centre best = some x := fun phase hphase centre best hb =>
    narrow_uniform _ _ _ _ (h phase hphase centre) hb
  have hnear : l.runPhase picks l.nearby anchor none = some x := hphase _ (by simp) _ none (Or.inl rfl)
  have hfar : l.runPhase picks l.far anchor (some x) = some x := hphase _ (by simp) _ _ (Or.inr rfl)
  have hexact : l.runPhase picks l.exact x.place (some x) = some x := hphase _ (by simp) _ _ (Or.inr rfl)
  have hdeep : l.runPhase picks l.deep x.place (some x) = some x := hphase _ (by simp) _ _ (Or.inr rfl)
  rw [locate_eq_bind l picks anchor previous hp, locateCoarsely, hnear, hfar, ite_self, Option.bind_some,
    locateClosely, hexact, Option.bind_eq_bind, Option.bind_some, hdeep]

end Locator

end Tremor
