import Tremor.Proofs.TimeShift
import Tremor.Search.Condition

/-!
# Locating a source that is moved in time

A narrowing only compares candidates, so that it takes the same course when all of them are moved in time. With it the
whole search moves along, and so do the verdict on its result and the count of wrong picks.

- `SameCourse` : two narrowings that differ by a move in time
- `narrow_moves`, `runPhase_moves`, `locate_moves` : each part of the search moves along
- `wrongPicks_shift`, `check_shift` : what is judged about a candidate does not see the move
- `locate_shift` : the search is equivariant under moves in time
-/

namespace Tremor

/-! ## Narrowing -/

/-- Two narrowings over the same interval, of candidates and of the same ones moved in time. -/
structure SameCourse {R : Type} (t : Int64) (s s' : Narrowing R) : Prop where
  lower : s'.lower = s.lower
  upper : s'.upper = s.upper
  retainedLow : s'.retainedLow = s.retainedLow
  retained : Moves t s.retained s'.retained
  best : Moves t s.best s'.best

namespace SameCourse

variable {R : Type} [Scalar R] {t : Int64} {s s' : Narrowing R} {sample sample' : R → Option Hypocenter}

theorem question (h : SameCourse t s s') : s'.question = s.question := by
  rw [Narrowing.question, h.lower, h.upper, h.retainedLow, Narrowing.question]

/-- A step keeps the course. -/
theorem step (h : SameCourse t s s') (hq : Moves t (sample s.question) (sample' s.question)) :
    SameCourse t (s.step sample) (s'.step sample') := by
  obtain ⟨lower, upper, retainedLow, retained, best⟩ := s
  obtain ⟨lower', upper', retainedLow', retained', best'⟩ := s'
  obtain ⟨hlower, hupper, hlow, hretained, hbest⟩ := h
  simp only at hlower hupper hlow hretained hbest
  subst hlower hupper hlow
  simp only [Narrowing.question] at hq
  unfold Narrowing.step
  simp only
  generalize Narrowing.pointAt lower' upper' (if retainedLow' = true then 2 / 3 else 1 / 3) = dist at hq ⊢
  rw [hq.prefersFirst hretained]
  -- both narrowings now go to the same side
  refine ⟨rfl, rfl, rfl, ?_, hbest.select (hq.select hretained)⟩
  simp only
  split
  · exact hretained
  · exact hq

theorem run (n : Nat) (h : SameCourse t s s')
    (hq : ∀ dist ∈ Narrowing.asked sample n s, Moves t (sample dist) (sample' dist)) :
    SameCourse t (Narrowing.run sample n s) (Narrowing.run sample' n s') := by
  induction n generalizing s s' with
  | zero => exact h
  | succ n ih =>
    exact ih (h.step (hq _ List.mem_cons_self)) fun dist hd => hq dist (List.mem_cons_of_mem _ hd)

end SameCourse

theorem narrow_moves {R : Type} [Scalar R] {t : Int64} {sample sample' : R → Option Hypocenter} {limit : R}
    {steps : Nat} {best best' : Option Hypocenter} (hb : Moves t best best')
    (hq : ∀ dist ∈ narrowAsked sample limit steps best, Moves t (sample dist) (sample' dist)) :
    Moves t (narrow sample limit steps best) (narrow sample' limit steps best') := by
  have hr := hq _ List.mem_cons_self
  have hs : SameCourse t (Narrowing.start sample limit best) (Narrowing.start sample' limit best') :=
    ⟨rfl, rfl, rfl, hr, hb.select hr⟩
  exact (hs.run steps fun dist hd => hq dist (List.mem_cons_of_mem _ hd)).best

namespace Locator

variable {l : Locator} {t : Int64} {picks : List Pick}

/-! ## Phases -/

theorem runPhase_moves (hp : MovablePicks t picks) {phase : Phase}
    {centre : Point} {best best' : Option Hypocenter} (hb : Moves t best best')
    (h : ∀ c ∈ l.phaseExamined picks phase centre best, Search.Shiftable t picks (l.travels picks c.1 c.2)) :
    Moves t (l.runPhase picks phase centre best) (l.runPhase (picks.map (·.shift t)) phase centre best') := by
  refine narrow_moves hb fun dist hd => bestOnCircle_moves hp fun c hc => ?_
  exact h c (List.mem_flatMap.mpr ⟨dist, hd, hc⟩)

theorem locateCoarsely_moves (hp : MovablePicks t picks) {anchor : Point}
    {previous : Option Hypocenter}
    (h : ∀ c ∈ l.coarselyExamined picks anchor previous, Search.Shiftable t picks (l.travels picks c.1 c.2)) :
    Moves t (l.locateCoarsely picks anchor previous) (l.locateCoarsely (picks.map (·.shift t)) anchor previous) := by
  have hnear := runPhase_moves hp Moves.none fun c hc => h c (List.mem_append_left _ hc)
  simp only [locateCoarsely]
  split
  · rename_i hf
    exact runPhase_moves hp hnear fun c hc => h c (List.mem_append_right _ (by rwa [if_pos hf]))
  · exact hnear

theorem locateClosely_moves (hp : MovablePicks t picks) {coarse : Hypocenter}
    (hc : Movable t coarse.origin)
    (h : ∀ c ∈ l.closelyExamined picks coarse, Search.Shiftable t picks (l.travels picks c.1 c.2)) :
    Moves t (l.locateClosely picks coarse) (l.locateClosely (picks.map (·.shift t)) (coarse.shift t)) := by
  have hclose := runPhase_moves hp (Moves.some hc) fun c hc => h c (List.mem_append_left _ hc)
  simp only [locateClosely, Option.bind_eq_bind]
  refine hclose.bind fun close hfound => ?_
  refine runPhase_moves hp (Moves.some (hclose.movable close hfound)) fun c hc => ?_
  exact h c (List.mem_append_right _ (by rwa [hfound]))

/-- The whole search moves along. -/
theorem locate_moves (hp : MovablePicks t picks) {anchor : Point}
    {previous : Option Hypocenter}
    (h : ∀ c ∈ l.examined picks anchor previous, Search.Shiftable t picks (l.travels picks c.1 c.2)) :
    Moves t (l.locate picks anchor previous) (l.locate (picks.map (·.shift t)) anchor previous) := by
  simp only [locate, List.isEmpty_map, Option.bind_eq_bind]
  unfold examined at h
  split
  · exact Moves.none
  · rename_i he
    rw [if_neg he] at h
    have hcoarse := locateCoarsely_moves hp fun c hc => h c (List.mem_append_left _ hc)
    refine hcoarse.bind fun coarse hfound => ?_
    refine locateClosely_moves hp (hcoarse.movable coarse hfound) fun c hc => ?_
    exact h c (List.mem_append_right _ (by rwa [hfound]))

/-! ## Verdicts -/

/-- A pick contradicts a candidate wherever in time both are moved. -/
theorem contradicts_shift {pick : Pick} {c : Hypocenter} (hp : Movable t pick.pWave) (hc : Movable t c.origin) :
    l.contradicts (c.shift t) (pick.shift t) = l.contradicts c pick := by
  have hd : pick.pWave + t - (c.origin + t) = pick.pWave - c.origin := by
    grind
  have hlt : pick.pWave + t < c.origin + t ↔ pick.pWave < c.origin := by
    rw [Int64.lt_iff_toInt_lt, Int64.lt_iff_toInt_lt, toInt_add_of_inWord hp, toInt_add_of_inWord hc]
    exact Int.add_lt_add_iff_right _
  have hplace : (c.shift t).place = c.place := c.place_shift t
  simp only [contradicts, hplace]
  simp only [Pick.shift, Hypocenter.shift, hd, hlt]

theorem wrongPicks_shift (hp : MovablePicks t picks) {c : Hypocenter} (hc : Movable t c.origin) :
    l.wrongPicks (picks.map (·.shift t)) (c.shift t) = l.wrongPicks picks c := by
  rw [wrongPicks, wrongPicks, List.countP_map]
  refine List.countP_congr fun pick hpick => ?_
  rw [Function.comp_apply, contradicts_shift (hp.movable pick hpick) hc]

/-- The verdict on a candidate does not see the move. -/
theorem check_shift (l : Locator) (t : Int64) (picks : List Pick) (best previous : Option Hypocenter) (root : Point) :
    l.check (picks.map (·.shift t)) (best.map (·.shift t)) previous root = l.check picks best previous root := by
  cases best with
  | none => rfl
  | some h =>
    have hs : l.occupiedSectors (h.shift t) (picks.map (·.shift t)) = l.occupiedSectors h picks := by
      simp only [occupiedSectors, List.map_map]
      rfl
    simp only [Option.map_some, check, hs]
    rfl

/-- The search is equivariant under moves in time: as long as nothing leaves the range of words and no implied origin is
negative, neither before nor after, moved picks have the moved source, with the same count of wrong picks and the same
verdict. -/
theorem locate_shift (l : Locator) (t : Int64) (picks : List Pick) (anchor : Point) (previous : Option Hypocenter)
    (hp : MovablePicks t picks)
    (h : ∀ c ∈ l.examined picks anchor previous, Search.Shiftable t picks (l.travels picks c.1 c.2)) :
    l.locate (picks.map (·.shift t)) anchor previous = (l.locate picks anchor previous).map (·.shift t) ∧
      (∀ c, l.locate picks anchor previous = some c →
        (c.shift t).origin.toInt = c.origin.toInt + t.toInt ∧
          l.wrongPicks (picks.map (·.shift t)) (c.shift t) = l.wrongPicks picks c) ∧
      (∀ c : Hypocenter, Movable t c.origin →
        l.wrongPicks (picks.map (·.shift t)) (c.shift t) = l.wrongPicks picks c) ∧
      ∀ best root, l.check (picks.map (·.shift t)) (best.map (·.shift t)) previous root =
        l.check picks best previous root := by
  have hm := locate_moves hp h
  refine ⟨hm.eq, fun c hc => ?_, fun c hc => wrongPicks_shift hp hc, fun best root => ?_⟩
  · have hc := hm.movable c hc
    exact ⟨toInt_add_of_inWord hc, wrongPicks_shift hp hc⟩
  · exact check_shift l t picks best previous root

/-- Two picks that every place would explain by a travel time of one second, moved by a second. -/
theorem locate_shift_two_picks :
    let times : TravelTimes := { pWave := fun _ _ => some 1.0, sWave := fun _ _ => none, maxDepth := 10.0 }
    let l : Locator := { geodesy := .sphere, travelTimes := times, settings := {} }
    let picks : List Pick := [⟨5000, ⟨0.0, 0.0⟩, 0.0, 100.0⟩, ⟨7000, ⟨1.0, 1.0⟩, 0.0, 100.0⟩]
    l.locate (picks.map (·.shift 1000)) ⟨0.0, 0.0⟩ none = (l.locate picks ⟨0.0, 0.0⟩ none).map (·.shift 1000) := by
  intro times l picks
  have hmillis : Search.millis 1.0 = 1000 := by decide +kernel
  have horigins : ∀ place depth, Search.exactOrigins picks (l.travels picks place depth) = [4000, 6000] := by
    intro place depth
    show [(5000 : Int) - (Search.millis 1.0).toInt, (7000 : Int) - (Search.millis 1.0).toInt] = [4000, 6000]
    rw [hmillis]
    rfl
  have hp : MovablePicks 1000 picks := by
    refine ⟨by decide, ?_⟩
    simp only [picks, List.forall_mem_cons]
    exact ⟨⟨by decide, by decide⟩, ⟨by decide, by decide⟩, by simp⟩
  refine (locate_shift l 1000 picks ⟨0.0, 0.0⟩ none hp fun c _ => ?_).1
  refine ⟨?_, ?_, ?_, ?_⟩ <;> rw [horigins] <;> decide

end Locator

end Tremor
