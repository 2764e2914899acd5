import Tremor.Proofs.MeanOrigin
import Tremor.Proofs.SearchTrace

/-!
# Moving a search in time

When all picks are moved by one span of time, so are the candidates: the differences between picks and origins stay,
and the mean of the implied origins moves along as long as these are not negative (`Search.Shiftable`).

- `meanOrigin_shift` : the mean origin moves along
- `Moves` : a candidate and the same one moved
- `Moves.prefersFirst`, `Moves.select` : the ranking does not see the move
- `bestOnCircle_moves` : the best candidate of a circle moves along
-/

namespace Tremor

/-- A pick moved in time. -/
def Pick.shift (t : Int64) (p : Pick) : Pick := { p with pWave := p.pWave + t }

/-- A candidate moved in time. -/
def Hypocenter.shift (t : Int64) (h : Hypocenter) : Hypocenter := { h with origin := h.origin + t }

@[simp] theorem Pick.place_shift (t : Int64) (p : Pick) : (p.shift t).place = p.place := rfl

@[simp] theorem Hypocenter.place_shift (t : Int64) (h : Hypocenter) : (h.shift t).place = h.place := rfl

/-- The move of one time does not leave the range of words. -/
def Movable (t x : Int64) : Prop := InWord (x.toInt + t.toInt)

/-- Picks that can be moved: a word can count them, and none of them leaves the range of words. -/
structure MovablePicks (t : Int64) (picks : List Pick) : Prop where
  countable : picks.length < 0x8000000000000000
  movable : ∀ p ∈ picks, Movable t p.pWave

/-! ## Origins -/

namespace Search

/-- The implied origins are not negative, before and after the move, and their sums fit into words. -/
structure Shiftable (t : Int64) (picks : List Pick) (travels : List (Option Float)) : Prop where
  before : ∀ o ∈ exactOrigins picks travels, 0 ≤ o
  after : ∀ o ∈ exactOrigins picks travels, 0 ≤ o + t.toInt
  sum_before : (exactOrigins picks travels).sum < 0x8000000000000000
  sum_after : ((exactOrigins picks travels).map (· + t.toInt)).sum < 0x8000000000000000

theorem exactOrigins_shift {t : Int64} : ∀ {picks : List Pick} (travels : List (Option Float)),
    (∀ p ∈ picks, Movable t p.pWave) →
    exactOrigins (picks.map (·.shift t)) travels = (exactOrigins picks travels).map (· + t.toInt)
  | pick :: picks, some travel :: travels, h => by
    have hp : exactOrigin (pick.shift t) travel = exactOrigin pick travel + t.toInt := by
      rw [exactOrigin, Pick.shift, toInt_add_of_inWord (h pick List.mem_cons_self), exactOrigin]
      omega
    rw [List.map_cons, exactOrigins, exactOrigins, List.map_cons, hp,
      exactOrigins_shift travels fun p hp => h p (List.mem_cons_of_mem _ hp)]
  | _ :: _, none :: travels, h => exactOrigins_shift travels fun p hp => h p (List.mem_cons_of_mem _ hp)
  | [], _, _ => rfl
  | _ :: _, [], _ => rfl

/-- A sum of terms that are not negative fits into a word when it is not too great. -/
theorem inWord_sum {xs : List Int} (h : ∀ x ∈ xs, 0 ≤ x) (hs : xs.sum < 0x8000000000000000) : InWord xs.sum := by
  have hsum : 0 ≤ xs.sum := List.sum_nonneg h
  exact ⟨by omega, hs⟩

variable {t : Int64} {picks : List Pick} {travels : List (Option Float)}

/-- The mean of moved origins that are not negative. -/
theorem exactMean_shift {sum count : Int} (hc : 0 < count) (hs : 0 ≤ sum) (hlt : sum < 0x8000000000000000)
    (hs' : 0 ≤ sum + count * t.toInt) (hlt' : sum + count * t.toInt < 0x8000000000000000) :
    ∃ o, exactMean sum count = some o ∧ exactMean (sum + count * t.toInt) count = some (o + t) ∧ Movable t o := by
  have hmean : (sum + count * t.toInt) / count = sum / count + t.toInt :=
    Int.add_mul_ediv_left sum t.toInt (by omega)
  have h0 := Int.ediv_nonneg hs (Int.le_of_lt hc)
  have h1 := Int.ediv_le_self count hs
  have h0' := Int.ediv_nonneg hs' (Int.le_of_lt hc)
  have h1' := Int.ediv_le_self count hs'
  have ho : (Int64.ofInt (sum / count)).toInt = sum / count := toInt_ofInt_of_inWord ⟨by omega, by omega⟩
  -- truncation rounds both means down, since neither sum is negative
  refine ⟨Int64.ofInt (sum / count), ?_, ?_, ?_⟩
  · rw [exactMean, if_pos hc, Int.tdiv_eq_ediv_of_nonneg hs]
  · rw [exactMean, if_pos hc, Int.tdiv_eq_ediv_of_nonneg hs', hmean, Int64.ofInt_add, Int64.ofInt_toInt]
  · rw [Movable, ho]
    exact ⟨by omega, by omega⟩

/-- The mean origin moves along. -/
theorem meanOrigin_shift (hp : MovablePicks t picks) (h : Shiftable t picks travels) :
    meanOrigin (picks.map (·.shift t)) travels = (meanOrigin picks travels).map (· + t) ∧
      ∀ o, meanOrigin picks travels = some o → Movable t o := by
  have hafter : ∀ o ∈ (exactOrigins picks travels).map (· + t.toInt), 0 ≤ o := by
    simp only [List.forall_mem_map]
    exact h.after
  have hsum : ((exactOrigins picks travels).map (· + t.toInt)).sum =
      (exactOrigins picks travels).sum + (exactOrigins picks travels).length * t.toInt := by
    simp [List.sum_map_add]
  rw [meanOrigin_eq hp.countable (inWord_sum h.before h.sum_before),
    meanOrigin_eq (by
      rw [List.length_map]
      exact hp.countable) (by
      rw [exactOrigins_shift travels hp.movable]
      exact inWord_sum hafter h.sum_after),
    exactOrigins_shift travels hp.movable, hsum, List.length_map]
  rcases Nat.eq_zero_or_pos (exactOrigins picks travels).length with hl | hl
  · rw [hl]
    exact ⟨rfl, fun o ho => nomatch ho⟩
  · obtain ⟨o, ho, ho', hm⟩ := exactMean_shift (Int.natCast_pos.mpr hl) (List.sum_nonneg h.before) h.sum_before
      (hsum ▸ List.sum_nonneg hafter) (hsum ▸ h.sum_after)
    rw [ho, ho']
    refine ⟨rfl, fun x hx => ?_⟩
    cases hx
    exact hm

/-! ## Scores -/

theorem residual_shift (origin : Int64) (pick : Pick) (travel : Option Float) :
    residual (origin + t) (pick.shift t) travel = residual origin pick travel := by
  have hd : pick.pWave + t - (origin + t) = pick.pWave - origin := by
    grind
  unfold residual Pick.shift
  rw [hd]

theorem scoreFrom_shift (tolerance : Float) (origin : Int64) : ∀ (picks : List Pick) (travels : List (Option Float))
    (error : Float) (correct : Nat),
    scoreFrom tolerance (origin + t) (picks.map (·.shift t)) travels error correct =
      scoreFrom tolerance origin picks travels error correct
  | pick :: picks, travel :: travels, error, correct => by
    simp only [List.map_cons, scoreFrom, residual_shift]
    exact scoreFrom_shift tolerance origin picks travels _ _
  | [], _, _, _ => rfl
  | _ :: _, [], _, _ => rfl

end Search

/-! ## Candidates -/

/-- A candidate, if there is one, and the same one moved within the range of words. -/
structure Moves (t : Int64) (a b : Option Hypocenter) : Prop where
  eq : b = a.map (·.shift t)
  movable : ∀ h, a = some h → Movable t h.origin

namespace Moves

variable {t : Int64} {a b a' b' : Option Hypocenter}

theorem none : Moves t none none := ⟨rfl, fun _ h => nomatch h⟩

theorem some {x : Hypocenter} (h : Movable t x.origin) : Moves t (some x) (some (x.shift t)) := by
  refine ⟨rfl, fun y hy => ?_⟩
  cases hy
  exact h

/-- What is found from a candidate moves along with it. -/
theorem bind (h : Moves t a b) {f g : Hypocenter → Option Hypocenter}
    (hf : ∀ x, a = .some x → Moves t (f x) (g (x.shift t))) : Moves t (a.bind f) (b.bind g) := by
  rw [h.eq]
  cases a with
  | none => exact Moves.none
  | some x => exact hf x rfl

theorem rank_shift {x y : Hypocenter} (hx : Movable t x.origin) (hy : Movable t y.origin) :
    (x.shift t).rank (y.shift t) = x.rank y := by
  simp only [Hypocenter.rank, Hypocenter.shift, compare_add_right hx hy]

/-- The ranking does not see the move. -/
theorem prefersFirst (h : Moves t a b) (h' : Moves t a' b') : prefersFirst b b' = Tremor.prefersFirst a a' := by
  rw [h.eq, h'.eq]
  cases a with
  | none => rfl
  | some x =>
    cases a' with
    | none => rfl
    | some y =>
      show ((x.shift t).rank (y.shift t) == .lt) = (x.rank y == .lt)
      rw [rank_shift (h.movable x rfl) (h'.movable y rfl)]

/-- The better of two candidates moves along. -/
theorem select (h : Moves t a b) (h' : Moves t a' b') : Moves t (selectBetter a a') (selectBetter b b') := by
  rw [selectBetter, selectBetter, h.prefersFirst h']
  split
  · exact h
  · exact h'

end Moves

namespace Locator

variable {l : Locator} {t : Int64} {picks : List Pick}

theorem angles_shift (l : Locator) (t : Int64) (picks : List Pick) (place : Point) :
    l.angles (picks.map (·.shift t)) place = l.angles picks place := by
  simp [angles, Function.comp_def]

/-- A candidate moves along. -/
theorem candidate_moves (hp : MovablePicks t picks) {place : Point}
    {depth : Float} (h : Search.Shiftable t picks (l.travels picks place depth)) :
    Moves t (l.candidate picks place (l.angles picks place) depth)
      (l.candidate (picks.map (·.shift t)) place (l.angles picks place) depth) := by
  obtain ⟨hm, ho⟩ := Search.meanOrigin_shift hp h
  have hm : Search.meanOrigin (picks.map (·.shift t)) ((l.angles picks place).map (l.travelTimes.pWave depth)) =
    (Search.meanOrigin picks ((l.angles picks place).map (l.travelTimes.pWave depth))).map (· + t) := hm
  constructor
  · simp only [candidate, Search.scoredAt, hm, Option.map_map]
    congr 1
    funext origin
    simp only [Function.comp_apply, Search.score, Search.scoreFrom_shift]
    rfl
  · intro x hx
    obtain ⟨origin, horigin, rfl⟩ := Option.map_eq_some_iff.mp hx
    exact ho origin horigin

theorem bestInColumn_moves (hp : MovablePicks t picks) {place : Point}
    {depthStep : Float}
    (h : ∀ depth ∈ l.depths depthStep, Search.Shiftable t picks (l.travels picks place depth)) :
    Moves t (l.bestInColumn picks (l.depthSteps depthStep) depthStep place)
      (l.bestInColumn (picks.map (·.shift t)) (l.depthSteps depthStep) depthStep place) := by
  simp only [bestInColumn, angles_shift]
  refine List.foldl_rel Moves.none fun step hstep a b hab => ?_
  have hc := candidate_moves hp (h _ (List.mem_map_of_mem hstep))
  generalize l.candidate picks place (l.angles picks place) (step.toFloat * depthStep) = c at hc ⊢
  generalize l.candidate (picks.map (·.shift t)) place (l.angles picks place) (step.toFloat * depthStep) = c' at hc ⊢
  have he := hc.eq
  cases c with
  | none =>
    subst he
    exact hab
  | some x =>
    subst he
    exact hc.select hab

/-- The best candidate of a circle moves along. -/
theorem bestOnCircle_moves (hp : MovablePicks t picks)
    {dist horizontal depthStep : Float} {centre : Point}
    (h : ∀ c ∈ l.grid dist horizontal centre depthStep, Search.Shiftable t picks (l.travels picks c.1 c.2)) :
    Moves t (l.bestOnCircle dist horizontal centre picks depthStep)
      (l.bestOnCircle dist horizontal centre (picks.map (·.shift t)) depthStep) := by
  refine List.foldl_rel Moves.none fun i hi a b hab => hab.select (bestInColumn_moves hp fun depth hd => ?_)
  exact h (_, depth) (List.mem_flatMap.mpr ⟨_, List.mem_map_of_mem hi, List.mem_map_of_mem hd⟩)

end Locator

end Tremor
