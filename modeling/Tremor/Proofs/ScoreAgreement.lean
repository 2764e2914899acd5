import Tremor.Proofs.NearbyDoubles
import Tremor.Proofs.SearchTrace
import Tremor.Proofs.Words
import Tremor.Search.Condition

/-!
# Picks that fit and picks that contradict

A pick fits a candidate when the difference of the travel times, in seconds, is below the tolerance; it contradicts
the candidate when their difference in whole milliseconds is above it. Rounding and truncation can part the two by no
more than a millisecond. Yet a pick can be counted both ways: the difference in seconds takes an arrival before the
origin for one after it, and a tolerance may even admit what stands for a missing arrival.

- `Search.abs_millis_sub_le` : what fits is off by at most a millisecond more than the tolerance
- `Locator.misjudged` : the picks that are counted both ways when they fit
- `Locator.correct_add_wrong_le` : no others are counted both ways
- `Locator.not_correct_add_wrong_le` : a pick before the origin is
-/

namespace Tremor

open Number

variable {t d : Int64}

namespace Search

/-! ## Whole milliseconds -/

theorem hasValue_noArrivalPenalty : HasValue noArrivalPenalty 9999 := by
  have hunpack : noArrivalPenalty.toModel.unpack = .finite .positive 5497008383066112 (-39) (by decide) := rfl
  convert hasValue_of_unpack hunpack using 1
  norm_num [signed]

/-- The observed travel time in seconds. -/
theorem exists_hasValue_observed (hd : |d.toInt| ≤ 10 ^ 15) :
    ∃ s, HasValue (ofInt64 d / 1000.0).abs s ∧ |s - |(d.toInt : ℚ)| / 1000| < 1 / 4096 := by
  have hcast : |(d.toInt : ℚ)| ≤ 10 ^ 15 := by exact_mod_cast hd
  have hsmall : |d.toInt| < 0x20000000000000 := by omega
  have hquotient : |(d.toInt : ℚ) / 1000| = |(d.toInt : ℚ)| / 1000 := by
    rw [abs_div, abs_of_pos (by norm_num : (0 : ℚ) < 1000)]
  have hfaithful := faithful_div (hasValue_ofInt64 hsmall) hasValue_thousand (by norm_num)
  obtain ⟨s, hs, hnear⟩ := hfaithful.near (by rw [hquotient]; linarith)
  refine ⟨|s|, hs.abs, ?_⟩
  rw [← hquotient]
  exact (abs_abs_sub_abs_le _ _).trans_lt hnear

/-- A tolerance that a pick fits bounds its difference before anything is rounded, but for less than half a
millisecond. -/
theorem exists_abs_sub_lt {origin : Int64} {pick : Pick} {expected : Float} (ht : |t.toInt| ≤ 10 ^ 15)
    (hd : |(pick.pWave - origin).toInt| ≤ 10 ^ 15)
    (h : fits (ofInt64 t) (residual origin pick (some expected)) = true) :
    0 < t.toInt ∧ ∃ v, HasValue expected v ∧
      |v * 1000 - (|(pick.pWave - origin).toInt| : Int)| < t.toInt + 1 / 2 := by
  obtain ⟨htlow, hthigh⟩ := abs_le.mp ht
  obtain ⟨s, hs, hnear⟩ := exists_hasValue_observed hd
  have htolerance := hasValue_ofInt64 (i := t) (abs_lt.mpr (by omega))
  have hlt : (expected - (ofInt64 (pick.pWave - origin) / 1000.0).abs).abs * 1000.0 < ofInt64 t := of_decide_eq_true h
  obtain ⟨r, hr⟩ := exists_hasValue_of_abs_mul_lt hasValue_thousand (by norm_num) hlt
  obtain ⟨v, hv⟩ := exists_hasValue_of_sub hr hs
  have hscaled : |r| * 1000 < t.toInt := (faithful_mul hr.abs hasValue_thousand).lt_of_lt htolerance hlt
  have hpos : (0 : ℚ) < t.toInt := (mul_nonneg (abs_nonneg r) (by norm_num)).trans_lt hscaled
  have hlarge : (t.toInt : ℚ) ≤ 10 ^ 15 := by exact_mod_cast hthigh
  have hexact : |v - s| < t.toInt / 1000 + 1 / 4096 :=
    (faithful_sub hv hs).abs_lt_of_abs_lt hr (by linarith) (by linarith)
  refine ⟨by exact_mod_cast hpos, v, hv, ?_⟩
  rw [Int.cast_abs]
  rw [abs_lt] at hnear hexact ⊢
  constructor <;> linarith

/-- A pick that fits is off by at most a millisecond more than the tolerance, when both are counted in whole
milliseconds. -/
theorem abs_millis_sub_le {origin : Int64} {pick : Pick} {expected : Float} (ht : |t.toInt| ≤ 10 ^ 15)
    (hd : |(pick.pWave - origin).toInt| ≤ 10 ^ 15)
    (h : fits (ofInt64 t) (residual origin pick (some expected)) = true) :
    0 < t.toInt ∧ |(millis expected).toInt - (|(pick.pWave - origin).toInt| : Int)| ≤ t.toInt + 1 := by
  obtain ⟨hpos, v, hv, hoff⟩ := exists_abs_sub_lt ht hd h
  have hnonneg := abs_nonneg (pick.pWave - origin).toInt
  obtain ⟨-, hthigh⟩ := abs_le.mp ht
  generalize |(pick.pWave - origin).toInt| = a at hd hoff hnonneg ⊢
  obtain ⟨hofflow, hoffhigh⟩ := abs_lt.mp hoff
  obtain ⟨hlow, hhigh⟩ := (faithful_mul hv hasValue_thousand).truncate_mem (l := a - t.toInt - 1)
    (u := a + t.toInt + 1) (abs_lt.mpr (by omega)) (abs_lt.mpr (by omega)) (by push_cast; linarith)
    (by push_cast; linarith)
  rw [millis, abs_le]
  omega

/-- The difference of two words is above a tolerance when it is so as a whole number. -/
theorem lt_ofInt64_abs_sub_iff {a b : Int64} (ht : |t.toInt| < 0x20000000000000)
    (hab : |a.toInt - b.toInt| < 0x20000000000000) :
    ofInt64 t < ofInt64 (a - b).abs ↔ t.toInt < |a.toInt - b.toInt| := by
  obtain ⟨hlow, hhigh⟩ := abs_lt.mp hab
  have hsub : (a - b).toInt = a.toInt - b.toInt := toInt_sub_of_inWord ⟨by omega, by omega⟩
  have habs : (a - b).abs.toInt = |a.toInt - b.toInt| := by
    rw [toInt_abs (by omega), hsub, Int.natCast_natAbs]
  rw [lt_iff_of_hasValue (hasValue_ofInt64 ht) (hasValue_ofInt64 (by rwa [habs, abs_abs])), Int.cast_lt, habs]

/-- A missing arrival fits only a tolerance that is longer than what stands for it. -/
theorem lt_of_fits_noArrivalPenalty (ht : |t.toInt| ≤ 10 ^ 15) (h : fits (ofInt64 t) noArrivalPenalty = true) :
    9999000 < t.toInt := by
  obtain ⟨htlow, hthigh⟩ := abs_le.mp ht
  have htolerance := hasValue_ofInt64 (i := t) (abs_lt.mpr (by omega))
  have hlt := (faithful_mul hasValue_noArrivalPenalty hasValue_thousand).lt_of_lt htolerance (of_decide_eq_true h)
  norm_num at hlt
  exact_mod_cast hlt

/-! ## Counting -/

/-- The number of picks that fit. -/
theorem scoreFrom_snd (tolerance : Float) (origin : Int64) (travel : Pick → Option Float) :
    ∀ (picks : List Pick) (error : Float) (correct : ℕ),
      (scoreFrom tolerance origin picks (picks.map travel) error correct).2 =
        correct + picks.countP fun pick => fits tolerance (residual origin pick (travel pick))
  | [], error, correct => rfl
  | pick :: picks, error, correct => by
    rw [List.map_cons, scoreFrom, scoreFrom_snd, List.countP_cons]
    split <;> omega

end Search

namespace Locator

variable {l : Locator} {h : Hypocenter} {pick : Pick}

/-- The travel time that a candidate predicts for a pick. -/
def arrival (l : Locator) (h : Hypocenter) (pick : Pick) : Option Float :=
  l.travelTimes.pWave h.depth.toFloat (Geo.arc (l.geodesy.distance pick.place h.place))

/-- Whether a pick is counted as one that fits. -/
def supports (l : Locator) (h : Hypocenter) (pick : Pick) : Bool :=
  Search.fits l.settings.tolerance (Search.residual h.origin pick (l.arrival h pick))

theorem score_snd (l : Locator) (picks : List Pick) (h : Hypocenter) :
    (Search.score l.settings.tolerance h.origin picks (l.travels picks h.place h.depth.toFloat)).2 =
      picks.countP (l.supports h) := by
  have htravels : l.travels picks h.place h.depth.toFloat = picks.map (l.arrival h) := List.map_map
  rw [Search.score, htravels, Search.scoreFrom_snd, Nat.zero_add]
  rfl

/-- Whether the tolerance or the time since the origin is longer than thirty thousand years. -/
def outOfRange (t : Int64) (h : Hypocenter) (pick : Pick) : Bool :=
  decide (10 ^ 15 < |t.toInt|) || decide (10 ^ 15 < |pick.pWave.toInt - h.origin.toInt|)

/-- Whether a pick that fits is counted as one that contradicts, too: it comes before the origin, no wave arrives, or it
is off by a millisecond more than the tolerance. -/
def misjudged (l : Locator) (t : Int64) (h : Hypocenter) (pick : Pick) : Bool :=
  decide (pick.pWave < h.origin) ||
    match l.arrival h pick with
    | none => decide (9999000 < t.toInt)
    | some expected =>
      decide (|(Search.millis expected).toInt - (pick.pWave.toInt - h.origin.toInt)| = t.toInt + 1)

/-- Within range, the picks that are counted both ways are known. -/
theorem contradicts_of_supports (ht : l.settings.tolerance = ofInt64 t) (hrange : outOfRange t h pick = false)
    (hs : l.supports h pick = true) : l.contradicts h pick = l.misjudged t h pick := by
  simp only [outOfRange, Bool.or_eq_false_iff, decide_eq_false_iff_not, not_lt] at hrange
  obtain ⟨htolerance, hpick⟩ := hrange
  rw [supports, ht] at hs
  have hmatch : l.contradicts h pick = match l.arrival h pick with
    | none => true
    | some expected => decide (pick.pWave < h.origin) ||
        decide (ofInt64 (Search.millis expected - (pick.pWave - h.origin).abs).abs > l.settings.tolerance) := rfl
  rw [hmatch, misjudged]
  cases harrival : l.arrival h pick with
  | none =>
    rw [harrival] at hs
    have hlarge := Search.lt_of_fits_noArrivalPenalty htolerance hs
    simp [hlarge]
  | some expected =>
    rw [harrival] at hs
    obtain ⟨htlow, hthigh⟩ := abs_le.mp htolerance
    have hsub : (pick.pWave - h.origin).toInt = pick.pWave.toInt - h.origin.toInt := by
      obtain ⟨hlow, hhigh⟩ := abs_le.mp hpick
      exact toInt_sub_of_inWord ⟨by omega, by omega⟩
    obtain ⟨hpos, hle⟩ := Search.abs_millis_sub_le htolerance (by rwa [hsub]) hs
    by_cases hearly : pick.pWave < h.origin
    · simp [hearly]
    · -- the pick is not before the origin, so that its observed time is not mirrored
      rw [Int64.lt_iff_toInt_lt] at hearly
      have hobserved : |(pick.pWave - h.origin).toInt| = pick.pWave.toInt - h.origin.toInt := by
        rw [hsub]
        exact abs_of_nonneg (by omega)
      rw [hobserved] at hle
      have hword : (pick.pWave - h.origin).abs.toInt = pick.pWave.toInt - h.origin.toInt := by
        rw [toInt_abs (by omega), Int.natCast_natAbs, hobserved]
      have hmore := Search.lt_ofInt64_abs_sub_iff (t := t) (a := Search.millis expected)
        (b := (pick.pWave - h.origin).abs) (abs_lt.mpr (by omega)) (by rw [hword]; omega)
      rw [hword] at hmore
      have hmarginal : t.toInt < |(Search.millis expected).toInt - (pick.pWave.toInt - h.origin.toInt)| ↔
          |(Search.millis expected).toInt - (pick.pWave.toInt - h.origin.toInt)| = t.toInt + 1 := by omega
      simp only [ht, gt_iff_lt, hmore, hmarginal]

theorem countP_add_countP_le {α : Type} {p q r : α → Bool} (hr : ∀ a, p a = true → q a = true → r a = true) :
    ∀ as : List α, as.countP p + as.countP q ≤ as.length + as.countP r
  | [] => Nat.le_refl 0
  | a :: as => by
    have hrest := countP_add_countP_le hr as
    have ha := hr a
    simp only [List.countP_cons, List.length_cons]
    cases hp : p a <;> cases hq : q a <;> simp_all <;> omega

/-- Out of the picks that fit, those that contradict the candidate as well are misjudged, unless they or the tolerance
are out of range; so the two counts exceed the number of picks by no more than the number of these. -/
theorem correct_add_wrong_le (l : Locator) (ht : l.settings.tolerance = ofInt64 t) (picks : List Pick)
    (h : Hypocenter) :
    let correct := (Search.score l.settings.tolerance h.origin picks (l.travels picks h.place h.depth.toFloat)).2
    correct = picks.countP (l.supports h) ∧
      (∀ pick, l.supports h pick = true → l.contradicts h pick = true →
        l.misjudged t h pick = true ∨ outOfRange t h pick = true) ∧
      correct + l.wrongPicks picks h ≤
        picks.length + picks.countP fun pick => l.misjudged t h pick || outOfRange t h pick := by
  intro correct
  have hboth : ∀ pick, l.supports h pick = true → l.contradicts h pick = true →
      l.misjudged t h pick = true ∨ outOfRange t h pick = true := by
    intro pick hs hc
    rcases Bool.eq_false_or_eq_true (outOfRange t h pick) with hout | hin
    · exact Or.inr hout
    · exact Or.inl ((contradicts_of_supports ht hin hs).symm.trans hc)
  refine ⟨l.score_snd picks h, hboth, ?_⟩
  have hcorrect : correct = picks.countP (l.supports h) := l.score_snd picks h
  rw [hcorrect, wrongPicks]
  exact countP_add_countP_le (fun pick hs hc => Bool.or_eq_true_iff.mpr (hboth pick hs hc)) picks

/-- A wave takes half a second to every place. -/
def halfSecond : Locator where
  geodesy := .sphere
  travelTimes := { pWave := fun _ _ => some 0.5, sWave := fun _ _ => none, maxDepth := 0.0 }
  settings := {}

/-- Of two picks, one comes half a second before the mean of the origin times that they imply, and the other one half a
second after it. -/
def halfSecondPicks : List Pick := [⟨0, ⟨0.0, 0.0⟩, 0.0, 100.0⟩, ⟨1000, ⟨1.0, 1.0⟩, 0.0, 100.0⟩]

/-- Both picks fit, and one of them contradicts, which is before the origin. -/
theorem correct_add_wrong_le_half_second :
    let h : Hypocenter := .scored ⟨0.0, 0.0⟩ 0.0 500 0.0 2
    halfSecond.settings.tolerance = ofInt64 1000 ∧
      halfSecond.wrongPicks halfSecondPicks h = 1 ∧ halfSecondPicks.countP (halfSecond.supports h) = 2 ∧
      2 + 1 ≤ halfSecondPicks.length +
        halfSecondPicks.countP fun pick => halfSecond.misjudged 1000 h pick || outOfRange 1000 h pick := by
  intro h
  have ht : halfSecond.settings.tolerance = ofInt64 1000 := by rfl
  have hwrong : halfSecond.wrongPicks halfSecondPicks h = 1 := by decide +kernel
  have hsupports : halfSecondPicks.countP (halfSecond.supports h) = 2 := by decide +kernel
  obtain ⟨hcorrect, -, hle⟩ := halfSecond.correct_add_wrong_le ht halfSecondPicks h
  rw [hcorrect, hsupports, hwrong] at hle
  exact ⟨ht, hwrong, hsupports, hle⟩

/-- A pick can be counted both ways, so that the two counts exceed the number of picks. -/
theorem not_correct_add_wrong_le :
    ¬ ∀ (l : Locator) (t : Int64) (picks : List Pick) (h : Hypocenter), l.settings.tolerance = ofInt64 t →
      (∀ pick ∈ picks, l.supports h pick = true → l.contradicts h pick = false) ∧
        (Search.score l.settings.tolerance h.origin picks (l.travels picks h.place h.depth.toFloat)).2 + l.wrongPicks picks h ≤
          picks.length := by
  intro hall
  obtain ⟨-, hle⟩ := hall halfSecond 1000 halfSecondPicks
    (.scored ⟨0.0, 0.0⟩ 0.0 500 0.0 2) rfl
  revert hle
  decide +kernel

end Locator

end Tremor
