import Mathlib.Tactic.Linarith
import Mathlib.Tactic.Positivity
import Mathlib.Tactic.Ring
import Tremor.Proofs.SearchBest

/-!
# The third points of a narrowing

A narrowing keeps one sample and asks for one more at each step. The kept sample is one third point of the interval and
the new one is the other. The half that is gone on with holds the third point of the better of the two, and there it is a
third point again; a flag tells which. Read at the rationals, that is exact, so no sample is ever taken for that of
another distance.

- `Narrowing.kept`, `Narrowing.preferred` : the distance of the kept sample, and that of the better of the two
- `step_up`, `step_down` : the two ways of a step
- `kept_step` : the preferred distance is the third point of the next interval
- `Aligned`, `Inside` : what holds before every step
- `retained_run_bestOf` : the kept sample is the best of all so far
- `third_points_reused` : all of it, for every step of a narrowing
-/

namespace Tremor.Narrowing

/-! ## Steps -/

section

variable {R : Type} [Scalar R] {sample : R → Option Hypocenter} {s : Narrowing R} {cs : List (Option Hypocenter)}

/-- The third point of the interval at which the kept sample stands. -/
def kept (s : Narrowing R) : R := pointAt s.lower s.upper (if s.retainedLow then 1 / 3 else 2 / 3)

/-- The middle of the interval. -/
def middle (s : Narrowing R) : R := (s.upper + s.lower) / 2

/-- The distance of the better one of the kept and the new sample; the kept one's when neither is better. -/
def preferred (sample : R → Option Hypocenter) (s : Narrowing R) : R :=
  if prefersFirst (sample s.question) s.retained then s.question else s.kept

/-- The better sample stands at the upper third point: the search goes on in the upper half. -/
theorem step_up (h : s.retainedLow = prefersFirst (sample s.question) s.retained) :
    (s.step sample).lower = s.middle ∧ (s.step sample).upper = s.upper ∧ (s.step sample).retainedLow = true := by
  have hup : ((!prefersFirst (sample s.question) s.retained) == s.retainedLow) = false := by
    rw [← h]
    cases s.retainedLow <;> rfl
  simp only [question] at hup
  simp only [step, hup]
  exact ⟨rfl, rfl, rfl⟩

/-- The better sample stands at the lower third point: the search goes on in the lower half. -/
theorem step_down (h : s.retainedLow ≠ prefersFirst (sample s.question) s.retained) :
    (s.step sample).lower = s.lower ∧ (s.step sample).upper = s.middle ∧ (s.step sample).retainedLow = false := by
  have hdown : ((!prefersFirst (sample s.question) s.retained) == s.retainedLow) = true := by
    rw [beq_iff_eq, Bool.eq_not_of_ne h]
  simp only [question] at hdown
  simp only [step, hdown]
  exact ⟨rfl, rfl, rfl⟩

theorem step_half (sample : R → Option Hypocenter) (s : Narrowing R) :
    (s.step sample).lower = s.lower ∧ (s.step sample).upper = s.middle ∨
      (s.step sample).lower = s.middle ∧ (s.step sample).upper = s.upper := by
  by_cases h : s.retainedLow = prefersFirst (sample s.question) s.retained
  · obtain ⟨hlower, hupper, -⟩ := step_up h
    exact Or.inr ⟨hlower, hupper⟩
  · obtain ⟨hlower, hupper, -⟩ := step_down h
    exact Or.inl ⟨hlower, hupper⟩

/-- A step keeps the better one of the two samples. -/
theorem retained_step (sample : R → Option Hypocenter) (s : Narrowing R) :
    (s.step sample).retained = selectBetter (sample s.question) s.retained := by
  unfold selectBetter
  split
  · rename_i h
    simp only [question] at h
    simp only [step, question, h]
    rfl
  · rename_i h
    rw [Bool.not_eq_true] at h
    simp only [question] at h
    simp only [step, h]
    rfl

/-- The kept sample is the best of all that were taken. -/
theorem retained_run_bestOf (n : Nat) (h : BestOf s.retained cs) :
    BestOf (run sample n s).retained (cs ++ (asked sample n s).map sample) := by
  induction n generalizing s cs with
  | zero => simpa [asked, run] using h
  | succ n ih =>
    have hstep : BestOf (s.step sample).retained (cs ++ [sample s.question]) := by
      rw [retained_step]
      refine ((BestOf.single (sample s.question)).select h).congr fun c => ?_
      simp only [List.mem_append, or_comm]
    have hrest := ih hstep
    rwa [List.append_assoc] at hrest

end

/-! ## Exact distances -/

variable {sample : Rat → Option Hypocenter} {limit : Rat} {k : Nat} {s : Narrowing Rat}

theorem kept_eq (s : Narrowing Rat) :
    s.kept = s.lower + (s.upper - s.lower) * if s.retainedLow then 1 / 3 else 2 / 3 := by
  cases h : s.retainedLow <;> simp only [kept, h] <;> rfl

theorem question_eq (s : Narrowing Rat) :
    s.question = s.lower + (s.upper - s.lower) * if s.retainedLow then 2 / 3 else 1 / 3 := by
  cases h : s.retainedLow <;> simp only [question, h] <;> rfl

theorem middle_eq (s : Narrowing Rat) : s.middle = (s.upper + s.lower) / 2 := rfl

/-- The preferred distance is the third point of the next interval that the flag tells. -/
theorem kept_step (sample : Rat → Option Hypocenter) (s : Narrowing Rat) :
    (s.step sample).kept = s.preferred sample := by
  have hmiddle := s.middle_eq
  rw [kept_eq, preferred]
  by_cases h : s.retainedLow = prefersFirst (sample s.question) s.retained
  · -- two thirds of the interval are one third of its upper half
    obtain ⟨hlower, hupper, hlow⟩ := step_up h
    have hpreferred : (if prefersFirst (sample s.question) s.retained then s.question else s.kept) =
        s.lower + (s.upper - s.lower) * (2 / 3) := by
      rw [← h, question_eq, kept_eq]
      cases s.retainedLow <;> rfl
    rw [hpreferred, hlower, hupper, hlow, hmiddle, if_pos rfl]
    ring
  · -- one third of the interval is two thirds of its lower half
    obtain ⟨hlower, hupper, hlow⟩ := step_down h
    have hpreferred : (if prefersFirst (sample s.question) s.retained then s.question else s.kept) =
        s.lower + (s.upper - s.lower) * (1 / 3) := by
      rw [← Bool.not_eq_eq_eq_not.mpr (Bool.eq_not_of_ne h), question_eq, kept_eq]
      cases s.retainedLow <;> rfl
    rw [hpreferred, hlower, hupper, hlow, hmiddle, if_neg Bool.false_ne_true]
    ring

/-- Before step `k`: the kept sample is that of its distance, and the interval was halved `k` times. -/
structure Aligned (sample : Rat → Option Hypocenter) (limit : Rat) (k : Nat) (s : Narrowing Rat) : Prop where
  retained : s.retained = sample s.kept
  width : s.upper - s.lower = limit / 2 ^ k

theorem aligned_start (sample : Rat → Option Hypocenter) (limit : Rat) (best : Option Hypocenter) :
    Aligned sample limit 0 (start sample limit best) where
  retained := rfl
  width := by
    change limit - 0 = limit / 2 ^ 0
    rw [sub_zero, pow_zero, div_one]

theorem Aligned.step (h : Aligned sample limit k s) : Aligned sample limit (k + 1) (s.step sample) where
  retained := by
    rw [kept_step, retained_step, selectBetter, preferred]
    split
    · rfl
    · exact h.retained
  width := by
    have hhalf : (s.upper - s.lower) / 2 = limit / 2 ^ (k + 1) := by
      rw [h.width, div_div, pow_succ]
    rcases step_half sample s with ⟨hlower, hupper⟩ | ⟨hlower, hupper⟩ <;>
      rw [hlower, hupper, middle_eq, ← hhalf] <;> ring

/-- The interval is not empty, and lies between zero and the limit. -/
structure Inside (limit : Rat) (s : Narrowing Rat) : Prop where
  lower_nonneg : 0 ≤ s.lower
  lower_lt : s.lower < s.upper
  upper_le : s.upper ≤ limit

theorem inside_start (sample : Rat → Option Hypocenter) (hlimit : 0 < limit) (best : Option Hypocenter) :
    Inside limit (start sample limit best) where
  lower_nonneg := le_refl (0 : Rat)
  lower_lt := hlimit
  upper_le := le_refl limit

theorem Inside.step (sample : Rat → Option Hypocenter) (h : Inside limit s) : Inside limit (s.step sample) := by
  obtain ⟨hnonneg, hlt, hle⟩ := h
  have hmiddle := s.middle_eq
  rcases step_half sample s with ⟨hlower, hupper⟩ | ⟨hlower, hupper⟩
  · exact ⟨by rwa [hlower], by rw [hlower, hupper]; linarith, by rw [hupper]; linarith⟩
  · exact ⟨by rw [hlower]; linarith, by rw [hlower, hupper]; linarith, by rwa [hupper]⟩

/-- A third point lies inside its interval. -/
theorem Inside.kept (h : Inside limit s) : s.lower < s.kept ∧ s.kept < s.upper := by
  have hlt := h.lower_lt
  rw [kept_eq]
  cases s.retainedLow <;> simp only [Bool.false_eq_true, if_true, if_false] <;> constructor <;> linarith

theorem aligned_run (sample : Rat → Option Hypocenter) (limit : Rat) (best : Option Hypocenter) (k : Nat) :
    Aligned sample limit k (run sample k (start sample limit best)) := by
  induction k with
  | zero => exact aligned_start sample limit best
  | succ k ih =>
    rw [run_succ]
    exact ih.step

theorem inside_run (sample : Rat → Option Hypocenter) (hlimit : 0 < limit) (best : Option Hypocenter) (k : Nat) :
    Inside limit (run sample k (start sample limit best)) := by
  induction k with
  | zero => exact inside_start sample hlimit best
  | succ k ih =>
    rw [run_succ]
    exact ih.step sample

/-- Whatever candidates there are at the distances, before every step of a narrowing from zero to a limit: the kept sample
is the one at the third point that the flag tells, the interval is as long as the limit halved at each step before, and
lies between zero and the limit. The step asks for the other third point and goes on in the half that holds the better one
of the two inside; that sample is kept, the old one when neither is better. So no sample taken so far outranks the kept
one. -/
theorem third_points_reused (sample : Rat → Option Hypocenter) (limit : Rat) (best : Option Hypocenter) (k : Nat) :
    let s := run sample k (start sample limit best)
    let next := run sample (k + 1) (start sample limit best)
    s.retained = sample (s.lower + (s.upper - s.lower) * if s.retainedLow then 1 / 3 else 2 / 3) ∧
      s.upper - s.lower = limit / 2 ^ k ∧
      (0 < limit → 0 ≤ s.lower ∧ s.lower < s.upper ∧ s.upper ≤ limit) ∧
      s.question = s.lower + (s.upper - s.lower) * (if s.retainedLow then 2 / 3 else 1 / 3) ∧
      (next.lower = s.lower ∧ next.upper = (s.upper + s.lower) / 2 ∨
        next.lower = (s.upper + s.lower) / 2 ∧ next.upper = s.upper) ∧
      (0 < limit → next.lower < s.preferred sample ∧ s.preferred sample < next.upper) ∧
      next.retained = sample (s.preferred sample) ∧
      next.retained = (if prefersFirst (sample s.question) s.retained then sample s.question else s.retained) ∧
      ∀ dist ∈ narrowAsked sample limit k best, prefersFirst (sample dist) s.retained = false := by
  intro s next
  have hnext : next = s.step sample := run_succ sample k (start sample limit best)
  have haligned : Aligned sample limit k s := aligned_run sample limit best k
  have hstep : Aligned sample limit (k + 1) next := aligned_run sample limit best (k + 1)
  have hkept : next.kept = s.preferred sample := hnext ▸ kept_step sample s
  have hbest : BestOf s.retained ((narrowAsked sample limit k best).map sample) :=
    retained_run_bestOf k (BestOf.single _)
  refine ⟨?_, haligned.width, fun hlimit => ?_, s.question_eq, ?_, fun hlimit => ?_, ?_, ?_, fun dist hdist => ?_⟩
  · rw [← kept_eq]
    exact haligned.retained
  · obtain ⟨hnonneg, hlt, hle⟩ := inside_run sample hlimit best k
    exact ⟨hnonneg, hlt, hle⟩
  · rw [hnext, ← middle_eq]
    exact step_half sample s
  · rw [← hkept]
    exact (inside_run sample hlimit best (k + 1)).kept
  · rw [← hkept]
    exact hstep.retained
  · rw [hnext]
    exact retained_step sample s
  · exact prefersFirst_eq_false_iff.mpr (hbest.first _ (List.mem_map_of_mem hdist))

/-- A narrowing to 500 km with candidates between 100 km and 200 km only: after two steps it stands between 125 km and
250 km, with the candidate at the lower third point kept. -/
theorem third_points_reused_twice :
    let sample : Rat → Option Hypocenter := fun dist =>
      if 100 < dist ∧ dist < 200 then some ⟨0.0, 0.0, 10.0, 0, 0.0, 1, 0⟩ else none
    let s := run sample 2 (start sample 500 none)
    (s.lower = 125 ∧ s.upper = 250 ∧ s.retainedLow = true) ∧ (0 : Rat) < 500 ∧
      (0 ≤ s.lower ∧ s.lower < s.upper ∧ s.upper ≤ 500) ∧ s.retained = sample (500 / 3) := by
  intro sample s
  obtain ⟨hretained, -, hinside, -⟩ := third_points_reused sample 500 none 2
  have hends : s.lower = 125 ∧ s.upper = 250 ∧ s.retainedLow = true := by decide +kernel
  have hplace : s.lower + (s.upper - s.lower) * (if s.retainedLow then 1 / 3 else 2 / 3) = 500 / 3 := by
    rw [hends.1, hends.2.1, hends.2.2, if_pos rfl]
    norm_num
  have hpos : (0 : Rat) < 500 := by norm_num
  exact ⟨hends, hpos, hinside hpos, hplace ▸ hretained⟩

end Tremor.Narrowing
