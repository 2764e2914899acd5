import Mathlib.Data.List.FinRange
import Mathlib.Data.List.Induction
import Mathlib.Data.List.Nodup
import Tremor.Cluster.Selection
import Tremor.Proofs.Doubles

/-!
# Picks that lie far apart

Selecting keeps, for every pick that is not selected, the distance to the nearest one that is. So each round takes the
pick that is furthest from those before, the first of them when there are several, and the distances at which picks are
taken never grow. That is why no pick that is left over is further from the selected ones than these are from each
other.

Positions stand for picks, because the same pick may be given twice. Of the distance nothing is needed but that it is
a number.

- `furthest_cases` : a round takes the first of the candidates with the greatest gap, if that is above zero
- `Greedy` : the rounds of a selection, by positions
- `selectFrom_greedy` : candidates with their right gaps are selected in such rounds
- `Greedy.covers` : what is left over lies no further away than the selected picks from each other
- `selectSpread_spread` : all that selecting guarantees
-/

namespace Tremor.Selection

/-! ## One round -/

/-- The candidate that is found is the first one with the greatest gap, which is above `most`; if none is found, no
gap is. -/
theorem furthestFrom_cases {cs : List Candidate} (h : ∀ c ∈ cs, c.gap ≤ c.gap) (i : Nat) (most : Float)
    (found : Option Nat) :
    furthestFrom cs i most found = found ∧ (∀ c ∈ cs, ¬ most < c.gap) ∨
      ∃ before c after, cs = before ++ c :: after ∧ furthestFrom cs i most found = some (i + before.length) ∧
        most < c.gap ∧ (∀ b ∈ before, b.gap < c.gap) ∧ ∀ a ∈ after, ¬ c.gap < a.gap := by
  induction cs generalizing i most found with
  | nil => exact Or.inl ⟨rfl, nofun⟩
  | cons c cs ih =>
    obtain ⟨hc, hcs⟩ := List.forall_mem_cons.mp h
    simp only [furthestFrom]
    by_cases hlt : most < c.gap
    · rw [if_pos hlt]
      rcases ih hcs (i + 1) c.gap (some i) with ⟨hf, hnone⟩ | ⟨before, d, after, hsplit, hf, hd, hbefore, hafter⟩
      · exact Or.inr ⟨[], c, cs, rfl, hf, hlt, nofun, hnone⟩
      · refine Or.inr ⟨c :: before, d, after, by rw [hsplit]; rfl, ?_, Number.lt_trans hlt hd, ?_, hafter⟩
        · rw [hf, List.length_cons, Nat.add_right_comm]
          rfl
        · exact List.forall_mem_cons.mpr ⟨hd, hbefore⟩
    · rw [if_neg hlt]
      rcases ih hcs (i + 1) most found with ⟨hf, hnone⟩ | ⟨before, d, after, hsplit, hf, hd, hbefore, hafter⟩
      · exact Or.inl ⟨hf, List.forall_mem_cons.mpr ⟨hlt, hnone⟩⟩
      · refine Or.inr ⟨c :: before, d, after, by rw [hsplit]; rfl, ?_, hd, ?_, hafter⟩
        · rw [hf, List.length_cons, Nat.add_right_comm]
          rfl
        · exact List.forall_mem_cons.mpr ⟨Number.lt_of_not_lt_of_lt hc hlt hd, hbefore⟩

/-- A round takes the first of the candidates with the greatest gap, if that is above zero. -/
theorem furthest_cases {cs : List Candidate} (h : ∀ c ∈ cs, c.gap ≤ c.gap) :
    furthest cs = none ∧ (∀ c ∈ cs, ¬ 0.0 < c.gap) ∨
      ∃ before c after, cs = before ++ c :: after ∧ furthest cs = some before.length ∧ 0.0 < c.gap ∧
        (∀ b ∈ before, b.gap < c.gap) ∧ ∀ a ∈ after, ¬ c.gap < a.gap := by
  have hcases := furthestFrom_cases h 0 0.0 none
  simpa only [furthest, Nat.zero_add] using hcases

/-! ## Rounds by positions -/

section

variable (distance : Pick → Pick → Float) (picks : List Pick)

/-- `d` is the distance from the pick at position `i` to the nearest one at the positions `taken`. -/
def IsGap (taken : List (Fin picks.length)) (i : Fin picks.length) (d : Float) : Prop :=
  (∃ s ∈ taken, distance picks[i] picks[s] = d) ∧ ∀ s ∈ taken, d ≤ distance picks[i] picks[s]

/-- Of the positions that are not taken, `next` is the first one that is furthest from those that are, and does not lie
at one of them. -/
structure Furthest (taken : List (Fin picks.length)) (next : Fin picks.length) : Prop where
  free : next ∉ taken
  greatest : ∃ d, IsGap distance picks taken next d ∧ 0.0 < d ∧
    ∀ i ∉ taken, ∃ e, IsGap distance picks taken i e ∧ e ≤ d ∧ (i < next → e < d)

/-- The positions `later` are taken after `taken`, in at most so many rounds; it ends early only when all that is left
lies at a position that is taken. -/
inductive Greedy : (rounds : Nat) → (taken later : List (Fin picks.length)) → Prop
  | full (taken : List (Fin picks.length)) : Greedy 0 taken []
  | exhausted {rounds : Nat} {taken : List (Fin picks.length)}
      (h : ∀ i ∉ taken, ∃ d, IsGap distance picks taken i d ∧ d ≤ 0.0) : Greedy (rounds + 1) taken []
  | select {rounds : Nat} {taken later : List (Fin picks.length)} {next : Fin picks.length}
      (h : Furthest distance picks taken next) (rest : Greedy rounds (taken ++ [next]) later) :
      Greedy (rounds + 1) taken (next :: later)

end

variable {distance : Pick → Pick → Float} {picks : List Pick} {rounds : Nat} {taken later : List (Fin picks.length)}

namespace Greedy

theorem length_le (h : Greedy distance picks rounds taken later) : later.length ≤ rounds := by
  induction h with
  | full => exact Nat.le_refl 0
  | exhausted => exact Nat.zero_le _
  | select _ _ ih => exact Nat.succ_le_succ ih

/-- No position is taken twice. -/
theorem nodup (h : Greedy distance picks rounds taken later) (ht : taken.Nodup) : (taken ++ later).Nodup := by
  induction h with
  | full | exhausted => rwa [List.append_nil]
  | select hnext _ ih =>
    rw [List.append_cons]
    refine ih (List.nodup_append.mpr ⟨ht, List.nodup_singleton _, ?_⟩)
    rintro i hi j hj rfl
    rw [List.mem_singleton.mp hj] at hi
    exact hnext.free hi

/-- Every position that is taken is the furthest at that time. -/
theorem furthest (h : Greedy distance picks rounds taken later) {before after : List (Fin picks.length)}
    {next : Fin picks.length} (hsplit : later = before ++ next :: after) :
    Furthest distance picks (taken ++ before) next := by
  induction h generalizing before with
  | full | exhausted => simp at hsplit
  | select hnext _ ih =>
    cases before with
    | nil =>
      cases hsplit
      rwa [List.append_nil]
    | cons i before =>
      cases hsplit
      rw [List.append_cons]
      exact ih rfl

/-- When there are rounds left, all that is left over lies at a position that is taken. -/
theorem ended (h : Greedy distance picks rounds taken later) (hlt : later.length < rounds) {i : Fin picks.length}
    (hi : i ∉ taken ++ later) : ∃ d, IsGap distance picks (taken ++ later) i d ∧ d ≤ 0.0 := by
  induction h with
  | full => exact absurd hlt (Nat.lt_irrefl 0)
  | exhausted hend =>
    rw [List.append_nil] at hi ⊢
    exact hend i hi
  | select _ _ ih =>
    rw [List.append_cons] at hi ⊢
    exact ih (Nat.lt_of_succ_lt_succ hlt) hi

end Greedy

/-- With more positions taken, the nearest one is not further away. -/
theorem IsGap.anti {others : List (Fin picks.length)} {i : Fin picks.length} {d e : Float}
    (hd : IsGap distance picks taken i d) (he : IsGap distance picks others i e) (hsub : taken ⊆ others) : e ≤ d := by
  obtain ⟨⟨s, hs, rfl⟩, -⟩ := hd
  exact he.2 s (hsub hs)

/-- A position that was free when another was taken lies no further from those before than the other one. -/
theorem Furthest.covers {next i : Fin picks.length} (h : Furthest distance picks taken next) (hi : i ∉ taken)
    {others : List (Fin picks.length)} (hsub : taken ⊆ others) {d : Float} (hd : IsGap distance picks others i d)
    {s : Fin picks.length} (hs : s ∈ taken) : d ≤ distance picks[next] picks[s] := by
  obtain ⟨g, hg, -, hgreatest⟩ := h.greatest
  obtain ⟨e, he, heg, -⟩ := hgreatest i hi
  exact Number.le_trans (he.anti hd hsub) (Number.le_trans heg (hg.2 s hs))

/-! ## Selecting -/

/-- One more position is taken: the nearest one is the nearer of the nearest before and the new one. -/
theorem IsGap.select {i next : Fin picks.length} {d : Float} (h : IsGap distance picks taken i d)
    (hnext : distance picks[i] picks[next] ≤ distance picks[i] picks[next]) :
    IsGap distance picks (taken ++ [next]) i (Scalar.min d (distance picks[i] picks[next])) := by
  obtain ⟨⟨s, hs, rfl⟩, hle⟩ := h
  rcases Number.min_cases (hle s hs) hnext with ⟨hmin, hsn⟩ | ⟨hmin, hns⟩ <;> rw [hmin]
  · refine ⟨⟨s, List.mem_append_left _ hs, rfl⟩, fun t ht => ?_⟩
    rcases List.mem_append.mp ht with ht | ht
    · exact hle t ht
    · rwa [List.mem_singleton.mp ht]
  · refine ⟨⟨next, List.mem_append_right _ (List.mem_singleton_self next), rfl⟩, fun t ht => ?_⟩
    rcases List.mem_append.mp ht with ht | ht
    · exact Number.le_trans hns (hle t ht)
    · rwa [List.mem_singleton.mp ht]

variable {rest ahead behind : List (Fin picks.length)} {next : Fin picks.length} {gap : Fin picks.length → Float}

/-- The positions `rest` are those that are not taken, in order, each with the distance to the nearest one that is. -/
structure Pending (distance : Pick → Pick → Float) (picks : List Pick) (taken rest : List (Fin picks.length))
    (gap : Fin picks.length → Float) : Prop where
  rising : rest.Pairwise (· < ·)
  mem_iff : ∀ i, i ∈ rest ↔ i ∉ taken
  isGap : ∀ i ∉ taken, IsGap distance picks taken i (gap i)

/-- The candidate for a position. -/
def candidateAt (picks : List Pick) (gap : Fin picks.length → Float) (i : Fin picks.length) : Candidate :=
  { pick := picks[i], gap := gap i }

namespace Pending

theorem gap_le_self (h : Pending distance picks taken rest gap)
    (hnum : ∀ i j : Fin picks.length, distance picks[i] picks[j] ≤ distance picks[i] picks[j]) {i : Fin picks.length}
    (hi : i ∉ taken) : gap i ≤ gap i := by
  obtain ⟨⟨s, -, he⟩, -⟩ := h.isGap i hi
  rw [← he]
  exact hnum i s

/-- The first of the greatest gaps is that of the furthest position. -/
theorem furthest (h : Pending distance picks taken (ahead ++ next :: behind) gap)
    (hnum : ∀ i j : Fin picks.length, distance picks[i] picks[j] ≤ distance picks[i] picks[j]) (hpos : 0.0 < gap next)
    (hahead : ∀ i ∈ ahead, gap i < gap next) (hbehind : ∀ i ∈ behind, ¬ gap next < gap i) :
    Furthest distance picks taken next := by
  obtain ⟨hlater, -⟩ := List.pairwise_cons.mp (List.pairwise_append.mp h.rising).2.1
  have hnext : next ∉ taken := (h.mem_iff next).mp (List.mem_append_right _ List.mem_cons_self)
  refine ⟨hnext, gap next, h.isGap next hnext, hpos, fun i hi => ⟨gap i, h.isGap i hi, ?_⟩⟩
  have hself := h.gap_le_self hnum hi
  rcases List.mem_append.mp ((h.mem_iff i).mpr hi) with hmem | hmem
  · exact ⟨Number.le_of_lt (hahead i hmem), fun _ => hahead i hmem⟩
  · rcases List.mem_cons.mp hmem with rfl | hmem
    · exact ⟨hself, fun hlt => absurd hlt (lt_irrefl i)⟩
    · exact ⟨Number.le_of_not_lt hself (h.gap_le_self hnum hnext) (hbehind i hmem),
        fun hlt => absurd hlt (lt_asymm (hlater i hmem))⟩

/-- What is pending after one more position was taken. -/
theorem select (h : Pending distance picks taken (ahead ++ next :: behind) gap)
    (hnum : ∀ i j : Fin picks.length, distance picks[i] picks[j] ≤ distance picks[i] picks[j]) :
    Pending distance picks (taken ++ [next]) (ahead ++ behind)
      fun i => Scalar.min (gap i) (distance picks[i] picks[next]) where
  rising := h.rising.sublist (by simp)
  mem_iff := by
    intro i
    have hi := h.mem_iff i
    have hnext := (List.nodup_cons.mp (List.nodup_middle.mp (h.rising.imp fun hlt => ne_of_lt hlt))).1
    rw [List.mem_append, List.mem_cons] at hi
    rw [List.mem_append, List.mem_append, List.mem_singleton, not_or]
    constructor
    · intro hmem
      refine ⟨hi.mp (by tauto), ?_⟩
      rintro rfl
      exact hnext (List.mem_append.mpr hmem)
    · rintro ⟨hfree, hne⟩
      have := hi.mpr hfree
      tauto
  isGap i hi := (h.isGap i fun ht => hi (List.mem_append_left _ ht)).select (hnum i next)

end Pending

/-- A round selects the furthest candidate and brings the gaps of the others up to date. -/
theorem selectFrom_of_furthest {before after : List Candidate} {c : Candidate}
    (h : furthest (before ++ c :: after) = some before.length) (rounds : Nat) :
    selectFrom distance (rounds + 1) (before ++ c :: after) =
      c.pick :: selectFrom distance rounds ((before ++ after).map (·.approach distance c.pick)) := by
  have herase : (before ++ c :: after).eraseIdx before.length = before ++ after := by
    rw [List.eraseIdx_append_of_length_le (Nat.le_refl _), Nat.sub_self, List.eraseIdx_cons_zero]
  have hget : (before ++ c :: after)[before.length]? = some c := by simp
  simp only [selectFrom, h, hget, herase]

/-- Candidates for all positions that are not taken, in order and with their right gaps, are selected in rounds that
each take the furthest one. -/
theorem selectFrom_greedy (hnum : ∀ i j : Fin picks.length, distance picks[i] picks[j] ≤ distance picks[i] picks[j])
    (rounds : Nat) (h : Pending distance picks taken rest gap) :
    ∃ later : List (Fin picks.length),
      selectFrom distance rounds (rest.map (candidateAt picks gap)) = later.map (fun i => picks[i]) ∧
        Greedy distance picks rounds taken later := by
  induction rounds generalizing taken rest gap with
  | zero => exact ⟨[], rfl, .full taken⟩
  | succ rounds ih =>
    have hcs : ∀ c ∈ rest.map (candidateAt picks gap), c.gap ≤ c.gap :=
      List.forall_mem_map.mpr fun i hi => h.gap_le_self hnum ((h.mem_iff i).mp hi)
    rcases furthest_cases hcs with ⟨hf, hnone⟩ | ⟨before, c, after, hsplit, hf, hpos, hbefore, hafter⟩
    · refine ⟨[], by simp only [selectFrom, hf, List.map_nil], .exhausted fun i hi => ⟨gap i, h.isGap i hi, ?_⟩⟩
      have hzero : (0.0 : Float) ≤ 0.0 := by decide +kernel
      have hnot := List.forall_mem_map.mp hnone i ((h.mem_iff i).mpr hi)
      exact Number.le_of_not_lt (h.gap_le_self hnum hi) hzero hnot
    · obtain ⟨ahead, tail, rfl, rfl, htail⟩ := List.map_eq_append_iff.mp hsplit
      obtain ⟨next, behind, rfl, rfl, rfl⟩ := List.map_eq_cons_iff.mp htail
      rw [List.forall_mem_map] at hbefore hafter
      obtain ⟨later, hlater, hgreedy⟩ := ih (h.select hnum)
      refine ⟨next :: later, ?_, .select (h.furthest hnum hpos hbefore hafter) hgreedy⟩
      rw [hsplit] at hf ⊢
      rw [selectFrom_of_furthest hf, List.map_cons, ← hlater, ← List.map_append, List.map_map]
      rfl

/-! ## The guarantee -/

/-- What is guaranteed of selected positions: they are distinct, the last one comes first, at most thirty are selected,
and each of the others is the first that is furthest from those before it. What is left over lies no further from the
selected ones than these from each other, and when fewer than thirty are selected, at one of them. -/
structure Spread (distance : Pick → Pick → Float) (picks : List Pick) (order : List (Fin picks.length)) : Prop where
  nodup : order.Nodup
  first : order.head?.map Fin.val = some (picks.length - 1)
  atMost : order.length ≤ 30
  furthest : ∀ before next after, order = before ++ next :: after → before ≠ [] →
    Furthest distance picks before next
  covers : ∀ i ∉ order, ∃ d, IsGap distance picks order i d ∧
    ∀ before next after, order = before ++ next :: after → ∀ s ∈ before, d ≤ distance picks[next] picks[s]
  ended : order.length < 30 → ∀ i ∉ order, ∃ s ∈ order, distance picks[i] picks[s] ≤ 0.0 ∧
    (0.0 ≤ distance picks[i] picks[s] → distance picks[i] picks[s] == 0.0)

/-- Positions have a nearest one among any that are selected. -/
theorem exists_isGap (hnum : ∀ i j : Fin picks.length, distance picks[i] picks[j] ≤ distance picks[i] picks[j])
    (i first : Fin picks.length) (others : List (Fin picks.length)) :
    ∃ d, IsGap distance picks (first :: others) i d := by
  induction others using List.reverseRecOn with
  | nil => exact ⟨_, ⟨first, List.mem_singleton_self first, rfl⟩, fun s hs => by
      rw [List.mem_singleton.mp hs]
      exact hnum i first⟩
  | append_singleton others next ih =>
    obtain ⟨d, hd⟩ := ih
    exact ⟨_, hd.select (hnum i next)⟩

/-- All positions but the last one are pending when that one is taken first. -/
theorem pending_first {last : Fin picks.length} (hlast : last.val = picks.length - 1)
    (hnum : ∀ i j : Fin picks.length, distance picks[i] picks[j] ≤ distance picks[i] picks[j]) :
    Pending distance picks [last] (List.finRange picks.length).dropLast fun i => distance picks[i] picks[last] where
  rising := (List.pairwise_lt_finRange _).sublist (List.dropLast_sublist _)
  mem_iff := by
    intro i
    have hi := i.isLt
    rw [List.mem_iff_getElem, List.mem_singleton, Fin.ext_iff, hlast]
    simp only [List.getElem_dropLast, List.getElem_finRange, List.length_dropLast, List.length_finRange]
    constructor
    · rintro ⟨k, hk, rfl⟩
      exact Nat.ne_of_lt hk
    · intro hne
      exact ⟨i.val, by omega, rfl⟩
  isGap i _ := ⟨⟨last, List.mem_singleton_self last, rfl⟩, fun s hs => by
    rw [List.mem_singleton.mp hs]
    exact hnum i last⟩

/-- The selected picks are those at some positions, the last one first, the others taken in rounds. -/
theorem selectSpread_greedy (hnum : ∀ i j : Fin picks.length, distance picks[i] picks[j] ≤ distance picks[i] picks[j])
    {last : Fin picks.length} (hlast : last.val = picks.length - 1) :
    ∃ later : List (Fin picks.length), selectSpread distance picks = (last :: later).map (fun i => picks[i]) ∧
      Greedy distance picks (target - 1) [last] later := by
  obtain ⟨later, hlater, hgreedy⟩ := selectFrom_greedy hnum (target - 1) (pending_first hlast hnum)
  refine ⟨later, ?_, hgreedy⟩
  have hget : picks.getLast? = some picks[last] := by
    rw [List.getLast?_eq_getElem?, ← hlast]
    exact List.getElem?_eq_getElem last.isLt
  have hpicks : picks.dropLast = (List.finRange picks.length).dropLast.map fun i => picks[i] := by
    rw [List.map_dropLast]
    exact congrArg List.dropLast (List.map_getElem_finRange picks).symm
  rw [selectSpread, hget, List.map_cons, ← hlater]
  simp only [hpicks, List.map_map]
  rfl

/-- Selecting from any picks, by any distance that is always a number, guarantees a spread. -/
theorem selectSpread_spread (distance : Pick → Pick → Float) (picks : List Pick) (hne : picks ≠ [])
    (hnum : ∀ p ∈ picks, ∀ q ∈ picks, (distance p q).isNaN = false) :
    ∃ order : List (Fin picks.length), selectSpread distance picks = order.map (fun i => picks[i]) ∧
      Spread distance picks order := by
  have hnum : ∀ i j : Fin picks.length, distance picks[i] picks[j] ≤ distance picks[i] picks[j] := fun i j =>
    Number.le_self_of_not_isNaN (hnum _ (List.getElem_mem _) _ (List.getElem_mem _))
  have hpos := List.length_pos_of_ne_nil hne
  obtain ⟨last, hlast⟩ : ∃ last : Fin picks.length, last.val = picks.length - 1 := ⟨⟨_, by omega⟩, rfl⟩
  obtain ⟨later, hselected, hgreedy⟩ := selectSpread_greedy hnum hlast
  have hfurthest : ∀ before next after, last :: later = before ++ next :: after → before ≠ [] →
      Furthest distance picks before next := by
    intro before next after hsplit hbefore
    cases before with
    | nil => exact absurd rfl hbefore
    | cons i before =>
      cases hsplit
      exact hgreedy.furthest rfl
  refine ⟨last :: later, hselected, ?_⟩
  exact {
    nodup := hgreedy.nodup (List.nodup_singleton last)
    first := congrArg some hlast
    atMost := Nat.succ_le_succ hgreedy.length_le
    furthest := hfurthest
    covers := by
      intro i hi
      obtain ⟨d, hd⟩ := exists_isGap hnum i last later
      refine ⟨d, hd, fun before next after hsplit s hs => ?_⟩
      have hsub : before ⊆ last :: later := hsplit ▸ List.subset_append_left _ _
      exact (hfurthest before next after hsplit (List.ne_nil_of_mem hs)).covers (fun h => hi (hsub h)) hsub hd hs
    ended := by
      intro hlt i hi
      obtain ⟨d, ⟨⟨s, hs, rfl⟩, -⟩, hd⟩ := hgreedy.ended (Nat.lt_of_succ_lt_succ hlt) hi
      exact ⟨s, hs, hd, fun hzero => Number.beq_of_le_of_le hd hzero⟩ }

/-- A pick on the equator. -/
def equatorial (lon maxRatio : Float) : Pick :=
  { pWave := 0, place := { lat := 0, lon }, elevation := 0, maxRatio := .ofFloat maxRatio }

/-- Of five picks on the equator two lie at one place, and the weaker of these is not selected. -/
theorem selectSpread_equatorial :
    let picks := [equatorial 0 1, equatorial 0.1 2, equatorial 10 3, equatorial 5 4, equatorial 0 50]
    let distance := fun p q : Pick => (p.place.lon - q.place.lon).abs
    picks ≠ [] ∧ (∀ p ∈ picks, ∀ q ∈ picks, (distance p q).isNaN = false) ∧
      (selectSpread distance picks).map (·.maxRatio.toFloat) = [50, 3, 4, 2] ∧
        ∃ order : List (Fin picks.length), selectSpread distance picks = order.map (fun i => picks[i]) ∧
          Spread distance picks order := by
  intro picks distance
  have hne : picks ≠ [] := List.cons_ne_nil _ _
  have hnum : ∀ p ∈ picks, ∀ q ∈ picks, (distance p q).isNaN = false := by decide +kernel
  have hselected : (selectSpread distance picks).map (·.maxRatio.toFloat) = [50, 3, 4, 2] := by decide +kernel
  exact ⟨hne, hnum, hselected, selectSpread_spread distance picks hne hnum⟩

end Tremor.Selection
