import Mathlib.Data.Finset.Card
import Tremor.Proofs.PassChecks

/-!
# Coverage of directions

A candidate is seen well when stations lie around it. How well is told by the number of sectors in which picks are seen:
it depends on the set of the picks alone, and never falls when picks are added.

- `sector_lt` : every direction is in a sector, even one that is no number
- `occupiedSectors_eq_card` : the number of different sectors
- `marks`, `count_marks` : the same number, from one mark for each sector that the picks set one by one
- `occupiedSectors_mono` : more picks occupy no fewer sectors
- `occupiedSectors_counts` : the number of sectors, and what it means for the verdict on a candidate
-/

namespace Tremor.Locator

variable {l : Locator} {h : Hypocenter} {picks more : List Pick}

/-! ## Different sectors -/

theorem sector_lt (l : Locator) (h : Hypocenter) (pick : Pick) : l.sector h pick < sectors := sectorOf_lt _

/-- What is no direction is counted to the first sector. -/
example : sectorOf (0.0 / 0.0) = 0 := by decide +kernel

/-- Counting the sectors that are seen is counting the different sectors of the picks. -/
theorem occupiedSectors_eq_card (l : Locator) (h : Hypocenter) (picks : List Pick) :
    l.occupiedSectors h picks = (picks.map (l.sector h)).toFinset.card := by
  have hnodup : ((List.range sectors).filter (picks.map (l.sector h)).contains).Nodup := List.nodup_range.filter _
  have hsame : ((List.range sectors).filter (picks.map (l.sector h)).contains).toFinset =
      (picks.map (l.sector h)).toFinset := by
    ext i
    simp only [List.mem_toFinset, List.mem_filter, List.mem_range, List.contains_iff_mem]
    refine ⟨And.right, fun hi => ⟨?_, hi⟩⟩
    obtain ⟨pick, -, rfl⟩ := List.mem_map.mp hi
    exact l.sector_lt h pick
  rw [occupiedSectors, List.countP_eq_length_filter, ← List.toFinset_card_of_nodup hnodup, hsame]

/-- More picks occupy no fewer sectors, wherever they are added and however often. -/
theorem occupiedSectors_mono (hmore : picks ⊆ more) : l.occupiedSectors h picks ≤ l.occupiedSectors h more := by
  have hsectors : picks.map (l.sector h) ⊆ more.map (l.sector h) := List.map_subset _ hmore
  rw [occupiedSectors_eq_card, occupiedSectors_eq_card]
  exact Finset.card_le_card fun i hi => List.mem_toFinset.mpr (hsectors (List.mem_toFinset.mp hi))

theorem occupiedSectors_le_length (l : Locator) (h : Hypocenter) (picks : List Pick) :
    l.occupiedSectors h picks ≤ picks.length := by
  rw [occupiedSectors_eq_card]
  exact (List.toFinset_card_le _).trans_eq (List.length_map _)

/-! ## Marks -/

/-- Sets the mark of the sector of a pick. -/
def mark (l : Locator) (h : Hypocenter) (seen : Vector Bool sectors) (pick : Pick) : Vector Bool sectors :=
  seen.set (l.sector h pick) true (l.sector_lt h pick)

/-- One mark for every sector, after all picks have come in. -/
def marks (l : Locator) (h : Hypocenter) (picks : List Pick) : Vector Bool sectors :=
  picks.foldl (l.mark h) (Vector.replicate sectors false)

/-- A sector is marked when it was before or when a pick is in it. -/
theorem getElem_foldl_mark (l : Locator) (h : Hypocenter) (picks : List Pick) (seen : Vector Bool sectors) {i : ℕ}
    (hi : i < sectors) : (picks.foldl (l.mark h) seen)[i] = (seen[i] || (picks.map (l.sector h)).contains i) := by
  induction picks generalizing seen with
  | nil => simp
  | cons pick picks ih =>
    rw [List.foldl_cons, ih, mark, Vector.getElem_set, List.map_cons, List.contains_cons]
    by_cases hsector : l.sector h pick = i
    · rw [if_pos hsector, beq_iff_eq.mpr hsector.symm, Bool.true_or, Bool.or_true]
    · rw [if_neg hsector, beq_eq_false_iff_ne.mpr (Ne.symm hsector), Bool.false_or]

/-- The marks that are set are the sectors that are occupied. -/
theorem count_marks (l : Locator) (h : Hypocenter) (picks : List Pick) :
    (l.marks h picks).toList.count true = l.occupiedSectors h picks := by
  have hlist : (l.marks h picks).toList = (List.range sectors).map (picks.map (l.sector h)).contains := by
    refine List.ext_getElem (by simp) fun i hi hi' => ?_
    have hlt : i < sectors := by simpa using hi
    have hmark := getElem_foldl_mark l h picks (Vector.replicate sectors false) hlt
    rw [Vector.getElem_replicate, Bool.false_or] at hmark
    rw [Vector.getElem_toList, List.getElem_map, List.getElem_range]
    exact hmark
  rw [hlist, List.count, List.countP_map, occupiedSectors]
  refine List.countP_congr fun i _ => ?_
  simp

/-! ## Verdicts -/

/-- An accepted candidate is accepted with more picks as well. -/
theorem check_eq_ok_mono {best previous : Option Hypocenter} {root : Point} (hmore : picks ⊆ more)
    (hok : l.check picks best previous root = .ok) : l.check more best previous root = .ok := by
  cases best with
  | none => cases hok
  | some h =>
    rw [check_eq_ok_iff] at hok ⊢
    obtain ⟨hfew, hfar, hcovered, hprevious⟩ := hok
    exact ⟨hfew, hfar, hcovered.trans (occupiedSectors_mono hmore), hprevious⟩

/-- Every direction falls into one of 16 sectors, and those of the picks can be marked one by one. The number of marks
is the number of different sectors, at most that of the picks. It is the same for all lists of the same picks, in any
order and however often each of them comes, and more picks do not lower it. So they do not lead to the rejection of a
candidate that was accepted. -/
theorem occupiedSectors_counts (l : Locator) (h : Hypocenter) (picks : List Pick) :
    (∀ bearing, sectorOf bearing < 16) ∧
      (l.marks h picks).toList.count true = l.occupiedSectors h picks ∧
      l.occupiedSectors h picks = (picks.map (l.sector h)).toFinset.card ∧
      l.occupiedSectors h picks ≤ min 16 picks.length ∧
      (∀ same : List Pick, (∀ pick, pick ∈ same ↔ pick ∈ picks) →
        l.occupiedSectors h same = l.occupiedSectors h picks) ∧
      (∀ more : List Pick, picks ⊆ more → l.occupiedSectors h picks ≤ l.occupiedSectors h more) ∧
      ∀ (more : List Pick) (best previous : Option Hypocenter) (root : Point), picks ⊆ more →
        l.check picks best previous root = .ok → l.check more best previous root = .ok := by
  refine ⟨sectorOf_lt, l.count_marks h picks, l.occupiedSectors_eq_card h picks,
    le_min (l.occupiedSectors_le h picks) (l.occupiedSectors_le_length h picks), fun same hsame => ?_,
    fun more hmore => occupiedSectors_mono hmore, fun more best previous root hmore hok => check_eq_ok_mono hmore hok⟩
  exact le_antisymm (occupiedSectors_mono fun pick hp => (hsame pick).mp hp)
    (occupiedSectors_mono fun pick hp => (hsame pick).mpr hp)

/-- Five picks in five sectors: the same picks once more, in the opposite order, change nothing, and a further one in
between keeps the candidate accepted. -/
theorem occupiedSectors_counts_five :
    let l := OneSecond.locator
    let h := OneSecond.candidate
    let picks := OneSecond.picks
    let further : Pick := (OneSecond.detection 6 1500 300.0 20.0).pick
    l.occupiedSectors h picks = 5 ∧ l.occupiedSectors h (picks ++ picks.reverse) = 5 ∧
      l.check picks (some h) none h.place = .ok ∧ l.check (further :: picks) (some h) none h.place = .ok := by
  intro l h picks further
  obtain ⟨-, -, -, -, hsame, -, hverdict⟩ := occupiedSectors_counts l h picks
  have hfive : l.occupiedSectors h picks = 5 := by decide +kernel
  have hok : l.check picks (some h) none h.place = .ok := by decide +kernel
  have htwice : ∀ pick, pick ∈ picks ++ picks.reverse ↔ pick ∈ picks := by simp
  exact ⟨hfive, (hsame _ htwice).trans hfive, hok, hverdict _ _ _ _ (List.subset_cons_self further picks) hok⟩

end Tremor.Locator
