import Mathlib.Data.List.Perm.Basic
import Mathlib.Data.List.Perm.Subperm
import Tremor.Proofs.Estimates
import Tremor.Proofs.TotalOrder

/-!
# The magnitude of a quake is a median

The magnitudes of the stations are stored upwards, with the middle one of them as the magnitude of the quake. Sorting
forgets in which order they came. A middle value has so many others on either side that a few stations with false
magnitudes, whatever these are, cannot move it past all the true ones.

- `Number.sortTotal_congr` : sorting forgets the order
- `IsMiddle`, `exists_median` : the median has at least half of the values on either side
- `ReplacedAt`, `IsMiddle.between` : it stays between two values that were not replaced
- `Registry.setMagnitude_median` : what is stored for a live quake
-/

namespace Tremor

namespace Number

variable {x y : Double}

theorem isLE_compareTotal : (compareTotal x y).isLE = true ↔ orderKey x ≤ orderKey y := Std.isLE_compare

/-- The sorted list of given doubles is determined by them. -/
theorem sortTotal_congr {xs ys : List Double} (h : xs.Perm ys) : sortTotal xs = sortTotal ys := by
  have hperm : (sortTotal xs).Perm (sortTotal ys) :=
    (List.mergeSort_perm xs _).trans (h.trans (List.mergeSort_perm ys _).symm)
  refine List.Perm.eq_of_pairwise (fun x y _ _ hxy hyx => ?_) (pairwise_mergeSort_key orderKey xs)
    (pairwise_mergeSort_key orderKey ys) hperm
  exact orderKey_inj.mp (Int64.le_antisymm hxy hyx)

end Number

open Number

/-! ## Middle values -/

/-- A value out of a list: at least half of the list is not above it, and more than half is not below it. -/
structure IsMiddle (xs : List Double) (m : Double) : Prop where
  mem : m ∈ xs
  notAbove : (xs.length + 1) / 2 ≤ xs.countP fun x => (compareTotal x m).isLE
  notBelow : xs.length / 2 + 1 ≤ xs.countP fun x => (compareTotal m x).isLE

theorem IsMiddle.perm {xs ys : List Double} {m : Double} (h : IsMiddle xs m) (hp : xs.Perm ys) : IsMiddle ys m where
  mem := hp.mem_iff.mp h.mem
  notAbove := hp.length_eq ▸ hp.countP_eq _ ▸ h.notAbove
  notBelow := hp.length_eq ▸ hp.countP_eq _ ▸ h.notBelow

/-- The median of an ascending list has the first half of the list on one side and the second half on the other. -/
theorem isMiddle_of_median {xs : List Double} {m : Double} (hsorted : xs.Pairwise fun x y => orderKey x ≤ orderKey y)
    (hm : median xs = some m) : IsMiddle xs m := by
  obtain ⟨hlt, hget⟩ := List.getElem?_eq_some_iff.mp hm
  have hascends : ∀ {i j : ℕ} (hi : i < xs.length) (hj : j < xs.length), i ≤ j → orderKey xs[i] ≤ orderKey xs[j] := by
    intro i j hi hj hij
    rcases Nat.lt_or_eq_of_le hij with hij | rfl
    · exact List.pairwise_iff_getElem.mp hsorted i j hi hj hij
    · exact Int64.le_refl _
  have hfirst : ∀ x ∈ xs.take ((xs.length - 1) / 2 + 1), (compareTotal x m).isLE := by
    intro x hx
    obtain ⟨i, hi, rfl⟩ := List.mem_take_iff_getElem.mp hx
    rw [isLE_compareTotal, ← hget]
    exact hascends (by omega) hlt (by omega)
  have hsecond : ∀ x ∈ xs.drop ((xs.length - 1) / 2), (compareTotal m x).isLE := by
    intro x hx
    obtain ⟨i, hi, rfl⟩ := List.mem_drop_iff_getElem.mp hx
    rw [isLE_compareTotal, ← hget]
    exact hascends hlt (by omega) (by omega)
  refine ⟨hget ▸ List.getElem_mem hlt, ?_, ?_⟩
  · have hcount := (List.take_sublist ((xs.length - 1) / 2 + 1) xs).countP_le (p := fun x => (compareTotal x m).isLE)
    rw [List.countP_eq_length.mpr hfirst, List.length_take] at hcount
    omega
  · have hcount := (List.drop_sublist ((xs.length - 1) / 2) xs).countP_le (p := fun x => (compareTotal m x).isLE)
    rw [List.countP_eq_length.mpr hsecond, List.length_drop] at hcount
    omega

/-- Every list with a value in it has a median when it is sorted, which is a middle value of the list. -/
theorem exists_median {xs : List Double} (h : xs ≠ []) : ∃ m, median (sortTotal xs) = some m ∧ IsMiddle xs m := by
  have hperm : (sortTotal xs).Perm xs := List.mergeSort_perm xs _
  have hpos := List.length_pos_iff.mpr h
  have hlt : ((sortTotal xs).length - 1) / 2 < (sortTotal xs).length := by
    rw [hperm.length_eq]
    omega
  have hm : median (sortTotal xs) = some (sortTotal xs)[((sortTotal xs).length - 1) / 2] := List.getElem?_eq_getElem hlt
  exact ⟨_, hm, (isMiddle_of_median (pairwise_mergeSort_key orderKey xs) hm).perm hperm⟩

/-! ## False values -/

/-- The second list has other values than the first at the given positions at most. -/
structure ReplacedAt (positions : List ℕ) (xs ys : List Double) : Prop where
  length_eq : ys.length = xs.length
  kept : ∀ i, i ∉ positions → ys[i]? = xs[i]?

/-- Of more values than were replaced, one was not replaced. -/
theorem ReplacedAt.exists_kept {positions : List ℕ} {xs ys : List Double} (h : ReplacedAt positions xs ys)
    {p : Double → Bool} (hp : positions.length < ys.countP p) :
    ∃ i x, i ∉ positions ∧ xs[i]? = some x ∧ p x = true := by
  by_contra hno
  -- otherwise the positions with such values are among those that were replaced
  have hsub : (ys.zipIdx.filter fun a => p a.1).map (·.2) ⊆ positions := by
    intro i hi
    obtain ⟨⟨x, j⟩, ha, rfl⟩ := List.mem_map.mp hi
    obtain ⟨hmem, hx⟩ := List.mem_filter.mp ha
    by_contra hj
    exact hno ⟨j, x, hj, (h.kept j hj).symm.trans (List.mk_mem_zipIdx_iff_getElem?.mp hmem), hx⟩
  have hnodup : ((ys.zipIdx.filter fun a => p a.1).map (·.2)).Nodup := by
    refine List.Nodup.sublist (List.filter_sublist.map _) ?_
    rw [List.zipIdx_map_snd]
    exact List.nodup_range'
  have hle := (List.subperm_of_subset hnodup hsub).length_le
  rw [List.length_map, ← List.countP_eq_length_filter] at hle
  have hcount : ys.zipIdx.countP (fun a => p a.1) = ys.countP p := by
    have hmap := (List.countP_map (p := p) (f := Prod.fst) (l := ys.zipIdx)).symm
    rwa [List.zipIdx_map_fst] at hmap
  omega

/-- A middle value of a list of which less than half was replaced lies between two values that were not. -/
theorem IsMiddle.between {positions : List ℕ} {xs ys : List Double} {m : Double} (hm : IsMiddle ys m)
    (h : ReplacedAt positions xs ys) (hfew : positions.length ≤ (xs.length - 1) / 2) :
    ∃ i lo j hi, i ∉ positions ∧ xs[i]? = some lo ∧ j ∉ positions ∧ xs[j]? = some hi ∧
      (compareTotal lo m).isLE ∧ (compareTotal m hi).isLE := by
  have hpos := List.length_pos_of_mem hm.mem
  have hlow := hm.notAbove
  have hhigh := hm.notBelow
  rw [h.length_eq] at hpos hlow hhigh
  obtain ⟨i, lo, hi, hlo, hle⟩ := h.exists_kept (Nat.lt_of_lt_of_le (by omega) hlow)
  obtain ⟨j, hi', hj, hhi, hge⟩ := h.exists_kept (Nat.lt_of_lt_of_le (by omega) hhigh)
  exact ⟨i, lo, j, hi', hi, hlo, hj, hhi, hle, hge⟩

/-! ## The stored magnitude -/

namespace Registry

variable {r : Registry} {id : QuakeId}

/-- The registry `r'` is `r` but for the magnitudes of one quake. -/
def Stores (r r' : Registry) (id : QuakeId) (mag : Double) (mags : List Double) : Prop :=
  ∀ i, r'.get? i = (r.get? i).map fun q => if i = id then { q with mag, mags } else q

theorem setMagnitude_nil (r : Registry) (id : QuakeId) : r.setMagnitude id [] = (r, false) := by
  simp [setMagnitude, sortTotal, median]

/-- Nothing is stored for a quake that is not live. -/
theorem setMagnitude_gone (h : r.get? id = none) (mags : List Double) : r.setMagnitude id mags = (r, false) := by
  have hgone : ∀ q ∈ r.quakes, (q.id == id) = false := by simpa [get?] using h
  have hmodify : ∀ f, r.modify id f = r := by
    intro f
    have hsame := List.map_congr_left (f := fun q => if q.id == id then f q else q) (g := fun q => q) fun q hq => by
      rw [hgone q hq, if_neg Bool.false_ne_true]
    rw [List.map_id'] at hsame
    rw [modify, hsame]
  unfold setMagnitude
  simp only
  split
  · rfl
  · rw [hmodify, contains_eq_isSome, h, Option.isSome_none]

/-- The median is stored with the sorted magnitudes. -/
theorem setMagnitude_live {q : Quake} (h : r.get? id = some q) {mags : List Double} {mag : Double}
    (hmag : median (sortTotal mags) = some mag) :
    (r.setMagnitude id mags).2 = true ∧ r.Stores (r.setMagnitude id mags).1 id mag (sortTotal mags) := by
  refine ⟨?_, fun i => ?_⟩
  · rw [setMagnitude]
    simp only [hmag]
    rw [contains_eq_isSome, h, Option.isSome_some]
  · by_cases hi : i = id
    · subst hi
      rw [get?_setMagnitude_self]
      simp only [Quake.withMagnitudes, hmag, if_true]
    · rw [get?_setMagnitude_of_ne r id mags (Ne.symm hi)]
      simp only [hi, if_false, Option.map_id']

/-- The magnitudes of the stations are stored for a live quake and with nothing else changed, if there are any: sorted,
and with a middle one of them as the magnitude of the quake. Their order does not matter, and false values in the place
of less than half of them leave the magnitude between two of the others. -/
theorem setMagnitude_median (r : Registry) (id : QuakeId) (mags : List Double) :
    (mags = [] ∨ r.get? id = none → r.setMagnitude id mags = (r, false)) ∧
      (∀ mags', mags.Perm mags' → r.setMagnitude id mags' = r.setMagnitude id mags) ∧
      ∀ q, r.get? id = some q → mags ≠ [] →
        (∃ mag, IsMiddle mags mag ∧ (r.setMagnitude id mags).2 = true ∧
          r.Stores (r.setMagnitude id mags).1 id mag (sortTotal mags)) ∧
        ∀ positions mags', ReplacedAt positions mags mags' → positions.length ≤ (mags.length - 1) / 2 →
          ∃ mag, r.Stores (r.setMagnitude id mags').1 id mag (sortTotal mags') ∧
            ∃ i lo j hi, i ∉ positions ∧ mags[i]? = some lo ∧ j ∉ positions ∧ mags[j]? = some hi ∧
              (compareTotal lo mag).isLE ∧ (compareTotal mag hi).isLE := by
  refine ⟨?_, fun mags' hp => ?_, fun q hq hne => ⟨?_, fun positions mags' hr hfew => ?_⟩⟩
  · rintro (rfl | hgone)
    · exact r.setMagnitude_nil id
    · exact setMagnitude_gone hgone mags
  · rw [setMagnitude, setMagnitude, sortTotal_congr hp]
  · obtain ⟨mag, hmag, hmiddle⟩ := exists_median hne
    exact ⟨mag, hmiddle, setMagnitude_live hq hmag⟩
  · have hne' : mags' ≠ [] := by
      rw [← List.length_pos_iff, hr.length_eq]
      exact List.length_pos_iff.mpr hne
    obtain ⟨mag, hmag, hmiddle⟩ := exists_median hne'
    exact ⟨mag, (setMagnitude_live hq hmag).2, hmiddle.between hr hfew⟩

/-- A quake of which no magnitude is known. -/
def unmeasured : Quake where
  id := ⟨1⟩
  cluster := ⟨1⟩
  place := ⟨35.0, 139.0⟩
  depth := 10.0
  origin := 0
  created := 0
  updated := 0
  mag := 0.0
  mags := []
  pct := 80.0
  revision := 1
  region := ""

/-- Five magnitudes, turned round, and with a NaN of either sign in the place of two of them; and three of which a
negative NaN is the smallest. -/
theorem setMagnitude_median_five :
    let r : Registry := { quakes := [unmeasured] }
    let mags : List Double := [4.0, 9.0, 3.0, 4.2, 3.9]
    let mags' : List Double := [4.0, -Double.nan, Double.nan, 4.2, 3.9]
    let mags₃ : List Double := [-Double.nan, 1.0, 2.0]
    r.setMagnitude ⟨2⟩ mags = (r, false) ∧ r.setMagnitude ⟨1⟩ mags.reverse = r.setMagnitude ⟨1⟩ mags ∧
      (∃ mag, IsMiddle mags mag ∧ r.Stores (r.setMagnitude ⟨1⟩ mags).1 ⟨1⟩ mag (sortTotal mags)) ∧
      ReplacedAt [1, 2] mags mags' ∧
      (∃ mag, r.Stores (r.setMagnitude ⟨1⟩ mags').1 ⟨1⟩ mag (sortTotal mags') ∧
        ∃ i lo j hi, i ∉ [1, 2] ∧ mags[i]? = some lo ∧ j ∉ [1, 2] ∧ mags[j]? = some hi ∧
          (compareTotal lo mag).isLE ∧ (compareTotal mag hi).isLE) ∧
      r.setMagnitude ⟨1⟩ mags₃.reverse = ({ quakes := [{ unmeasured with mag := 1.0, mags := mags₃ }] }, true) := by
  intro r mags mags' mags₃
  have hreplaced : ReplacedAt [1, 2] mags mags' := by
    refine ⟨rfl, fun i hi => ?_⟩
    match i with
    | 0 | 3 | 4 | _ + 5 => rfl
    | 1 | 2 => simp at hi
  obtain ⟨hgone, -⟩ := setMagnitude_median r ⟨2⟩ mags
  obtain ⟨-, hperm, hlive⟩ := setMagnitude_median r ⟨1⟩ mags
  obtain ⟨⟨mag, hmiddle, -, hstores⟩, hfalse⟩ := hlive unmeasured rfl (by simp [mags])
  have hsorted : sortTotal mags₃ = mags₃ := List.mergeSort_of_pairwise (by decide)
  have hthree : r.setMagnitude ⟨1⟩ mags₃ = ({ quakes := [{ unmeasured with mag := 1.0, mags := mags₃ }] }, true) := by
    have hmedian : median mags₃ = some 1.0 := by decide
    simp only [setMagnitude, hsorted, hmedian]
    rfl
  exact ⟨hgone (Or.inr rfl), hperm _ mags.reverse_perm.symm, ⟨mag, hmiddle, hstores⟩, hreplaced,
    hfalse _ _ hreplaced (by decide), ((setMagnitude_median r ⟨1⟩ mags₃).2.1 _ mags₃.reverse_perm.symm).trans hthree⟩

end Registry

end Tremor
