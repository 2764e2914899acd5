import Mathlib.Algebra.Order.BigOperators.Group.List
import Mathlib.Algebra.Order.Field.Basic
import Mathlib.Algebra.Order.Ring.Rat
import Mathlib.Data.Set.Finite.Basic
import Mathlib.Order.Preorder.Finite
import Mathlib.Tactic.FieldSimp
import Mathlib.Tactic.Linarith
import Mathlib.Tactic.Ring
import Tremor.Geo.TravelTime
import Tremor.Proofs.Words
import Tremor.Search.Score

/-!
# The mean of the implied origins

Each pick with an arrival implies an origin time. Sums and counts wrap around on the way, and so it only matters whether
the whole sum of these times fits into a word: then the mean is the exact one, truncated, which is not outside of the
times that it is the mean of.

- `exactOrigins` : the implied origin times as integers
- `meanOrigin_wraps`, `meanOrigin_eq` : the mean
- `meanOrigin_eq_none_iff` : there is no mean when no wave arrives anywhere
- `tdiv_length_mem`, `abs_tdiv_sub_lt_one` : a truncated mean
- `meanOrigin_is_mean` : what the mean is, and what it does not depend on
-/

namespace Tremor.Search

variable {picks picks' : List Pick} {travels travels' : List (Option Float)}

/-- The origin time that a pick implies, as an integer. -/
def exactOrigin (pick : Pick) (travel : Float) : Int := pick.pWave.toInt - (millis travel).toInt

/-- The origin times that picks imply; those without an arrival imply none. -/
def exactOrigins : List Pick → List (Option Float) → List Int
  | pick :: picks, some travel :: travels => exactOrigin pick travel :: exactOrigins picks travels
  | _ :: picks, none :: travels => exactOrigins picks travels
  | _, _ => []

theorem length_exactOrigins_le : ∀ (picks : List Pick) (travels : List (Option Float)),
    (exactOrigins picks travels).length ≤ picks.length
  | _ :: picks, some _ :: travels => Nat.succ_le_succ (length_exactOrigins_le picks travels)
  | _ :: picks, none :: travels => Nat.le_succ_of_le (length_exactOrigins_le picks travels)
  | [], _ => Nat.le_refl 0
  | _ :: _, [] => Nat.zero_le _

/-- Every pick stands for itself. -/
theorem exactOrigins_eq_filterMap : ∀ (picks : List Pick) (travels : List (Option Float)),
    exactOrigins picks travels = (picks.zip travels).filterMap fun s => s.2.map (exactOrigin s.1)
  | pick :: picks, some travel :: travels => by
    rw [exactOrigins, exactOrigins_eq_filterMap picks travels]
    rfl
  | _ :: picks, none :: travels => by
    rw [exactOrigins, exactOrigins_eq_filterMap picks travels]
    rfl
  | [], _ => rfl
  | _ :: _, [] => rfl

theorem exactOrigins_eq_nil_iff : exactOrigins picks travels = [] ↔ ∀ s ∈ picks.zip travels, s.2 = none := by
  rw [exactOrigins_eq_filterMap, List.filterMap_eq_nil_iff]
  simp only [Option.map_eq_none_iff]

/-! ## The mean in words -/

/-- The mean of a sum of `count` terms in words. -/
def wordMean (sum count : Int64) : Option Int64 := if 0 < count then some (sum / count) else none

theorem ofInt_exactOrigin (pick : Pick) (travel : Float) :
    Int64.ofInt (exactOrigin pick travel) = impliedOrigin pick travel := by
  rw [exactOrigin, Int64.ofInt_sub, Int64.ofInt_toInt, Int64.ofInt_toInt, impliedOrigin]

/-- Sum and number of the implied origins are added, and wrap around. -/
theorem meanOriginFrom_wraps : ∀ (picks : List Pick) (travels : List (Option Float)) (sum count : Int64),
    meanOriginFrom picks travels sum count = wordMean (sum + Int64.ofInt (exactOrigins picks travels).sum)
      (count + Int64.ofNat (exactOrigins picks travels).length)
  | pick :: picks, some travel :: travels, sum, count => by
    have hsum : sum + impliedOrigin pick travel + Int64.ofInt (exactOrigins picks travels).sum =
        sum + Int64.ofInt (exactOrigin pick travel + (exactOrigins picks travels).sum) := by
      rw [Int64.ofInt_add, ofInt_exactOrigin, Int64.add_assoc]
    have hcount : count + 1 + Int64.ofNat (exactOrigins picks travels).length =
        count + Int64.ofNat ((exactOrigins picks travels).length + 1) := by
      rw [Int64.ofNat_add, Int64.add_assoc, Int64.add_comm 1]
      rfl
    rw [meanOriginFrom, meanOriginFrom_wraps, hsum, hcount, exactOrigins, List.sum_cons, List.length_cons]
  | _ :: picks, none :: travels, sum, count => meanOriginFrom_wraps picks travels sum count
  | [], travels, sum, count => by
    show wordMean sum count = wordMean (sum + 0) (count + 0)
    rw [Int64.add_zero, Int64.add_zero]
  | pick :: picks, [], sum, count => by
    show wordMean sum count = wordMean (sum + 0) (count + 0)
    rw [Int64.add_zero, Int64.add_zero]

theorem meanOrigin_wraps (picks : List Pick) (travels : List (Option Float)) :
    meanOrigin picks travels =
      wordMean (Int64.ofInt (exactOrigins picks travels).sum) (Int64.ofNat (exactOrigins picks travels).length) := by
  rw [meanOrigin, meanOriginFrom_wraps, Int64.zero_add, Int64.zero_add]

/-- Picks that imply the same origins, in any order, have the same mean. -/
theorem meanOrigin_perm (h : (exactOrigins picks travels).Perm (exactOrigins picks' travels')) :
    meanOrigin picks travels = meanOrigin picks' travels' := by
  rw [meanOrigin_wraps, meanOrigin_wraps, h.sum_eq, h.length_eq]

/-! ## The exact mean -/

/-- The mean of a sum of `count` terms, truncated. -/
def exactMean (sum count : Int) : Option Int64 := if 0 < count then some (Int64.ofInt (sum.tdiv count)) else none

theorem wordMean_eq (sum count : Int64) : wordMean sum count = exactMean sum.toInt count.toInt := by
  rw [wordMean, exactMean, div_eq_ofInt]
  simp only [Int64.lt_iff_toInt_lt, Int64.toInt_zero]

/-- The mean of the origin times that picks imply, when their sum fits into a word. -/
theorem meanOrigin_eq (hn : picks.length < 0x8000000000000000) (hs : InWord (exactOrigins picks travels).sum) :
    meanOrigin picks travels = exactMean (exactOrigins picks travels).sum (exactOrigins picks travels).length := by
  have hle := length_exactOrigins_le picks travels
  rw [meanOrigin_wraps, wordMean_eq, toInt_ofInt_of_inWord hs, Int64.toInt_ofNat_of_lt (by omega)]

/-- There is no mean of no origin times. -/
theorem meanOrigin_eq_none_iff_nil (hn : picks.length < 0x8000000000000000) :
    meanOrigin picks travels = none ↔ exactOrigins picks travels = [] := by
  have hle := length_exactOrigins_le picks travels
  rw [meanOrigin_wraps, wordMean_eq, Int64.toInt_ofNat_of_lt (by omega), exactMean, ← List.length_eq_zero_iff]
  split
  · rename_i hpos
    exact iff_of_false (by simp) (by omega)
  · rename_i hzero
    exact iff_of_true rfl (by omega)

/-- There is no mean when no wave arrives anywhere. -/
theorem meanOrigin_eq_none_iff (hl : travels.length = picks.length) (hn : picks.length < 0x8000000000000000) :
    meanOrigin picks travels = none ↔ ∀ travel ∈ travels, travel = none := by
  have hsnd : (picks.zip travels).map Prod.snd = travels := List.map_snd_zip hl.le
  rw [meanOrigin_eq_none_iff_nil hn, exactOrigins_eq_nil_iff]
  conv_rhs => rw [← hsnd, List.forall_mem_map]

/-! ## Truncated means -/

/-- A truncated mean is not outside of a range that all terms are in. -/
theorem tdiv_length_mem {xs : List Int} (hne : xs ≠ []) {low high : Int} (h : ∀ x ∈ xs, low ≤ x ∧ x ≤ high) :
    low ≤ xs.sum.tdiv xs.length ∧ xs.sum.tdiv xs.length ≤ high := by
  have hpos : (0 : Int) < xs.length := Int.natCast_pos.mpr (List.length_pos_iff.mpr hne)
  have hlow : low * xs.length ≤ xs.sum := by
    have hsum := xs.card_nsmul_le_sum low fun x hx => (h x hx).1
    rwa [nsmul_eq_mul, Int.mul_comm] at hsum
  have hhigh : xs.sum ≤ high * xs.length := by
    have hsum := xs.sum_le_card_nsmul high fun x hx => (h x hx).2
    rwa [nsmul_eq_mul, Int.mul_comm] at hsum
  -- truncation is monotone, and does nothing to a multiple of the length
  constructor
  · calc low = (low * xs.length).tdiv xs.length := (Int.mul_tdiv_cancel low hpos.ne').symm
      _ ≤ xs.sum.tdiv xs.length := Int.tdiv_le_tdiv hpos hlow
  · calc xs.sum.tdiv xs.length ≤ (high * xs.length).tdiv xs.length := Int.tdiv_le_tdiv hpos hhigh
      _ = high := Int.mul_tdiv_cancel high hpos.ne'

/-- Truncation cuts off less than one, on either side of zero. -/
theorem abs_tdiv_sub_lt_one (sum : Int) {count : Int} (hc : 0 < count) :
    |((sum.tdiv count : Int) : ℚ) - sum / count| < 1 := by
  have hpos : (0 : ℚ) < count := by exact_mod_cast hc
  have hsplit : (count : ℚ) * (sum.tdiv count : Int) + (sum.tmod count : Int) = sum := by
    exact_mod_cast Int.mul_tdiv_add_tmod sum count
  have hlow : -(count : ℚ) < (sum.tmod count : Int) := by exact_mod_cast Int.lt_tmod_of_pos sum hc
  have hhigh : ((sum.tmod count : Int) : ℚ) < count := by exact_mod_cast Int.tmod_lt_of_pos sum hc
  have hrest : ((sum.tdiv count : Int) : ℚ) - sum / count = -((sum.tmod count : Int) / count) := by
    rw [← hsplit]
    field_simp
    ring
  rw [hrest, abs_neg, abs_div, abs_of_pos hpos, div_lt_one hpos, abs_lt]
  exact ⟨hlow, hhigh⟩

/-- A list of times has an earliest and a latest one. -/
theorem exists_first_last {xs : List Int} (hne : xs ≠ []) :
    ∃ first last, IsLeast {x | x ∈ xs} first ∧ IsGreatest {x | x ∈ xs} last := by
  obtain ⟨x, hx⟩ := List.exists_mem_of_ne_nil xs hne
  have hfinite : {x | x ∈ xs}.Finite := xs.finite_toSet
  obtain ⟨first, hfirst⟩ := hfinite.exists_minimal ⟨x, hx⟩
  obtain ⟨last, hlast⟩ := hfinite.exists_maximal ⟨x, hx⟩
  exact ⟨first, last, minimal_iff_isLeast.mp hfirst, maximal_iff_isGreatest.mp hlast⟩

/-! ## Picks under angles -/

variable {times : TravelTimes} {depth : Float} {angles angles' : List Float}

/-- The origin times that picks imply for a source at a depth, each under the angle to its station. -/
def originsAt (times : TravelTimes) (depth : Float) (sights : List (Pick × Float)) : List Int :=
  sights.filterMap fun s => (times.pWave depth s.2).map (exactOrigin s.1)

/-- A wave arrives under an angle. -/
def arrives (times : TravelTimes) (depth : Float) (sight : Pick × Float) : Bool := (times.pWave depth sight.2).isSome

theorem exactOrigins_angles (times : TravelTimes) (depth : Float) (picks : List Pick) (angles : List Float) :
    exactOrigins picks (angles.map (times.pWave depth)) = originsAt times depth (picks.zip angles) := by
  rw [exactOrigins_eq_filterMap, List.zip_map_right, List.filterMap_map, originsAt]
  rfl

/-- Picks without an arrival imply nothing. -/
theorem originsAt_filter (times : TravelTimes) (depth : Float) (sights : List (Pick × Float)) :
    originsAt times depth (sights.filter (arrives times depth)) = originsAt times depth sights := by
  rw [originsAt, List.filterMap_filter, originsAt]
  refine List.filterMap_congr fun s _ => ?_
  unfold arrives
  cases times.pWave depth s.2 <;> rfl

theorem originsAt_eq_nil_iff {sights : List (Pick × Float)} :
    originsAt times depth sights = [] ↔ ∀ s ∈ sights, times.pWave depth s.2 = none := by
  rw [originsAt, List.filterMap_eq_nil_iff]
  simp only [Option.map_eq_none_iff]

/-- Picks with the same arrivals under the same angles, in any order, have the same mean. -/
theorem meanOrigin_eq_of_arrivals
    (h : ((picks.zip angles).filter (arrives times depth)).Perm ((picks'.zip angles').filter (arrives times depth))) :
    meanOrigin picks (angles.map (times.pWave depth)) = meanOrigin picks' (angles'.map (times.pWave depth)) := by
  refine meanOrigin_perm ?_
  rw [exactOrigins_angles, exactOrigins_angles, ← originsAt_filter, ← originsAt_filter times depth (picks'.zip angles')]
  exact h.filterMap _

/-- A truncated mean of origin times that fits into a word. -/
theorem toInt_meanOrigin {origin : Int64} (hn : picks.length < 0x8000000000000000)
    (hs : InWord (exactOrigins picks travels).sum) (h : meanOrigin picks travels = some origin) :
    exactOrigins picks travels ≠ [] ∧
      origin.toInt = (exactOrigins picks travels).sum.tdiv (exactOrigins picks travels).length := by
  have hne : exactOrigins picks travels ≠ [] := by
    intro hnil
    rw [(meanOrigin_eq_none_iff_nil hn).mpr hnil] at h
    cases h
  have hpos : (0 : Int) < (exactOrigins picks travels).length := Int.natCast_pos.mpr (List.length_pos_iff.mpr hne)
  rw [meanOrigin_eq hn hs, exactMean, if_pos hpos] at h
  cases h
  exact ⟨hne, toInt_ofInt_of_inWord (hs.tdiv hpos)⟩

/-- The origin time of picks whose implied origins have a sum that fits into a word: there is none when no wave arrives.
Otherwise it is neither before the first nor after the last of the implied origins, and less than a millisecond off their
mean. It depends neither on the order of the picks nor on those without an arrival. -/
theorem meanOrigin_is_mean (times : TravelTimes) (depth : Float) (picks : List Pick) (angles : List Float)
    (hn : picks.length < 0x8000000000000000) (hs : InWord (originsAt times depth (picks.zip angles)).sum) :
    let origins := originsAt times depth (picks.zip angles)
    let mean := meanOrigin picks (angles.map (times.pWave depth))
    (mean = none ↔ ∀ s ∈ picks.zip angles, times.pWave depth s.2 = none) ∧
      (∀ origin, mean = some origin →
        (∃ first last, IsLeast {o | o ∈ origins} first ∧ IsGreatest {o | o ∈ origins} last ∧
          first ≤ origin.toInt ∧ origin.toInt ≤ last) ∧
        |(origin.toInt : ℚ) - (origins.sum : ℚ) / origins.length| < 1) ∧
      (∀ picks' angles', (picks'.zip angles').Perm (picks.zip angles) →
        meanOrigin picks' (angles'.map (times.pWave depth)) = mean) ∧
      ∀ picks' angles',
        (picks'.zip angles').filter (arrives times depth) = (picks.zip angles).filter (arrives times depth) →
          meanOrigin picks' (angles'.map (times.pWave depth)) = mean := by
  intro origins mean
  have horigins := exactOrigins_angles times depth picks angles
  refine ⟨?_, fun origin horigin => ?_, fun picks' angles' hperm => meanOrigin_eq_of_arrivals (hperm.filter _),
    fun picks' angles' hsame => meanOrigin_eq_of_arrivals (.of_eq hsame)⟩
  · rw [meanOrigin_eq_none_iff_nil hn, horigins, originsAt_eq_nil_iff]
  · obtain ⟨hne, hmean⟩ := toInt_meanOrigin hn (horigins ▸ hs) horigin
    rw [horigins] at hne hmean
    obtain ⟨first, last, hfirst, hlast⟩ := exists_first_last hne
    have hbetween := tdiv_length_mem hne fun o ho => ⟨hfirst.2 ho, hlast.2 ho⟩
    have hpos : (0 : Int) < origins.length := Int.natCast_pos.mpr (List.length_pos_iff.mpr hne)
    have hnear := abs_tdiv_sub_lt_one origins.sum hpos
    rw [hmean]
    exact ⟨⟨first, last, hfirst, hlast, hbetween⟩, hnear⟩

/-- A wave takes a second, under angles of up to 100 degrees. -/
def oneSecondNearby : TravelTimes where
  pWave _ angle := if angle ≤ 100.0 then some 1.0 else none
  sWave _ _ := none
  maxDepth := 0.0

/-- Two picks that imply the origins -4000 and -997, with one between them that no wave reaches: the mean is rounded
towards zero. -/
theorem meanOrigin_is_mean_negative :
    let picks : List Pick := [⟨-3000, ⟨0.0, 0.0⟩, 0.0, 1.0⟩, ⟨9000, ⟨1.0, 1.0⟩, 0.0, 1.0⟩, ⟨3, ⟨2.0, 2.0⟩, 0.0, 1.0⟩]
    let angles : List Float := [10.0, 120.0, 20.0]
    let origins := originsAt oneSecondNearby 0.0 (picks.zip angles)
    picks.length < 0x8000000000000000 ∧ InWord origins.sum ∧ origins = [-4000, -997] ∧
      meanOrigin picks (angles.map (oneSecondNearby.pWave 0.0)) = some (-2498) ∧
      meanOrigin picks.reverse (angles.reverse.map (oneSecondNearby.pWave 0.0)) = some (-2498) := by
  intro picks angles origins
  have hn : picks.length < 0x8000000000000000 := by decide
  have horigins : origins = [-4000, -997] := by decide +kernel
  have hs : InWord origins.sum := by
    rw [horigins]
    decide
  have hmean : meanOrigin picks (angles.map (oneSecondNearby.pWave 0.0)) = some (-2498) := by decide +kernel
  obtain ⟨-, -, horder, -⟩ := meanOrigin_is_mean oneSecondNearby 0.0 picks angles hn hs
  have hreverse : (picks.reverse.zip angles.reverse).Perm (picks.zip angles) := List.reverse_perm (picks.zip angles)
  exact ⟨hn, hs, horigins, hmean, (horder _ _ hreverse).trans hmean⟩

end Tremor.Search
