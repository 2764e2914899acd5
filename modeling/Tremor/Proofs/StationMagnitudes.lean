import Mathlib.Data.List.Forall2
import Tremor.Proofs.FaithfulRounding
import Tremor.Proofs.MedianMagnitude
import Tremor.Proofs.Words

/-!
# The magnitudes that the stations give

A detection gives a magnitude when it is valid and an S wave arrives at its station. The magnitude is that of its ratio
when the record runs on for long enough, and that of a greater ratio, nearby at least, when it does not. An estimate is
the sorted list of these magnitudes, so that it depends neither on the order of the detections nor on those that give
none.

- `expectedS`, `counts` : the S wave, and the detections that give a magnitude
- `Gives` : the magnitude that a detection gives
- `reading_eq_some_iff` : it is the one that the estimator takes
- `forall₂_readings` : the estimator takes one magnitude from each detection that counts
- `estimate_gives` : what an estimate consists of
-/

namespace Tremor.MagnitudeEstimator

open Number

variable (e : MagnitudeEstimator) (q : Quake) (d : Detection)

/-! ## One station -/

/-- When the S wave of a quake is expected at a station, if one arrives there. -/
def expectedS : Option Int64 :=
  (e.travelTimes.sWave q.depth (Geo.arc (e.geodesy.distance q.place d.place))).map fun travel =>
    q.origin + Search.millis travel

/-- Whether a detection gives a magnitude. -/
def counts : Bool := d.valid && (e.expectedS q d).isSome

/-- The magnitude that a valid detection gives, at the straight distance of its station: that of its ratio as it is,
when the record ends more than eight seconds after the expected S wave, and otherwise that of its ratio times
`2 - distance / 400`, or times one if that is more. -/
inductive Gives : Double → Prop
  | whole {arrival : Int64} (hvalid : d.valid = true) (hs : e.expectedS q d = some arrival)
      (hlong : arrival + 8000 < d.latest) :
      Gives (e.table.magnitude (e.geodesy.chord q.place (-q.depth) d.place (d.elevation / 1000.0))
        d.maxRatio.toFloat)
  | short {arrival : Int64} (hvalid : d.valid = true) (hs : e.expectedS q d = some arrival)
      (hshort : d.latest ≤ arrival + 8000) :
      Gives (e.table.magnitude (e.geodesy.chord q.place (-q.depth) d.place (d.elevation / 1000.0))
        (d.maxRatio.toFloat * Scalar.max (2.0 - e.geodesy.distance q.place d.place / 400.0) 1.0))

/-- The magnitude that the estimator takes from a detection. -/
def reading : Option Double := if d.valid then e.stationMagnitude q d else none

variable {e q d}

/-- What a record that runs on for long enough is multiplied with changes nothing. -/
theorem mul_factor_of_lt {arrival latest : Int64} (h : arrival + 8000 < latest) (ratio distance : Float) :
    ratio * factor distance arrival latest = ratio := by
  rw [factor, sWaveMargin, if_pos h, mul_one_eq]

theorem factor_of_le {arrival latest : Int64} (h : latest ≤ arrival + 8000) (distance : Float) :
    factor distance arrival latest = Scalar.max (2.0 - distance / 400.0) 1.0 := by
  rw [factor, sWaveMargin, if_neg (Int64.not_lt.mpr h)]

theorem stationMagnitude_eq (e : MagnitudeEstimator) (q : Quake) (d : Detection) :
    e.stationMagnitude q d = (e.expectedS q d).map fun arrival =>
      e.table.magnitude (e.geodesy.chord q.place (-q.depth) d.place (d.elevation / 1000.0))
        (d.maxRatio.toFloat * factor (e.geodesy.distance q.place d.place) arrival d.latest) := by
  simp only [stationMagnitude, expectedS, Option.map_map]
  rfl

/-- The estimator takes the magnitude that the detection gives. -/
theorem reading_eq_some_iff {m : Double} : e.reading q d = some m ↔ e.Gives q d m := by
  rw [reading, stationMagnitude_eq]
  constructor
  · intro h
    split at h
    · rename_i hvalid
      obtain ⟨arrival, hs, rfl⟩ := Option.map_eq_some_iff.mp h
      rcases Int64.lt_or_le (arrival + 8000) d.latest with hlong | hshort
      · rw [mul_factor_of_lt hlong]
        exact .whole hvalid hs hlong
      · rw [factor_of_le hshort]
        exact .short hvalid hs hshort
    · cases h
  · rintro (⟨hvalid, hs, hlong⟩ | ⟨hvalid, hs, hshort⟩)
    · rw [if_pos hvalid, hs, Option.map_some, mul_factor_of_lt hlong]
    · rw [if_pos hvalid, hs, Option.map_some, factor_of_le hshort]

theorem isSome_reading : (e.reading q d).isSome = e.counts q d := by
  rw [reading, stationMagnitude_eq, counts]
  cases d.valid <;> simp

/-! ## All stations -/

/-- The magnitudes that the estimator takes from detections, in their order. -/
theorem readings_eq (e : MagnitudeEstimator) (q : Quake) (ds : List Detection) :
    (ds.filter (·.valid)).filterMap (e.stationMagnitude q) = ds.filterMap (e.reading q) := List.filterMap_filter

/-- There is one for each detection that counts. -/
theorem forall₂_readings (e : MagnitudeEstimator) (q : Quake) (ds : List Detection) :
    List.Forall₂ (e.Gives q) (ds.filter (e.counts q)) (ds.filterMap (e.reading q)) := by
  induction ds with
  | nil => exact .nil
  | cons d ds ih =>
    have hcounts := isSome_reading (e := e) (q := q) (d := d)
    cases hm : e.reading q d with
    | none =>
      rw [hm, Option.isSome_none] at hcounts
      rwa [List.filterMap_cons_none hm, List.filter_cons_of_neg (by rw [← hcounts]; exact Bool.false_ne_true)]
    | some m =>
      rw [hm, Option.isSome_some] at hcounts
      rw [List.filterMap_cons_some hm, List.filter_cons_of_pos hcounts.symm]
      exact .cons (reading_eq_some_iff.mp hm) ih

/-- There is none for the others. -/
theorem filterMap_reading_filter (e : MagnitudeEstimator) (q : Quake) (ds : List Detection) :
    (ds.filter (e.counts q)).filterMap (e.reading q) = ds.filterMap (e.reading q) := by
  rw [List.filterMap_filter]
  refine List.filterMap_congr fun d _ => ?_
  rw [← isSome_reading]
  cases e.reading q d <;> rfl

theorem filterMap_reading_eq_nil_iff {ds : List Detection} :
    ds.filterMap (e.reading q) = [] ↔ ∀ d ∈ ds, e.counts q d = false := by
  rw [List.filterMap_eq_nil_iff]
  refine forall₂_congr fun d _ => ?_
  rw [← isSome_reading, Option.isSome_eq_false_iff, Option.isNone_iff_eq_none]

/-- An estimate is made of the magnitudes that are taken from the detections. -/
theorem estimate_eq (e : MagnitudeEstimator) (q : Quake) (ds : List Detection) :
    e.estimate q ds =
      if ds.filterMap (e.reading q) = [] then none else some (sortTotal (ds.filterMap (e.reading q))) := by
  rw [← readings_eq, estimate]
  simp only [List.isEmpty_iff]

/-- There is no estimate when no detection counts. Otherwise an estimate is a list of magnitudes in ascending order, one
for each detection that counts, and the one that this detection gives. Detections that do not count have no influence on
it, and neither has the order of the detections. The times are compared as whole numbers, unless they do not fit into a
word. -/
theorem estimate_gives (e : MagnitudeEstimator) (q : Quake) (ds : List Detection) :
    (e.estimate q ds = none ↔ ∀ d ∈ ds, e.counts q d = false) ∧
      (∀ mags, e.estimate q ds = some mags → (mags.Pairwise fun a b => compareTotal a b ≠ .gt) ∧
        ∃ values, mags.Perm values ∧ List.Forall₂ (e.Gives q) (ds.filter (e.counts q)) values) ∧
      (∀ d, e.counts q d = true → ∃! m, e.Gives q d m) ∧
      e.estimate q (ds.filter (e.counts q)) = e.estimate q ds ∧
      (∀ ds', ds.Perm ds' → e.estimate q ds' = e.estimate q ds) ∧
      ∀ d arrival, e.expectedS q d = some arrival → InWord (arrival.toInt + 8000) →
        (arrival + 8000 < d.latest ↔ 8000 < d.latest.toInt - arrival.toInt) := by
  refine ⟨?_, fun mags hmags => ?_, fun d hd => ?_, ?_, fun ds' hperm => ?_, fun d arrival _ hword => ?_⟩
  · rw [← filterMap_reading_eq_nil_iff, estimate_eq]
    split <;> simp_all
  · rw [estimate_eq] at hmags
    split at hmags
    · cases hmags
    · cases hmags
      exact ⟨pairwise_sortTotal _, _, List.mergeSort_perm _ _, forall₂_readings e q ds⟩
  · rw [← isSome_reading] at hd
    obtain ⟨m, hm⟩ := Option.isSome_iff_exists.mp hd
    refine ⟨m, reading_eq_some_iff.mp hm, fun m' hm' => ?_⟩
    exact Option.some.inj ((reading_eq_some_iff.mpr hm').symm.trans hm)
  · rw [estimate_eq, estimate_eq, filterMap_reading_filter]
  · have hreadings := hperm.symm.filterMap (e.reading q)
    have hnil : ds'.filterMap (e.reading q) = [] ↔ ds.filterMap (e.reading q) = [] :=
      ⟨fun h => (h ▸ hreadings.symm).eq_nil, fun h => (h ▸ hreadings).eq_nil⟩
    rw [estimate_eq, estimate_eq, sortTotal_congr hreadings]
    simp only [hnil]
  · have hsum : (arrival + 8000).toInt = arrival.toInt + 8000 := toInt_add_of_inWord hword
    rw [Int64.lt_iff_toInt_lt, hsum]
    omega

/-- Four detections a degree, more or less, from a quake: one with a long record, one that is not valid, one whose
record ends eight seconds after the S wave, and one that no S wave reaches. Below 7.5 the table gives a negative NaN,
which comes first. -/
theorem estimate_gives_four :
    let e : MagnitudeEstimator :=
      { geodesy :=
          { distance := fun a b => (a.lat - b.lat).abs, chord := fun _ _ _ _ => 1.0, bearing := fun _ _ => 0.0
            circle := fun centre _ _ => centre }
        travelTimes := { pWave := fun _ _ => none, sWave := fun _ arc => if arc < 1.5 then some 2.0 else none
                         maxDepth := 0.0 }
        table := { magnitude := fun _ ratio => if ratio < 7.5 then -Double.nan else .ofFloat ratio } }
    let q : Quake := Registry.unmeasured
    let detection (lat maxRatio : Float) (latest : Int64) (valid : Bool) : Detection :=
      { station := ⟨1⟩, place := ⟨lat, 139.0⟩, elevation := 0.0, pWave := 0, maxRatio := .ofFloat maxRatio, updates := 1
        valid, latest }
    let ds := [detection 135.0 8.0 10001 true, detection 135.0 9.0 10001 false, detection 135.0 4.0 10000 true,
      detection 235.0 6.0 10001 true]
    e.estimate q ds = some [-Double.nan, 8.0] ∧ e.estimate q ds.reverse = e.estimate q ds ∧
      e.estimate q (ds.filter (e.counts q)) = e.estimate q ds ∧
      (∃! m, e.Gives q (detection 135.0 4.0 10000 true) m) ∧
      (∃ values, [-Double.nan, 8.0].Perm values ∧ List.Forall₂ (e.Gives q) (ds.filter (e.counts q)) values) ∧
      (2000 + 8000 < (10001 : Int64) ↔ 8000 < (10001 : Int64).toInt - (2000 : Int64).toInt) := by
  intro e q detection ds
  have hsorted : sortTotal [8.0, -Double.nan] = [-Double.nan, 8.0] :=
    (sortTotal_congr (List.Perm.swap _ _ _)).trans (List.mergeSort_of_pairwise (by decide +kernel))
  have hreadings : ds.filterMap (e.reading q) = [8.0, -Double.nan] := by decide +kernel
  have hestimate : e.estimate q ds = some [-Double.nan, 8.0] := by
    rw [estimate_eq, hreadings, if_neg (List.cons_ne_nil _ _), hsorted]
  have hcounts : e.counts q (detection 135.0 4.0 10000 true) = true := by decide +kernel
  have harrival : e.expectedS q (detection 135.0 8.0 10001 true) = some 2000 := by decide +kernel
  obtain ⟨-, hmags, hone, hfilter, hperm, hexact⟩ := estimate_gives e q ds
  exact ⟨hestimate, hperm _ ds.reverse_perm.symm, hfilter, hone _ hcounts, (hmags _ hestimate).2,
    hexact _ _ harrival (by decide)⟩

end Tremor.MagnitudeEstimator
