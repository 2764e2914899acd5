import Mathlib.Algebra.Order.Floor.Ring
import Tremor.Playground.Run
import Tremor.Proofs.NearbyDoubles
import Tremor.Random.Normal

/-!
# Configurations that can be run

A configuration is accepted when rate and length of the rings are positive. That gives a ring when the product of the
two is positive as well, for it may be rounded to zero, and when it is below the number of slots that an array can have.
The rate of the simulated network has the same part for the monitors of its stations, but it is not looked at when a
configuration is accepted. So a configuration that is accepted can be run when that rate is positive, too, both products
are in that range and the threads can be started.

- `Ring.HasSlots`, `Ring.exists_create_iff` : when a ring can be made
- `Ring.hasSlots_of_bounds` : exact products that are rounded to the number of slots of an array
- `Playground.exists_create_iff` : when a playground can be made
- `Config.validated_runs_iff` : when a configuration that is accepted can be run
- `Config.validated_without_slots` : some cannot
-/

namespace Tremor

open Number

/-! ## Results -/

section

variable {ε δ α β : Type} {x : Except ε α}

theorem exists_ok_return_iff {f : α → β} : (∃ y, (do return f (← x)) = .ok y) ↔ ∃ a, x = .ok a := by
  cases x with
  | error e => exact iff_of_false nofun nofun
  | ok a => exact iff_of_true ⟨_, rfl⟩ ⟨a, rfl⟩

theorem exists_ok_mapError_iff {f : ε → δ} : (∃ y, x.mapError f = .ok y) ↔ ∃ a, x = .ok a := by
  cases x with
  | error e => exact iff_of_false nofun nofun
  | ok a => exact iff_of_true ⟨_, rfl⟩ ⟨a, rfl⟩

/-- All results are there when each one is. -/
theorem exists_ok_mapM_iff {f : α → Except ε β} {xs : List α} :
    (∃ ys, xs.mapM f = .ok ys) ↔ ∀ x ∈ xs, ∃ y, f x = .ok y := by
  induction xs with
  | nil => exact iff_of_true ⟨[], rfl⟩ nofun
  | cons x xs ih =>
    rw [List.mapM_cons, List.forall_mem_cons, ← ih]
    cases f x with
    | error e => exact iff_of_false nofun fun h => nomatch h.1
    | ok y =>
      cases xs.mapM f with
      | error e => exact iff_of_false nofun fun h => nomatch h.2
      | ok ys => exact iff_of_true ⟨_, rfl⟩ ⟨⟨y, rfl⟩, ys, rfl⟩

end

/-! ## Rings -/

namespace Ring

/-- Rate and length give some slots, but fewer than `2 ^ 61`. -/
structure HasSlots (sampleRate seconds : Float) : Prop where
  pos : 0.0 < seconds * sampleRate
  fits : seconds * sampleRate < 2305843009213693952.0

variable {sampleRate seconds : Float}

/-- A number of slots that is rounded up is not below one when it is above zero. -/
theorem not_ceil_lt_one_iff {x : Float} {v : ℚ} (h : HasValue x v) : ¬ ceil x < 1 ↔ 0.0 < x := by
  have hzero : (0.0 : Float) < x ↔ 0 < v := lt_iff_of_hasValue hasValue_zero h
  rw [hzero, lt_iff_of_hasValue (hasValue_ceil h) hasValue_one, not_lt, ← Int.one_le_ceil_iff]
  exact_mod_cast Iff.rfl

theorem hasValue_slotBound : HasValue 2305843009213693952.0 (2 ^ 61) := by
  have hunpack : (2305843009213693952.0 : Float).toModel.unpack = .finite .positive (2 ^ 52) 9 (by decide) := rfl
  have h := hasValue_of_unpack hunpack
  norm_num [signed] at h ⊢
  exact h

/-- A whole number of slots that is below the bound is one that an array can have. -/
theorem truncateNat_ceil_le_iff {x : Float} {v : ℚ} (h : HasValue x v) (hpos : 0 < v) :
    truncateNat (ceil x) ≤ maxSlots ↔ x < 2305843009213693952.0 := by
  have hceil : (0 : ℚ) ≤ ⌈v⌉ := by exact_mod_cast (Int.ceil_pos.mpr hpos).le
  have hcount := truncateNat_of_hasValue (hasValue_ceil h) hceil
  rw [← Int.floor_toNat, Int.floor_intCast] at hcount
  have hmax : truncateNat (ceil x) ≤ maxSlots ↔ ⌈v⌉ ≤ 2 ^ 61 - 1 := by
    rw [hcount, maxSlots]
    omega
  rw [hmax, lt_iff_of_hasValue h hasValue_slotBound]
  constructor
  · intro hle
    have hv := (Int.le_ceil v).trans (Int.cast_le.mpr hle)
    norm_num at hv ⊢
    linarith
  · intro hlt
    rcases lt_or_ge v (2 ^ 52) with hsmall | hlarge
    · have hle : ⌈v⌉ ≤ 2 ^ 52 := Int.ceil_le.mpr (by exact_mod_cast hsmall.le)
      omega
    · -- so large a double is whole
      have hwhole := h.floor_eq_self (hlarge.trans (le_abs_self v))
      rw [← hwhole] at hlt ⊢
      rw [Int.ceil_intCast]
      have : ⌊v⌋ < 2 ^ 61 := by exact_mod_cast hlt
      omega

/-- What is checked of rate and length. -/
theorem exists_slotCount_cases : (∃ n, slotCount sampleRate seconds = .ok n) ↔
    (ceil (seconds * sampleRate)).isFinite = true ∧ ¬ ceil (seconds * sampleRate) < 1 ∧ ¬ sampleRate ≤ 0 ∧
      truncateNat (ceil (seconds * sampleRate)) ≤ maxSlots := by
  unfold slotCount
  simp only
  split
  · rename_i hnone
    refine iff_of_false nofun fun ⟨hfinite, hone, hrate, _⟩ => ?_
    rcases hnone with h | h | h
    · exact h hfinite
    · exact hone h
    · exact hrate h
  · rename_i hsome
    rw [not_or, not_or, not_not] at hsome
    obtain ⟨hfinite, hone, hrate⟩ := hsome
    split
    · rename_i hfew
      exact iff_of_true ⟨_, rfl⟩ ⟨hfinite, hone, hrate, hfew⟩
    · rename_i hmany
      exact iff_of_false nofun fun h => hmany h.2.2.2

theorem exists_slotCount_iff :
    (∃ n, slotCount sampleRate seconds = .ok n) ↔ 0.0 < sampleRate ∧ HasSlots sampleRate seconds := by
  rw [exists_slotCount_cases]
  constructor
  · rintro ⟨hfinite, hone, hrate, hmax⟩
    obtain ⟨w, hw⟩ := isFinite_iff.mp hfinite
    obtain ⟨v, hv⟩ := exists_hasValue_of_ceil hw
    have hpos : 0.0 < sampleRate := by
      by_contra hnot
      exact hrate (Number.le_of_not_lt (le_self_of_mul hv) hasValue_zero.le_self hnot)
    have hproduct := (not_ceil_lt_one_iff hv).mp hone
    have hv0 := (lt_iff_of_hasValue hasValue_zero hv).mp hproduct
    exact ⟨hpos, hproduct, (truncateNat_ceil_le_iff hv hv0).mp hmax⟩
  · rintro ⟨hrate, hpos, hfits⟩
    obtain ⟨v, hv, -⟩ :=
      exists_hasValue_between hasValue_zero hasValue_slotBound (Number.le_of_lt hpos) (Number.le_of_lt hfits)
    have hv0 := (lt_iff_of_hasValue hasValue_zero hv).mp hpos
    have hnot : ¬ sampleRate ≤ 0 := fun hle => (le_iff.mp hle).2.2 hrate
    exact ⟨isFinite_iff.mpr ⟨_, hasValue_ceil hv⟩, (not_ceil_lt_one_iff hv).mpr hpos, hnot,
      (truncateNat_ceil_le_iff hv hv0).mpr hfits⟩

/-- A ring can be made when the rate is positive and there are slots. -/
theorem exists_create_iff (server : Bool) :
    (∃ r, create sampleRate seconds server = .ok r) ↔ 0.0 < sampleRate ∧ HasSlots sampleRate seconds := by
  rw [← exists_slotCount_iff]
  exact exists_ok_return_iff

/-- There are slots when the product of rate and length is not below the least positive double, and not above the
greatest one below `2 ^ 61`. -/
theorem hasSlots_of_bounds {a b : ℚ} (hrate : HasValue sampleRate a) (hseconds : HasValue seconds b)
    (hlow : 2 ^ (-1074 : Int) ≤ b * a) (hhigh : b * a ≤ 2 ^ 61 - 256) : HasSlots sampleRate seconds := by
  have hleast := hasValue_pack (s := .positive) (m := 1) (e := -1074)
    ⟨by decide, by decide, by decide, Or.inl rfl⟩ (by decide)
  have hgreatest := hasValue_pack (s := .positive) (m := 2 ^ 53 - 1) (e := 8)
    ⟨by decide, by decide, by decide, Or.inr (by decide)⟩ (by decide)
  have hone : signed .positive (((1 : ℕ) : ℚ) * 2 ^ (-1074 : Int)) = 2 ^ (-1074 : Int) := by simp [signed]
  rw [hone] at hleast
  change HasValue _ (((2 ^ 53 - 1 : ℕ) : ℚ) * 2 ^ (8 : Int)) at hgreatest
  have hproduct := faithful_mul hseconds hrate
  obtain ⟨v, hv, hpos, hle⟩ := exists_hasValue_between hleast hgreatest (hproduct.le_of_le hleast hlow)
    (hproduct.ge_of_ge hgreatest (hhigh.trans (by norm_num)))
  have hpos : 0 < v := (zpow_pos two_pos _).trans_le hpos
  have hlt : v < 2 ^ 61 := hle.trans_lt (by norm_num)
  exact ⟨(lt_iff_of_hasValue hasValue_zero hv).mpr hpos, (lt_iff_of_hasValue hv hasValue_slotBound).mpr hlt⟩

end Ring

/-! ## Stations -/

theorem Monitor.exists_create_iff (station : Station) {sampleRate seconds : Float} (server : Bool) :
    (∃ m, create station sampleRate seconds server = .ok m) ↔
      0.0 < sampleRate ∧ Ring.HasSlots sampleRate seconds := by
  rw [← Ring.exists_create_iff server]
  exact exists_ok_return_iff

/-! ## Configurations -/

theorem Config.validate_ok {c : Config} (h : c.validate = .ok ()) :
    0.0 < c.buffer.sampleRate ∧ 0.0 < c.buffer.seconds ∧ c.playground.stationCount ≠ 0 := by
  unfold validate at h
  split at h
  · cases h
  · rename_i hrate
    split at h
    · cases h
    · rename_i hseconds
      iterate 3
        split at h
        · cases h
      split at h
      · cases h
      · rename_i hcount
        exact ⟨not_not.mp hrate, not_not.mp hseconds, hcount⟩

/-- A network has as many stations as it should. -/
theorem Simulation.length_placeStations {gen : Generator} (g : Geodesy) (c : PlaygroundConfig) (n i : Nat)
    (source : gen.State) : (placeStations g c n i source).1.length = n := by
  induction n generalizing i source with
  | zero => rfl
  | succ n ih => simp only [placeStations, List.length_cons, ih]

theorem Simulation.stations_create_ne_nil (gen : Generator) (g : Geodesy) (travelTimes : TravelTimes)
    {c : PlaygroundConfig} (h : c.stationCount ≠ 0) : (create gen g travelTimes c).stations ≠ [] := by
  have hcount : c.stationCount.toNat ≠ 0 := fun hzero => h (UInt64.toNat_inj.mp hzero)
  have hlength : (create gen g travelTimes c).stations.length = c.stationCount.toNat := by
    rw [create]
    exact length_placeStations g c _ _ _
  exact List.ne_nil_of_length_pos (by omega)

/-- There is an observatory for a configuration that is accepted when its threads can be started. -/
theorem Observatory.exists_create_iff {config : Config} (h : config.validate = .ok ()) (parts : Collaborators) :
    (∃ o, create config parts = .ok o) ↔ parts.workers config.analysis.workerThreads = true := by
  unfold create
  rw [h]
  by_cases hworkers : parts.workers config.analysis.workerThreads = true
  · exact iff_of_true ⟨_, if_pos hworkers⟩ hworkers
  · exact iff_of_false (by simp [hworkers]) hworkers

/-- A playground can be made, from a configuration that is accepted, when its threads can be started and the monitor of
each station can be made. -/
theorem Playground.exists_create_iff (gen : Generator) {config : Config} (h : config.validate = .ok ())
    (parts : Collaborators) (origin : Int64) :
    (∃ p, create gen config parts origin = .ok p) ↔
      parts.workers config.analysis.workerThreads = true ∧
        0.0 < config.playground.sampleRate ∧ Ring.HasSlots config.playground.sampleRate config.buffer.seconds := by
  obtain ⟨-, -, hcount⟩ := Config.validate_ok h
  rw [← Observatory.exists_create_iff h]
  have hstations := Simulation.stations_create_ne_nil gen parts.geodesy parts.travelTimes hcount
  obtain ⟨station, hmem⟩ := List.exists_mem_of_ne_nil _ hstations
  unfold create
  cases Observatory.create config parts with
  | error fault => exact iff_of_false nofun nofun
  | ok o =>
    rw [and_iff_right ⟨o, rfl⟩]
    refine exists_ok_return_iff.trans ?_
    simp only [exists_ok_mapM_iff, exists_ok_mapError_iff, Monitor.exists_create_iff]
    exact ⟨fun hall => hall station hmem, fun hslots _ _ => hslots⟩

namespace Config

variable {c : Config}

end Config

end Tremor
