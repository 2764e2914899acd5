import Mathlib.Data.List.Perm.Basic
import Tremor.Observatory
import Tremor.Proofs.Registry

/-!
# Estimates of magnitudes

An estimate for a cluster touches the record of its quake alone, and there only the magnitudes (`Quake.measured`). So
the records after some estimates are found one by one, and the order of the estimates does not matter as long as no two
clusters know one quake.

- `get?_updateMagnitude`, `get?_updateMagnitudes` : a record after one estimate and after some
- `foldl_measuredBy_perm` : estimates in another order
-/

namespace Tremor

/-- A record with the magnitudes of stations, if there are any. -/
def Quake.withMagnitudes (q : Quake) (mags : List Double) : Quake :=
  match median (Number.sortTotal mags) with
  | none => q
  | some mag => { q with mag, mags := Number.sortTotal mags }

/-- A record with the magnitudes that the stations of a cluster give it. -/
def Quake.measured (e : MagnitudeEstimator) (c : Cluster) (q : Quake) : Quake :=
  match e.estimate q c.assigned with
  | none => q
  | some mags => q.withMagnitudes mags

/-- The record of a quake after an estimate for a cluster. -/
def Quake.measuredBy (e : MagnitudeEstimator) (id : QuakeId) (q : Quake) (c : Cluster) : Quake :=
  if c.quake = some id then q.measured e c else q

theorem Quake.id_withMagnitudes (q : Quake) (mags : List Double) : (q.withMagnitudes mags).id = q.id := by
  unfold withMagnitudes
  split <;> rfl

namespace Registry

variable (r : Registry) (i : QuakeId) (mags : List Double)

/-- Storing magnitudes changes one record, and none when there are no magnitudes. -/
theorem setMagnitude_eq_modify : (r.setMagnitude i mags).1 = r.modify i fun q => q.withMagnitudes mags := by
  unfold setMagnitude
  simp only
  split
  · rename_i hmag
    simp [modify, Quake.withMagnitudes, hmag]
  · rename_i mag hmag
    simp only [Quake.withMagnitudes, hmag]

theorem get?_setMagnitude_self : (r.setMagnitude i mags).1.get? i = (r.get? i).map fun q => q.withMagnitudes mags := by
  rw [setMagnitude_eq_modify]
  exact get?_modify_self r fun q hq => (q.id_withMagnitudes mags).trans hq

theorem get?_setMagnitude_of_ne {id : QuakeId} (hi : i ≠ id) : (r.setMagnitude i mags).1.get? id = r.get? id := by
  rw [setMagnitude_eq_modify]
  exact get?_modify_of_ne r (fun q hq => (q.id_withMagnitudes mags).trans hq) hi

end Registry

namespace Observatory

variable (e : MagnitudeEstimator)

/-- An estimate touches the record of the quake of its cluster. -/
theorem get?_updateMagnitude (r : Registry) (c : Cluster) (id : QuakeId) :
    (updateMagnitude e r c).get? id = (r.get? id).map fun q => q.measuredBy e id c := by
  unfold updateMagnitude Quake.measuredBy
  by_cases hc : c.quake = some id
  · simp only [hc, Option.bind_some, if_true]
    cases hq : r.get? id with
    | none => exact hq
    | some q =>
      have hid : q.id = id := (Registry.mem_of_get? hq).2
      simp only [Option.map_some, Quake.measured]
      cases e.estimate q c.assigned with
      | none => exact hq
      | some mags => rw [hid, Registry.get?_setMagnitude_self, hq, Option.map_some]
  · simp only [hc, if_false, Option.map_id']
    cases hq : c.quake.bind r.get? with
    | none => rfl
    | some q =>
      obtain ⟨i, hi, hget⟩ := Option.bind_eq_some_iff.mp hq
      have hne : q.id ≠ id := fun he => hc (by rw [hi, ← he, (Registry.mem_of_get? hget).2])
      simp only
      cases e.estimate q c.assigned with
      | none => rfl
      | some mags => exact Registry.get?_setMagnitude_of_ne r q.id mags hne

/-- A record after some estimates, one after the other. -/
theorem get?_updateMagnitudes (r : Registry) (cs : List Cluster) (id : QuakeId) :
    (cs.foldl (updateMagnitude e) r).get? id = (r.get? id).map fun q => cs.foldl (Quake.measuredBy e id) q := by
  induction cs generalizing r with
  | nil => simp
  | cons c cs ih => rw [List.foldl_cons, ih, get?_updateMagnitude, Option.map_map]; rfl

end Observatory

/-- Estimates for clusters that know different quakes may come in any order. -/
theorem foldl_measuredBy_perm (e : MagnitudeEstimator) {cs cs' : List Cluster} (hp : cs.Perm cs') (id : QuakeId)
    (hne : ∀ a ∈ cs, ∀ b ∈ cs, a.quake = some id → b.quake = some id → a = b) (q : Quake) :
    cs.foldl (Quake.measuredBy e id) q = cs'.foldl (Quake.measuredBy e id) q := by
  refine hp.foldl_eq' (fun a ha b hb q => ?_) q
  by_cases hab : a = b
  · rw [hab]
  · unfold Quake.measuredBy
    by_cases hqa : a.quake = some id
    · have hqb : b.quake ≠ some id := fun hqb => hab (hne a ha b hb hqa hqb)
      simp [hqb]
    · simp [hqa]

end Tremor
