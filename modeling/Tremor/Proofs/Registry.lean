import Tremor.Quake.Registry

/-!
# The registry as a map

What `Registry.get?` finds after each operation. Expiry needs that no two records have one identity (`Distinct`),
which every operation keeps.

- `get?_insert`, `get?_modify`, `get?_remove` : the records after a change of one of them
- `get?_sweep`, `expired_filter` : what expiry leaves, and what it takes
- `Distinct.insert`, `Distinct.modify`, `Distinct.remove`, `Distinct.sweep` : identities stay distinct
-/

namespace Tremor.Registry

variable {r : Registry} {id i : QuakeId} {q : Quake}

/-- A record that is found is live and has the identity asked for. -/
theorem mem_of_get? (h : r.get? id = some q) : q ∈ r.quakes ∧ q.id = id := by
  refine ⟨List.mem_of_find?_eq_some h, ?_⟩
  simpa using List.find?_some h

theorem contains_eq_isSome (r : Registry) (id : QuakeId) : r.contains id = (r.get? id).isSome := by
  rw [contains, get?, List.isSome_find?]

/-! ## One record -/

/-- A change of one record, under the identities that it keeps. -/
theorem get?_modify (r : Registry) {f : Quake → Quake} (hf : ∀ q, q.id = i → (f q).id = i) (id : QuakeId) :
    (r.modify i f).get? id = (r.get? id).map fun q => if q.id = i then f q else q := by
  simp only [get?, modify, List.find?_map, beq_iff_eq]
  congr 2
  funext q
  by_cases hq : q.id = i
  · simp [hq, hf q hq]
  · simp [hq]

theorem get?_modify_self (r : Registry) {f : Quake → Quake} (hf : ∀ q, q.id = i → (f q).id = i) :
    (r.modify i f).get? i = (r.get? i).map f := by
  rw [get?_modify r hf]
  cases h : r.get? i with
  | none => rfl
  | some q => simp [(mem_of_get? h).2]

theorem get?_modify_of_ne (r : Registry) {f : Quake → Quake} (hf : ∀ q, q.id = i → (f q).id = i) (hi : i ≠ id) :
    (r.modify i f).get? id = r.get? id := by
  rw [get?_modify r hf]
  cases h : r.get? id with
  | none => rfl
  | some q => simp [(mem_of_get? h).2, hi.symm]

theorem get?_insert (r : Registry) (q : Quake) : (r.insert q).get? id = if q.id = id then some q else r.get? id := by
  unfold insert
  split
  · rename_i hc
    by_cases hq : q.id = id
    · obtain ⟨old, ho⟩ := Option.isSome_iff_exists.mp (contains_eq_isSome r q.id ▸ hc)
      subst hq
      rw [get?_modify_self r fun _ _ => rfl, ho, if_pos rfl, Option.map_some]
    · rw [get?_modify_of_ne r (fun _ _ => rfl) hq, if_neg hq]
  · rename_i hc
    simp only [get?, List.find?_append, List.find?_singleton, beq_iff_eq]
    by_cases hq : q.id = id
    · subst hq
      have hn : r.get? q.id = none := by
        simpa [contains_eq_isSome] using hc
      simp only [get?] at hn
      simp [hn]
    · simp [hq]

theorem get?_remove (r : Registry) : (r.remove i).get? id = if i = id then none else r.get? id := by
  simp only [get?, remove, List.find?_filter]
  by_cases hi : i = id
  · subst hi
    simp
  · rw [if_neg hi]
    congr 1
    funext q
    by_cases hq : q.id = id
    · simp [hq, Ne.symm hi]
    · simp [hq]

/-! ## Distinct identities -/

/-- No two live quakes have one identity. -/
def Distinct (r : Registry) : Prop := (r.quakes.map (·.id)).Nodup

/-- The live quakes with an identity are the one that is found. -/
theorem Distinct.filter_eq (h : r.Distinct) (id : QuakeId) :
    r.quakes.filter (·.id == id) = (r.get? id).toList := by
  obtain ⟨qs⟩ := r
  simp only [get?]
  induction qs with
  | nil => rfl
  | cons q qs ih =>
    simp only [Distinct, List.map_cons, List.nodup_cons, List.mem_map, not_exists, not_and] at h ih
    by_cases hq : q.id = id
    · subst hq
      simpa [List.filter_eq_nil_iff] using h.1
    · simp [hq, ih h.2]

/-- Every live quake is found. -/
theorem Distinct.get?_of_mem (h : r.Distinct) (hq : q ∈ r.quakes) : r.get? q.id = some q := by
  have hf : q ∈ r.quakes.filter (·.id == q.id) := List.mem_filter.mpr ⟨hq, beq_self_eq_true q.id⟩
  rwa [h.filter_eq, Option.mem_toList] at hf

/-- A sweep leaves the quakes that have not expired. -/
theorem get?_sweep {Sink : Type} (h : r.Distinct) (store : Sink → Quake → Sink) (now : Int64) (sink : Sink) :
    (r.sweep store now sink).2.1.get? id = (r.get? id).filter fun q => !q.expired now := by
  have hq : (r.quakes.filter fun q => !q.expired now).filter (·.id == id) =
      ((r.get? id).filter fun q => !q.expired now).toList := by
    rw [Option.toList_filter, ← h.filter_eq, List.filter_filter, List.filter_filter]
    simp only [Bool.and_comm]
  rw [sweep, get?, ← List.head?_filter, hq, Option.head?_toList]

/-- The expired quakes with an identity are the one that is found, if it has expired. -/
theorem expired_filter (h : r.Distinct) (now : Int64) :
    (r.expired now).filter (·.id == id) = ((r.get? id).filter (·.expired now)).toList := by
  rw [Option.toList_filter, ← h.filter_eq, expired, List.filter_filter, List.filter_filter]
  simp only [Bool.and_comm]

theorem Distinct.modify (h : r.Distinct) {f : Quake → Quake} (hf : ∀ q, q.id = i → (f q).id = i) :
    (r.modify i f).Distinct := by
  have hm : (r.modify i f).quakes.map (·.id) = r.quakes.map (·.id) := by
    simp only [Registry.modify, List.map_map]
    refine List.map_congr_left fun q _ => ?_
    by_cases hq : q.id = i
    · simp [hq, hf q hq]
    · simp [hq]
  rw [Distinct, hm]
  exact h

theorem Distinct.insert (h : r.Distinct) (q : Quake) : (r.insert q).Distinct := by
  unfold Registry.insert
  split
  · exact h.modify fun _ _ => rfl
  · rename_i hc
    have hn : ∀ p ∈ r.quakes, p.id ≠ q.id := by
      simpa [contains] using hc
    simp only [Distinct, List.map_append, List.map_cons, List.map_nil]
    refine List.nodup_append.mpr ⟨h, by simp, fun x hx y hy => ?_⟩
    obtain ⟨p, hp, rfl⟩ := List.mem_map.mp hx
    rw [List.mem_singleton] at hy
    exact hy ▸ hn p hp

theorem Distinct.remove (h : r.Distinct) (i : QuakeId) : (r.remove i).Distinct :=
  h.sublist (List.filter_sublist.map _)

theorem Distinct.sweep {Sink : Type} (h : r.Distinct) (store : Sink → Quake → Sink) (now : Int64) (sink : Sink) :
    (r.sweep store now sink).2.1.Distinct :=
  h.sublist (List.filter_sublist.map _)

end Tremor.Registry
