import Tremor.Proofs.PassChecks
import Tremor.Proofs.PassPlan

/-!
# What an outcome says

The outcome of a pass tells what the pass has changed, and that it has changed nothing else in the catalog and in what
ties the cluster to its quake. Registries are compared as collections of records: one record more, one record fewer, or
one record in the place of another.

- `insert_fresh`, `Distinct.perm_remove`, `Distinct.perm_modify` : the records after a change of one of them
- `Cluster.Refused`, `pass_rejected` : a search without an acceptable candidate
- `Outcome.Accounts` : what each outcome says
- `pass_accounts` : every pass has changed what its outcome says
-/

namespace Tremor

/-! ## Records -/

namespace Registry

variable {r : Registry} {id : QuakeId} {q : Quake}

/-- A record with a new identity comes last. -/
theorem insert_fresh (h : r.get? q.id = none) : r.insert q = { quakes := r.quakes ++ [q] } := by
  have hc : r.contains q.id = false := by rw [contains_eq_isSome, h, Option.isSome_none]
  rw [insert, hc, if_neg Bool.false_ne_true]

/-- A live record with all the others. -/
theorem Distinct.perm_remove (h : r.Distinct) (hq : r.get? id = some q) :
    r.quakes.Perm (q :: (r.remove id).quakes) := by
  have hp := List.filter_append_perm (·.id == id) r.quakes
  rw [h.filter_eq, hq] at hp
  exact hp.symm

/-- A change of one record leaves all the others. -/
theorem Distinct.perm_modify (h : r.Distinct) (hq : r.get? id = some q) (f : Quake → Quake) :
    (r.modify id f).quakes.Perm (f q :: (r.remove id).quakes) := by
  have hp := (h.perm_remove hq).map fun p => if p.id == id then f p else p
  have hrest : (r.remove id).quakes.map (fun p => if p.id == id then f p else p) = (r.remove id).quakes := by
    refine (List.map_congr_left fun p hp => ?_).trans (List.map_id _)
    have hne : (p.id == id) = false := by simpa [remove] using (List.mem_filter.mp hp).2
    rw [hne, if_neg Bool.false_ne_true, id_eq]
  rwa [List.map_cons, hrest, if_pos (by simpa using (mem_of_get? hq).2)] at hp

end Registry

namespace Catalog

variable {k : Catalog} {id : QuakeId}

theorem withdraw_live {q : Quake} (hq : k.registry.get? id = some q) (cluster : ClusterId) :
    k.withdraw id cluster =
      { k with registry := k.registry.remove id, bus := k.bus.publish (.removed id cluster) } := by
  rw [withdraw, Registry.contains_eq_isSome, hq, Option.isSome_some, if_pos rfl]

theorem withdraw_gone (hq : k.registry.get? id = none) (cluster : ClusterId) : k.withdraw id cluster = k := by
  rw [withdraw, Registry.contains_eq_isSome, hq, Option.isSome_none, if_neg Bool.false_ne_true]

end Catalog

/-! ## Outcomes -/

namespace Cluster

/-- A search from the root and the anchor of a cluster gave no acceptable candidate. The cluster keeps the candidate, if
there is one. -/
structure Refused (l : Locator) (c c' : Cluster) (condition : Condition) (best : Option Hypocenter) : Prop where
  verdict : ∃ root anchor, c.root = some root ∧ c.anchor = some anchor ∧
    best = l.locate c'.selected anchor c.previous ∧ condition = l.check c'.selected best c.previous root
  refused : condition ≠ .ok
  null_iff : condition = .null ↔ best = none
  previous : c'.previous = best.or c.previous

/-- Root, anchor and solution of a cluster are the same. -/
structure SameSearch (c c' : Cluster) : Prop where
  root : c'.root = c.root
  anchor : c'.anchor = c.anchor
  previous : c'.previous = c.previous

end Cluster

/-- What the outcome of a pass says about the cluster `c'` and the catalog `k'` that it leaves, the cluster having been
`c` and the catalog `k`. -/
def Outcome.Accounts (l : Locator) (c c' : Cluster) (k k' : Catalog) : Outcome → Prop
  | .skipped reason => k' = k ∧ SameLink c c' ∧ (reason ≠ .archived → c.SameSearch c')
  | .rejected condition => k' = k ∧ SameLink c c' ∧ c'.root = c.root ∧ c'.anchor = c.anchor ∧
      ∃ best, c.Refused l c' condition best
  | .committed id _ true => c.quake = none ∧ c'.quake = some id ∧ c'.revision = c.revision + 1 ∧
      k.registry.get? id = none ∧ ∃ q, q.id = id ∧
        k'.registry.quakes.Perm (q :: k.registry.quakes) ∧ k'.bus = k.bus.publish (.created q)
  | .committed id _ false => c.quake = some id ∧ c'.quake = some id ∧ c'.revision = c.revision + 1 ∧
      ∃ q q' others, q.id = id ∧ q'.id = id ∧ k.registry.quakes.Perm (q :: others) ∧
        k'.registry.quakes.Perm (q' :: others) ∧ k'.bus = k.bus.publish (.updated q')
  | .discarded _ => c'.quake = none ∧ c'.revision = c.revision ∧
      match c.own k with
      | none => k' = k
      | some q => k.registry.quakes.Perm (q :: k'.registry.quakes) ∧ k'.bus = k.bus.publish (.removed q.id c.id)

/-- There is no candidate when the verdict says so. -/
theorem Locator.check_eq_null_iff (l : Locator) (picks : List Pick) (best previous : Option Hypocenter) (root : Point) :
    l.check picks best previous root = .null ↔ best = none := by
  cases best with
  | none => exact iff_of_true rfl rfl
  | some h =>
    refine iff_of_false (fun hc => ?_) (by simp)
    unfold check at hc
    simp only at hc
    repeat' split at hc
    all_goals cases hc

namespace Cluster

variable {c c' : Cluster} {d : Detector} {now : Int64} {k k' : Catalog} {condition : Condition}

/-- A candidate that is not accepted. -/
theorem evaluate_error {l : Locator} {task : SearchTask} {previous best : Option Hypocenter}
    (h : evaluate l task previous = .error (condition, best)) :
    best = l.locate task.picks task.anchor previous ∧ condition = l.check task.picks best previous task.root ∧
      condition ≠ .ok := by
  unfold evaluate at h
  simp only at h
  split at h
  · cases h
  · rename_i hno
    cases h
    refine ⟨rfl, rfl, fun hok => ?_⟩
    -- without a candidate the verdict is another one
    cases hb : l.locate task.picks task.anchor previous with
    | none =>
      rw [hb] at hok
      cases hok
    | some best => exact hno best hok hb

/-- A solution is not rejected any more. -/
theorem settle_ne_rejected (c : Cluster) (d : Detector) (anchor : Point) (s : Solution) (now : Int64) (k : Catalog)
    (condition : Condition) : (c.settle d anchor s now k).1 ≠ .rejected condition := by
  unfold settle
  split
  · simp only [commit]
    split
    · split <;> simp
    · simp
  · simp [discard]

/-- A pass without an acceptable candidate keeps the one that it found. -/
theorem pass_rejected (h : c.pass d now k = (.rejected condition, c', k')) :
    ∃ best, c.Refused d.locator c' condition best := by
  unfold pass at h
  split at h
  · cases h
  · rename_i prepared task hp
    obtain ⟨hselected, hprevious, hroot, hanchor, -⟩ := prepare_ok hp
    split at h
    · rename_i condition best he
      cases h
      obtain ⟨hbest, hcondition, hrefused⟩ := evaluate_error he
      rw [hprevious] at hbest hcondition
      have hsame : (if best.isSome then { prepared with previous := best } else prepared).selected = task.picks := by
        split <;> exact hselected
      rw [← hsame] at hbest hcondition
      refine ⟨best, ⟨task.root, task.anchor, hroot, hanchor, hbest, hcondition⟩, hrefused, ?_, ?_⟩
      · rw [hcondition, Locator.check_eq_null_iff]
      · cases best <;> simp [hprevious]
    · rename_i s _
      have hr := settle_ne_rejected prepared d task.anchor s now k condition
      exact absurd (congrArg Prod.fst h) hr

/-- Every pass has changed what its outcome says, and nothing else; the identity of a new quake must not be in use. -/
theorem pass_accounts (c : Cluster) (d : Detector) (now : Int64) (hk : k.registry.Distinct)
    (hfresh : k.registry.get? ⟨k.next⟩ = none) :
    (c.pass d now k).1.Accounts d.locator c (c.pass d now k).2.1 k (c.pass d now k).2.2 := by
  have he := pass_effect d now c k
  generalize hp : c.pass d now k = r at he
  obtain ⟨outcome, c', k'⟩ := r
  simp only at he ⊢
  cases he with
  | skipped reason => exact ⟨rfl, ⟨rfl, rfl, rfl⟩, fun _ => ⟨rfl, rfl, rfl⟩⟩
  | rejected => exact ⟨rfl, ⟨rfl, rfl, rfl⟩, rfl, rfl, pass_rejected hp⟩
  | archived => exact ⟨rfl, ⟨rfl, rfl, rfl⟩, fun h => absurd rfl h⟩
  | created hc s =>
    have hr : (k.enrol (c.recordOf d s now)).2.registry.quakes = k.registry.quakes ++ [c.recordOf d s now ⟨k.next⟩] :=
      congrArg Registry.quakes (Registry.insert_fresh (q := c.recordOf d s now ⟨k.next⟩) hfresh)
    exact ⟨hc, rfl, rfl, hfresh, c.recordOf d s now ⟨k.next⟩, rfl, hr ▸ List.perm_append_singleton _ _, rfl⟩
  | revised id hc s k' hk' =>
    obtain ⟨q, hq, rfl⟩ := Option.map_eq_some_iff.mp hk'
    have hid := (Registry.mem_of_get? hq).2
    exact ⟨hc, hc, rfl, q, restate d.regions s (c.revision + 1) now q, (k.registry.remove id).quakes, hid, hid,
      hk.perm_remove hq, hk.perm_modify hq _, rfl⟩
  | withdrawn id hc s =>
    have hown : c.own k = k.registry.get? id := by rw [own, hc, Option.bind_some]
    cases hq : k.registry.get? id with
    | none =>
      rw [Catalog.withdraw_gone hq]
      refine ⟨rfl, rfl, ?_⟩
      rw [hown, hq]
    | some q =>
      rw [Catalog.withdraw_live hq]
      refine ⟨rfl, rfl, ?_⟩
      rw [hown, hq]
      exact ⟨hk.perm_remove hq, by rw [(Registry.mem_of_get? hq).2]⟩
  | unsettled hc s =>
    have hown : c.own k = none := by rw [own, hc, Option.bind_none]
    refine ⟨hc, rfl, ?_⟩
    rw [hown]

end Cluster

/-- A pass that commits a new quake to an empty registry. -/
theorem OneSecond.pass_cluster_accounts :
    let k : Catalog := { bus := { capacity := 16 } }
    k.registry.Distinct ∧ k.registry.get? ⟨k.next⟩ = none ∧ ∃ c' k',
      cluster.pass detector 7000 k = (.committed ⟨1⟩ 80.0 true, c', k') ∧
        (Outcome.committed ⟨1⟩ 80.0 true).Accounts locator cluster c' k k' := by
  intro k
  have hk : k.registry.Distinct := List.nodup_nil
  have hfresh : k.registry.get? ⟨k.next⟩ = none := rfl
  obtain ⟨c', k', hp⟩ := pass_cluster k
  have ha := Cluster.pass_accounts cluster detector 7000 hk hfresh
  rw [hp] at ha
  exact ⟨hk, hfresh, c', k', hp, ha⟩

end Tremor
