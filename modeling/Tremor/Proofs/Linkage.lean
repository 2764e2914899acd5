import Mathlib.Data.List.Nodup
import Tremor.Proofs.LifeCycle
import Tremor.Proofs.PassEffect

/-!
# Clusters and their quakes

A live quake belongs to exactly one cluster, which knows it and its revision (`Linked`). A cluster may know a quake that
is no longer live; no other cluster ever gets to know that one.

- `SameLink` : a change of a cluster that does not concern its quake
- `PassEffect.sound` : what a pass tells, given that the cluster knows the revision of its quake
- `Linked.nodup_quakes`, `Linked.filter_owner` : clusters know different quakes, and a live one has one owner
- `Linked.map`, `Linked.add`, `Linked.recatalog`, `Linked.pass` : every change keeps the links
-/

namespace Tremor

/-! ## Changes of a cluster that do not concern its quake -/

/-- The cluster is the same as far as its quake is concerned. -/
structure SameLink (c c' : Cluster) : Prop where
  id : c'.id = c.id
  quake : c'.quake = c.quake
  revision : c'.revision = c.revision

theorem SameLink.findRoot (c : Cluster) : SameLink c c.findRoot := by
  unfold Cluster.findRoot
  simp only
  split <;> exact ⟨rfl, rfl, rfl⟩

theorem SameLink.measure (c : Cluster) (g : Geodesy) : SameLink c (c.measure g) := by
  unfold Cluster.measure
  split <;> exact ⟨rfl, rfl, rfl⟩

theorem SameLink.tick (c : Cluster) (g : Geodesy) : SameLink c (c.tick g).1 := by
  unfold Cluster.tick
  split
  · exact ⟨rfl, rfl, rfl⟩
  · split
    · have hr := SameLink.findRoot { c with updateCount := c.updates }
      have hm := SameLink.measure (Cluster.findRoot { c with updateCount := c.updates }) g
      exact ⟨hm.id.trans hr.id, hm.quake.trans hr.quake, hm.revision.trans hr.revision⟩
    · have hm := SameLink.measure { c with updateCount := c.updates } g
      exact ⟨hm.id, hm.quake, hm.revision⟩

/-! ## What a pass tells -/

/-- A pass keeps what was told in order, when the cluster knows the revision of its quake. -/
theorem Cluster.PassEffect.sound {d : Detector} {now : Int64} {c c' : Cluster} {k k' : Catalog} {outcome : Outcome}
    (he : PassEffect d now c k outcome c' k') (hs : k.Sound)
    (hrev : ∀ id q, c.quake = some id → k.registry.get? id = some q → q.revision = c.revision) : k'.Sound := by
  cases he with
  | skipped | rejected | archived | unsettled => exact hs
  | created => exact hs.enrol fun _ => rfl
  | revised id hc s k' hk =>
    have hnext : ∀ q, k.registry.get? id = some q →
        (Cluster.restate d.regions s (c.revision + 1) now q).revision = q.revision + 1 := by
      intro q hq
      rw [hrev id q hc hq]
      rfl
    exact hs.amend (Cluster.restate_id _ _ _ _ _) hnext hk
  | withdrawn id => exact hs.withdraw id c.id

theorem Cluster.PassEffect.id_eq {d : Detector} {now : Int64} {c c' : Cluster} {k k' : Catalog} {outcome : Outcome}
    (he : PassEffect d now c k outcome c' k') : c'.id = c.id := by
  cases he <;> rfl

/-! ## Links -/

/-- Each live quake belongs to one cluster, which knows its revision; no two clusters know one quake. -/
structure Linked (cs : List Cluster) (k : Catalog) : Prop where
  distinct : (cs.map (·.id)).Nodup
  known : ∀ c ∈ cs, ∀ id, c.quake = some id → id.number < k.next
  exclusive : ∀ c ∈ cs, ∀ c' ∈ cs, ∀ id, c.quake = some id → c'.quake = some id → c = c'
  owned : ∀ id q, k.registry.get? id = some q →
    ∃ c ∈ cs, c.quake = some id ∧ q.cluster = c.id ∧ q.revision = c.revision

variable {cs : List Cluster} {k k' : Catalog} {c c' : Cluster}

/-- A cluster knows the revision of its quake while that is live. -/
theorem Linked.synced (h : Linked cs k) (hc : c ∈ cs) {id : QuakeId} {q : Quake} (hq : c.quake = some id)
    (hk : k.registry.get? id = some q) : q.cluster = c.id ∧ q.revision = c.revision := by
  obtain ⟨o, ho, hoq, hcluster, hrev⟩ := h.owned id q hk
  cases h.exclusive o ho c hc id hoq hq
  exact ⟨hcluster, hrev⟩

theorem Linked.eq_of_id (h : Linked cs k) (hc : c ∈ cs) (hc' : c' ∈ cs) (he : c.id = c'.id) : c = c' :=
  List.inj_on_of_nodup_map h.distinct hc hc' he

/-- No quake is known twice. -/
theorem Linked.nodup_quakes (h : Linked cs k) : (cs.filterMap (·.quake)).Nodup := by
  have hne : cs.Pairwise fun a b => a.id ≠ b.id := List.pairwise_map.mp h.distinct
  refine List.pairwise_filterMap.mpr (hne.imp_of_mem ?_)
  rintro a b ha hb hab i hai j hbj rfl
  exact hab (congrArg (·.id) (h.exclusive a ha b hb i hai hbj))

/-- The clusters that know a quake are the one that does. -/
theorem Linked.filter_owner (h : Linked cs k) (hc : c ∈ cs) {id : QuakeId} (hq : c.quake = some id) :
    cs.filter (fun d => d.quake = some id) = [c] := by
  have hn : (cs.filter fun d => d.quake = some id).Nodup := (List.Nodup.of_map _ h.distinct).filter _
  refine List.perm_singleton.mp ((List.perm_ext_iff_of_nodup hn (List.nodup_singleton c)).mpr fun d => ?_)
  simp only [List.mem_filter, decide_eq_true_eq, List.mem_singleton]
  constructor
  · rintro ⟨hd, hdq⟩
    exact h.exclusive d hd c hc id hdq hq
  · rintro rfl
    exact ⟨hc, hq⟩

/-- Changes of clusters that do not concern their quakes. -/
theorem Linked.map (h : Linked cs k) {f : Cluster → Cluster} (hf : ∀ c ∈ cs, SameLink c (f c)) :
    Linked (cs.map f) k where
  distinct := by
    have hm : (cs.map f).map (·.id) = cs.map (·.id) := by
      rw [List.map_map]
      exact List.map_congr_left fun c hc => (hf c hc).id
    rw [hm]
    exact h.distinct
  known := by
    simp only [List.forall_mem_map]
    intro c hc id hq
    exact h.known c hc id ((hf c hc).quake ▸ hq)
  exclusive := by
    simp only [List.forall_mem_map]
    intro c hc c' hc' id hq hq'
    rw [h.exclusive c hc c' hc' id ((hf c hc).quake ▸ hq) ((hf c' hc').quake ▸ hq')]
  owned id q hk := by
    obtain ⟨c, hc, hq, hcluster, hrev⟩ := h.owned id q hk
    exact ⟨f c, List.mem_map_of_mem hc, (hf c hc).quake.trans hq, hcluster.trans (hf c hc).id.symm,
      hrev.trans (hf c hc).revision.symm⟩

/-- A new cluster knows no quake. -/
theorem Linked.add (h : Linked cs k) (hq : c.quake = none) (hid : ∀ c' ∈ cs, c'.id ≠ c.id) :
    Linked (cs ++ [c]) k where
  distinct := by
    rw [List.map_append, List.nodup_append]
    refine ⟨h.distinct, List.nodup_singleton _, fun i hi j hj => ?_⟩
    obtain ⟨c', hc', rfl⟩ := List.mem_map.mp hi
    rw [List.map_singleton, List.mem_singleton] at hj
    exact hj ▸ hid c' hc'
  known := by
    simp only [List.mem_append, List.mem_singleton]
    rintro c' (hc' | rfl) id hid
    · exact h.known c' hc' id hid
    · rw [hq] at hid
      cases hid
  exclusive := by
    simp only [List.mem_append, List.mem_singleton]
    rintro a (ha | rfl) b (hb | rfl) id hia hib
    · exact h.exclusive a ha b hb id hia hib
    · rw [hq] at hib
      cases hib
    · rw [hq] at hia
      cases hia
    · rfl
  owned id q hk := by
    obtain ⟨o, ho, hoq⟩ := h.owned id q hk
    exact ⟨o, List.mem_append_left _ ho, hoq⟩

/-- A change of the catalog that brings no quake and keeps whose they are and their revisions. -/
theorem Linked.recatalog (h : Linked cs k) (hnext : k.next ≤ k'.next)
    (hget : ∀ id q', k'.registry.get? id = some q' →
      ∃ q, k.registry.get? id = some q ∧ q'.cluster = q.cluster ∧ q'.revision = q.revision) : Linked cs k' where
  distinct := h.distinct
  known c hc id hq := Nat.lt_of_lt_of_le (h.known c hc id hq) hnext
  exclusive := h.exclusive
  owned id q' hk := by
    obtain ⟨q, hq, hcluster, hrev⟩ := hget id q' hk
    obtain ⟨c, hc, hcq, hc1, hc2⟩ := h.owned id q hq
    exact ⟨c, hc, hcq, hcluster.trans hc1, hrev.trans hc2⟩

/-! ## One cluster and its quake -/

/-- The clusters with another one in the place of the one with its identity. -/
def replaceCluster (cs : List Cluster) (c' : Cluster) : List Cluster := cs.map fun d => if d.id == c'.id then c' else d

theorem map_id_replaceCluster (cs : List Cluster) (c : Cluster) :
    (replaceCluster cs c).map (·.id) = cs.map (·.id) := by
  simp only [replaceCluster, List.map_map]
  refine List.map_congr_left fun d _ => ?_
  by_cases hd : d.id = c.id <;> simp [hd]

theorem replaceCluster_replaceCluster (cs : List Cluster) (h : c.id = c'.id) :
    replaceCluster (replaceCluster cs c) c' = replaceCluster cs c' := by
  simp only [replaceCluster, List.map_map]
  refine List.map_congr_left fun d _ => ?_
  by_cases hd : d.id = c'.id <;> simp [h, hd]

theorem Linked.mem_replace (h : Linked cs k) (hc : c ∈ cs) (hid : c'.id = c.id) {d : Cluster} :
    d ∈ replaceCluster cs c' ↔ d = c' ∨ d ∈ cs ∧ d ≠ c := by
  simp only [replaceCluster, List.mem_map, hid, beq_iff_eq]
  constructor
  · rintro ⟨e, he, rfl⟩
    split
    · exact Or.inl rfl
    · rename_i hne
      exact Or.inr ⟨he, fun hec => hne (hec ▸ rfl)⟩
  · rintro (rfl | ⟨hd, hne⟩)
    · exact ⟨c, hc, if_pos rfl⟩
    · exact ⟨d, hd, if_neg fun he => hne (h.eq_of_id hd hc he)⟩

/-- Changes of one cluster and its quake together. -/
theorem Linked.replace (h : Linked cs k) (hc : c ∈ cs) (hid : c'.id = c.id) (hnext : k.next ≤ k'.next)
    (hknown : ∀ id, c'.quake = some id → id.number < k'.next)
    (hexclusive : ∀ id, c'.quake = some id → ∀ d ∈ cs, d ≠ c → d.quake ≠ some id)
    (howned : ∀ id q, k'.registry.get? id = some q →
      c'.quake = some id ∧ q.cluster = c'.id ∧ q.revision = c'.revision ∨
        c.quake ≠ some id ∧ k.registry.get? id = some q) : Linked (replaceCluster cs c') k' where
  distinct := by
    rw [map_id_replaceCluster]
    exact h.distinct
  known d hd id hq := by
    rcases (h.mem_replace hc hid).mp hd with rfl | ⟨hd, -⟩
    · exact hknown id hq
    · exact Nat.lt_of_lt_of_le (h.known d hd id hq) hnext
  exclusive a ha b hb id hqa hqb := by
    rcases (h.mem_replace hc hid).mp ha with ha' | ⟨ha', hac⟩
    · rcases (h.mem_replace hc hid).mp hb with hb' | ⟨hb', hbc⟩
      · rw [ha', hb']
      · exact absurd hqb (hexclusive id (ha' ▸ hqa) b hb' hbc)
    · rcases (h.mem_replace hc hid).mp hb with hb' | ⟨hb', hbc⟩
      · exact absurd hqa (hexclusive id (hb' ▸ hqb) a ha' hac)
      · exact h.exclusive a ha' b hb' id hqa hqb
  owned id q hk := by
    rcases howned id q hk with hown | ⟨hne, hk⟩
    · exact ⟨c', (h.mem_replace hc hid).mpr (Or.inl rfl), hown⟩
    · obtain ⟨d, hd, hdq, hd1, hd2⟩ := h.owned id q hk
      exact ⟨d, (h.mem_replace hc hid).mpr (Or.inr ⟨hd, fun he => hne (he ▸ hdq)⟩), hdq, hd1, hd2⟩

theorem Linked.replace_same (h : Linked cs k) (hc : c ∈ cs) (hs : SameLink c c') : Linked (replaceCluster cs c') k := by
  refine h.map fun d hd => ?_
  by_cases he : d.id = c'.id
  · cases h.eq_of_id hd hc (he.trans hs.id)
    simpa [he] using hs
  · simpa [he] using ⟨rfl, rfl, rfl⟩

/-- A pass keeps the links. -/
theorem Linked.pass (h : Linked cs k) (hc : c ∈ cs) {d : Detector} {now : Int64} {outcome : Outcome}
    (he : c.PassEffect d now k outcome c' k') : Linked (replaceCluster cs c') k' := by
  cases he with
  | skipped | rejected | archived | unsettled => exact h.replace_same hc ⟨rfl, rfl, rfl⟩
  | created hn s =>
    -- the identity is still to come, so that no other cluster knows it
    refine h.replace hc rfl (Nat.le_succ _) ?_ ?_ ?_
    · rintro id ⟨⟩
      exact Nat.lt_succ_self _
    · rintro id ⟨⟩ o ho - hq
      exact Nat.lt_irrefl _ (h.known o ho _ hq)
    · intro id q hq
      rw [Catalog.enrol, Registry.get?_insert] at hq
      split at hq
      · rename_i hid
        cases hq
        exact Or.inl ⟨congrArg some hid, rfl, rfl⟩
      · exact Or.inr ⟨by simp [hn], hq⟩
  | revised id hn s _ hk =>
    obtain ⟨old, hold, rfl⟩ := Option.map_eq_some_iff.mp hk
    refine h.replace hc rfl (Nat.le_refl _) (fun i hi => h.known c hc i hi)
      (fun i hi d hd hdc hdi => hdc (h.exclusive d hd c hc i hdi hi)) ?_
    intro i q hq
    by_cases hi : id = i
    · subst hi
      rw [Registry.get?_modify_self _ (Cluster.restate_id _ _ _ _ _), hold] at hq
      cases hq
      exact Or.inl ⟨hn, (h.synced hc hn hold).1, rfl⟩
    · rw [Registry.get?_modify_of_ne _ (Cluster.restate_id _ _ _ _ _) hi] at hq
      exact Or.inr ⟨by simpa [hn] using hi, hq⟩
  | withdrawn id hn s =>
    -- the quake may be gone already; either way nothing is left of it
    refine h.replace hc rfl ?_ (by simp) (by simp) ?_
    · exact Nat.le_of_eq (Catalog.next_withdraw k id c.id).symm
    · intro i q hq
      rw [Catalog.get?_withdraw] at hq
      split at hq
      · cases hq
      · rename_i hi
        exact Or.inr ⟨by simpa [hn] using hi, hq⟩

end Tremor
