import Tremor.Proofs.Estimates
import Tremor.Proofs.Renaming
import Tremor.Proofs.Run

/-!
# Cycles in any order

The passes of a cycle may be made in any order, and so may the estimates that follow. Each pass does the deed that was
planned before the cycle, whatever other passes come before it, because no other cluster knows its quake; and deeds for
different clusters and quakes can be put in any order. Only the numbers of new quakes depend on it.

- `passes_plan` : passes do the deeds that were planned before the first of them
- `Renamed` : two observatories that differ in the names of quakes
- `Renamed.after` : deeds in two orders lead to such observatories
- `Renamed.updateMagnitudes` : and so do estimates in two orders
- `cycleIn` : a cycle in given orders
- `cycle_any_order` : a cycle does the same in every order, up to the names of new quakes
-/

namespace Tremor

namespace Observatory

variable {o o' : Observatory} {now : Int64}

/-! ## Passes as deeds -/

/-- The plan of the tick of a cluster and the pass over it. -/
def plan (o : Observatory) (now : Int64) (c : Cluster) : Plan :=
  (c.tick o.detector.locator.geodesy).1.plan o.detector now (c.own o.catalog)

/-- The second observatory is the first one after some deeds. -/
structure After (o : Observatory) (es : List Deed) (o' : Observatory) : Prop where
  clusters : o'.clusters = es.foldl (fun cs e => replaceCluster cs e.cluster) o.clusters
  tells : o.catalog.Tells (es.filterMap (·.notice)) o'.catalog
  rest : o' = { o with clusters := o'.clusters, catalog := o'.catalog }

theorem After.refl (o : Observatory) : o.After [] o := ⟨rfl, Catalog.Tells.refl _, rfl⟩

theorem After.trans {o'' : Observatory} {es fs : List Deed} (h : o.After es o') (h' : o'.After fs o'') :
    o.After (es ++ fs) o'' where
  clusters := by rw [List.foldl_append, ← h.clusters, h'.clusters]
  tells := by
    rw [List.filterMap_append]
    exact h.tells.trans h'.tells
  rest := by rw [h'.rest, h.rest]

theorem After.map_id {es : List Deed} (h : o.After es o') : o'.clusters.map (·.id) = o.clusters.map (·.id) := by
  rw [h.clusters]
  refine List.foldlRecOn (motive := fun cs : List Cluster => cs.map (·.id) = o.clusters.map (·.id)) es _ rfl
    fun cs hcs e _ => ?_
  rw [map_id_replaceCluster, hcs]

theorem Coherent.cluster?_of_mem (h : o.Coherent) {c : Cluster} (hc : c ∈ o.clusters) : o.cluster? c.id = some c := by
  obtain ⟨c', hc'⟩ : ∃ c', o.cluster? c.id = some c' :=
    Option.isSome_iff_exists.mp (List.find?_isSome.mpr ⟨c, hc, beq_self_eq_true c.id⟩)
  have hid : c'.id = c.id := by simpa using List.find?_some hc'
  rw [hc', h.linked.eq_of_id (List.mem_of_find?_eq_some hc') hc hid]

/-- The quake of a cluster, while it is live, names the cluster. -/
theorem Coherent.own_names (h : o.Coherent) {c : Cluster} (hc : c ∈ o.clusters) {q : Quake}
    (hq : c.own o.catalog = some q) : c.quake = some q.id ∧ q.cluster = c.id := by
  obtain ⟨id, hid, hget⟩ := Option.bind_eq_some_iff.mp hq
  rw [(Registry.mem_of_get? hget).2]
  exact ⟨hid, (h.linked.synced hc hid hget).1⟩

theorem Coherent.plan_about (h : o.Coherent) (now : Int64) {c : Cluster} (hc : c ∈ o.clusters) :
    (o.plan now c).About c := by
  have ht := SameLink.tick c o.detector.locator.geodesy
  refine (Cluster.plan_about _ o.detector now fun q hq => ?_).of_sameLink ht
  rw [ht.quake, ht.id]
  exact h.own_names hc hq

/-- The pass over a cluster does what is planned. -/
theorem Coherent.passCluster_plan (h : o.Coherent) (now : Int64) {c : Cluster} (hc : c ∈ o.clusters) :
    (o.passCluster now c.id).1 = some ((o.plan now c).deed ⟨o.catalog.next⟩).outcome ∧
      o.After [(o.plan now c).deed ⟨o.catalog.next⟩] (o.passCluster now c.id).2 := by
  have ht := SameLink.tick c o.detector.locator.geodesy
  have hown : (c.tick o.detector.locator.geodesy).1.own o.catalog = c.own o.catalog := by
    rw [Cluster.own, Cluster.own, ht.quake]
  have hdone := (c.tick o.detector.locator.geodesy).1.pass_plan o.detector now o.catalog
  have hid := (h.plan_about now hc).cluster ⟨o.catalog.next⟩
  rw [hown] at hdone
  change Deed.Done ((o.plan now c).deed _) _ _ at hdone
  unfold Observatory.passCluster
  rw [h.cluster?_of_mem hc]
  simp only
  generalize (c.tick o.detector.locator.geodesy).1.pass o.detector now o.catalog = r at hdone
  obtain ⟨outcome, c', k'⟩ := r
  obtain ⟨houtcome, hcluster, htells⟩ := hdone
  simp only at houtcome hcluster htells
  subst houtcome hcluster
  refine ⟨rfl, ?_, ?_, rfl⟩
  · simp only [Observatory.modifyCluster, List.foldl_cons, List.foldl_nil, replaceCluster, hid]
  · rw [filterMap_notice_singleton]
    exact htells

/-- A deed for one cluster leaves the plan for another one as it is. -/
theorem Coherent.plan_after (h : o.Coherent) {b c : Cluster} (hb : b ∈ o.clusters) (hc : c ∈ o.clusters)
    (hne : b.id ≠ c.id) (ha : o.After [(o.plan now c).deed ⟨o.catalog.next⟩] o') : o'.plan now b = o.plan now b := by
  have hown : b.own o'.catalog = b.own o.catalog := by
    refine Option.bind_congr fun id hid => ha.tells.get?_of_forall_ne fun n hn hs => ?_
    subst hs
    obtain ⟨e, he, hn⟩ := List.mem_filterMap.mp hn
    rw [List.mem_singleton.mp he] at hn
    rcases ((h.plan_about now hc).names ⟨o.catalog.next⟩).notice n hn with ⟨-, hnew⟩ | ⟨-, hold⟩
    · have hlt := h.linked.known b hb _ hid
      rw [hnew] at hlt
      exact Nat.lt_irrefl _ hlt
    · exact hne (congrArg (·.id) (h.linked.exclusive b hb c hc _ hid hold))
  rw [plan, plan, hown, ha.rest]

/-- Passes do the deeds that were planned before the first of them. -/
theorem Coherent.passes_plan (h : o.Coherent) (now : Int64) {cs : List Cluster} (hcs : ∀ c ∈ cs, c ∈ o.clusters)
    (hn : (cs.map (·.id)).Nodup) :
    (Observatory.passes now (cs.map (·.id)) o).1 =
        (Plan.deeds (cs.map (o.plan now)) o.catalog.next).map (fun e => (e.cluster.id, e.outcome)) ∧
      o.After (Plan.deeds (cs.map (o.plan now)) o.catalog.next) (Observatory.passes now (cs.map (·.id)) o).2 := by
  induction cs generalizing o with
  | nil => exact ⟨rfl, After.refl o⟩
  | cons c cs ih =>
    have hc := hcs c List.mem_cons_self
    have habout := h.plan_about now hc
    obtain ⟨houtcome, hafter⟩ := h.passCluster_plan now hc
    rw [List.map_cons, List.nodup_cons] at hn
    have hne : ∀ b ∈ cs, b.id ≠ c.id := fun b hb he => hn.1 (he ▸ List.mem_map_of_mem hb)
    have hplan : cs.map ((o.passCluster now c.id).2.plan now) = cs.map (o.plan now) :=
      List.map_congr_left fun b hb => h.plan_after (hcs b (List.mem_cons_of_mem _ hb)) hc (hne b hb) hafter
    have hnext : (o.passCluster now c.id).2.catalog.next =
        o.catalog.next + if (o.plan now c).creates then 1 else 0 := by
      rw [hafter.tells.next, ← habout.creations ⟨o.catalog.next⟩, filterMap_notice_singleton]
    have hmem : ∀ b ∈ cs, b ∈ (o.passCluster now c.id).2.clusters := by
      intro b hb
      rw [hafter.clusters]
      exact (h.linked.mem_replace hc (habout.cluster _)).mpr
        (Or.inr ⟨hcs b (List.mem_cons_of_mem _ hb), fun he => hne b hb (congrArg (·.id) he)⟩)
    have hrest := ih (h.passCluster now c.id) hmem hn.2
    rw [hplan, hnext] at hrest
    obtain ⟨houtcomes, hafters⟩ := hrest
    refine ⟨?_, hafter.trans hafters⟩
    simp only [List.map_cons, Plan.deeds, Observatory.passes, houtcome, houtcomes, Option.map_some, Option.toList_some,
      List.singleton_append, habout.cluster]

/-! ## Deeds in any order -/

/-- Two observatories that differ in the names of quakes. -/
structure Renamed (ρ : Equiv.Perm QuakeId) (o o' : Observatory) : Prop where
  clusters : o'.clusters = o.clusters.map (·.rename ρ)
  get? : ∀ id, o'.catalog.registry.get? (ρ id) = (o.catalog.registry.get? id).map (·.rename ρ)
  told : ∀ c, o'.catalog.bus.by c = (o.catalog.bus.by c).map (·.rename ρ)
  next : o'.catalog.next = o.catalog.next
  rest : o' = { o with clusters := o'.clusters, catalog := o'.catalog }

/-- Nothing changes under other names for quakes still to come. -/
theorem Coherent.renamed_self (h : o.Coherent) {ρ : Equiv.Perm QuakeId}
    (hρ : ∀ id, id.number < o.catalog.next → ρ id = id) : Renamed ρ o o where
  clusters := by
    have hc : ∀ c ∈ o.clusters, c.rename ρ = c := fun c hc =>
      Cluster.rename_eq_self fun id hid => hρ id (h.linked.known c hc id hid)
    rw [List.map_congr_left hc, List.map_id']
  get? id := by
    by_cases hid : id.number < o.catalog.next
    · rw [hρ id hid]
      cases hq : o.catalog.registry.get? id with
      | none => rfl
      | some q =>
        have hqid : ρ q.id = q.id := by rw [(Registry.mem_of_get? hq).2, hρ id hid]
        rw [Option.map_some, Quake.rename_eq_self hqid]
    · -- neither of the two numbers was given to a quake yet
      have hid' : ¬ (ρ id).number < o.catalog.next := fun hlt => hid (by rwa [ρ.injective (hρ _ hlt)] at hlt)
      have hnone : ∀ i : QuakeId, ¬ i.number < o.catalog.next → o.catalog.registry.get? i = none := fun i hi =>
        Option.eq_none_iff_forall_ne_some.mpr fun q hq => hi (h.sound.number_lt hq)
      rw [hnone _ hid, hnone _ hid', Option.map_none]
  told c := by
    have hn : ∀ n ∈ o.catalog.bus.by c, n.rename ρ = n := by
      intro n hn
      refine Notice.rename_eq_self (hρ _ (Nat.lt_of_not_le fun hle => ?_))
      have habout : n ∈ o.catalog.bus.about n.subject :=
        List.mem_filter.mpr ⟨(List.mem_filter.mp hn).1, beq_self_eq_true _⟩
      rw [h.sound.fresh _ hle] at habout
      cases habout
    rw [List.map_congr_left hn, List.map_id']
  next := rfl
  rest := rfl

/-- Folding steps that commute unless they have one key does not depend on the order. -/
theorem foldl_perm_of_keys {α β κ : Type} {f : β → α → β} (key : α → κ) {xs ys : List α} (hp : xs.Perm ys)
    (hn : (xs.map key).Nodup) (hf : ∀ x y z, key x ≠ key y → f (f z x) y = f (f z y) x) (z : β) :
    xs.foldl f z = ys.foldl f z := by
  refine hp.foldl_eq' (fun x hx y hy z => ?_) z
  by_cases hxy : key x = key y
  · rw [List.inj_on_of_nodup_map hn hx hy hxy]
  · exact hf x y z hxy

theorem replaceCluster_comm (cs : List Cluster) {c c' : Cluster} (h : c.id ≠ c'.id) :
    replaceCluster (replaceCluster cs c) c' = replaceCluster (replaceCluster cs c') c := by
  simp only [replaceCluster, List.map_map]
  refine List.map_congr_left fun d _ => ?_
  by_cases hd : d.id = c.id
  · simp [hd, h]
  · by_cases hd' : d.id = c'.id <;> simp [hd, hd', h.symm]

theorem replaceCluster_rename (ρ : QuakeId → QuakeId) (cs : List Cluster) (c : Cluster) :
    replaceCluster (cs.map (·.rename ρ)) (c.rename ρ) = (replaceCluster cs c).map (·.rename ρ) := by
  simp only [replaceCluster, List.map_map]
  refine List.map_congr_left fun d _ => ?_
  by_cases hd : d.id = c.id <;> simp [hd, Cluster.rename]

theorem recordOf_comm (id : QuakeId) (old : Option Quake) {m n : Notice} (h : m.subject ≠ n.subject) :
    Notice.recordOf id (Notice.recordOf id old m) n = Notice.recordOf id (Notice.recordOf id old n) m := by
  simp only [Notice.recordOf]
  by_cases hm : m.subject = id
  · have hn : n.subject ≠ id := fun hn => h (hm.trans hn.symm)
    simp [hm, hn]
  · simp [hm]

theorem recordOf_rename (ρ : Equiv.Perm QuakeId) (id : QuakeId) (old : Option Quake) (n : Notice) :
    Notice.recordOf (ρ id) (old.map (·.rename ρ)) (n.rename ρ) = (Notice.recordOf id old n).map (·.rename ρ) := by
  simp only [Notice.recordOf, Notice.subject_rename, Notice.record_rename, ρ.injective.eq_iff]
  split <;> rfl

/-- Deeds for different clusters that tell about different quakes. -/
structure Separate (es : List Deed) : Prop where
  clusters : (es.map (·.cluster.id)).Nodup
  notices : ∀ e ∈ es, ∀ n ∈ e.notice, n.cluster = e.cluster.id
  quakes : es.Pairwise fun a b => ∀ x ∈ a.notice, ∀ y ∈ b.notice, x.subject ≠ y.subject

namespace Separate

variable {es : List Deed}

theorem nodup_subjects (hs : Separate es) : ((es.filterMap (·.notice)).map (·.subject)).Nodup :=
  List.pairwise_map.mpr (List.pairwise_filterMap.mpr (hs.quakes.imp fun hab x hx y hy => hab x hx y hy))

theorem nodup_clusters (hs : Separate es) : ((es.filterMap (·.notice)).map (·.cluster)).Nodup := by
  refine List.pairwise_map.mpr (List.pairwise_filterMap.mpr ?_)
  refine (List.pairwise_map.mp hs.clusters).imp_of_mem fun {a b} ha hb hab x hx y hy => ?_
  rwa [hs.notices a ha x hx, hs.notices b hb y hy]

end Separate

/-- What deeds tell in another order and under other names. -/
theorem perm_notices {ρ : QuakeId → QuakeId} {es es' : List Deed} (hp : es'.Perm (es.map (·.rename ρ))) :
    (es'.filterMap (·.notice)).Perm ((es.filterMap (·.notice)).map (·.rename ρ)) := by
  have hn := hp.filterMap (·.notice)
  rw [List.filterMap_map] at hn
  rw [List.map_filterMap]
  exact hn

/-- The notices about one cluster, of which there is one at most, do not depend on the order. -/
theorem filter_cluster_eq {ns ns' : List Notice} (hp : ns'.Perm ns) (hn : (ns.map (·.cluster)).Nodup) (c : ClusterId) :
    ns'.filter (·.cluster == c) = ns.filter (·.cluster == c) := by
  have hne : ns.Pairwise fun x y => x.cluster ≠ y.cluster := List.pairwise_map.mp hn
  have hne' : ns'.Pairwise fun x y => x.cluster ≠ y.cluster := List.pairwise_map.mp ((hp.map _).nodup_iff.mpr hn)
  refine List.Perm.eq_of_pairwise (fun x y hx hy hxy _ => ?_) (hne'.filter _) (hne.filter _) (hp.filter _)
  have hxc : x.cluster = c := by simpa using (List.mem_filter.mp hx).2
  have hyc : y.cluster = c := by simpa using (List.mem_filter.mp hy).2
  exact absurd (hxc.trans hyc.symm) hxy

/-- Deeds in another order and under other names lead from two observatories that differ in the names of quakes to two
that do, too. -/
theorem Renamed.after {o₁ o₂ : Observatory} {ρ : Equiv.Perm QuakeId} {es es' : List Deed} (h : Renamed ρ o o')
    (h₁ : o.After es o₁) (h₂ : o'.After es' o₂) (hs : Separate es) (hp : es'.Perm (es.map (·.rename ρ))) :
    Renamed ρ o₁ o₂ where
  clusters := by
    have hn : ((es.map (·.rename ρ)).map fun e : Deed => e.cluster.id).Nodup := by
      rw [List.map_map]
      exact hs.clusters
    rw [h₂.clusters, h₁.clusters, h.clusters, ← foldl_perm_of_keys (fun e : Deed => e.cluster.id) hp.symm hn
      fun a b cs hab => replaceCluster_comm cs hab, List.foldl_map]
    exact List.foldl_hom (List.map (Cluster.rename ρ)) fun cs (e : Deed) => replaceCluster_rename ρ cs e.cluster
  get? id := by
    have hn : (((es.filterMap (·.notice)).map (·.rename ρ)).map (·.subject)).Nodup := by
      have hsubject : ∀ n : Notice, (n.rename ρ).subject = ρ n.subject := Notice.subject_rename ρ
      have hm := hs.nodup_subjects.map ρ.injective
      simpa only [List.map_map, Function.comp_def, hsubject] using hm
    rw [h₂.tells.get?, h₁.tells.get?, h.get?, ← foldl_perm_of_keys (·.subject) (perm_notices hp).symm hn
      fun m n old hmn => recordOf_comm _ old hmn, List.foldl_map]
    exact List.foldl_hom (Option.map (Quake.rename ρ)) fun old n => recordOf_rename ρ id old n
  told c := by
    have hn : (((es.filterMap (·.notice)).map (·.rename ρ)).map (·.cluster)).Nodup := by
      simpa only [List.map_map, Function.comp_def, Notice.cluster_rename] using hs.nodup_clusters
    rw [h₂.tells.by, h₁.tells.by, h.told, filter_cluster_eq (perm_notices hp) hn, List.map_append, List.filter_map]
    simp only [Function.comp_def, Notice.cluster_rename]
  next := by
    rw [h₂.tells.next, h₁.tells.next, h.next, (perm_notices hp).countP_eq, List.countP_map]
    simp only [Function.comp_def, Notice.isCreation_rename]
  rest := by rw [h₂.rest, h.rest, h₁.rest]

/-! ## Estimates in any order -/

theorem measured_rename (e : MagnitudeEstimator) (ρ : QuakeId → QuakeId) (c : Cluster) (q : Quake) :
    (q.rename ρ).measured e (c.rename ρ) = (q.measured e c).rename ρ := by
  have he : e.estimate (q.rename ρ) (c.rename ρ).assigned = e.estimate q c.assigned := rfl
  unfold Quake.measured
  rw [he]
  split
  · rfl
  · unfold Quake.withMagnitudes
    split <;> rfl

theorem measuredBy_rename (e : MagnitudeEstimator) (ρ : Equiv.Perm QuakeId) (id : QuakeId) (q : Quake) (c : Cluster) :
    (q.rename ρ).measuredBy e (ρ id) (c.rename ρ) = (q.measuredBy e id c).rename ρ := by
  have hc : (c.rename ρ).quake = some (ρ id) ↔ c.quake = some id := by
    simp [Cluster.rename, ρ.injective.eq_iff]
  unfold Quake.measuredBy
  by_cases hq : c.quake = some id
  · rw [if_pos (hc.mpr hq), if_pos hq, measured_rename]
  · rw [if_neg (fun h => hq (hc.mp h)), if_neg hq]

/-- Estimates in another order keep two observatories the same but for the names of quakes. -/
theorem Renamed.updateMagnitudes {ρ : Equiv.Perm QuakeId} (h : Renamed ρ o o') {cs cs' : List Cluster}
    (hp : cs'.Perm (cs.map (·.rename ρ)))
    (hne : ∀ a ∈ cs, ∀ b ∈ cs, ∀ id, a.quake = some id → b.quake = some id → a = b) :
    Renamed ρ (o.updateMagnitudes cs) (o'.updateMagnitudes cs') where
  clusters := h.clusters
  get? id := by
    have he : o'.estimator = o.estimator := by rw [h.rest]
    have hfold : ∀ q : Quake, cs'.foldl (Quake.measuredBy o.estimator (ρ id)) (q.rename ρ) =
        (cs.foldl (Quake.measuredBy o.estimator id) q).rename ρ := by
      intro q
      have hne' : ∀ a ∈ cs.map (·.rename ρ), ∀ b ∈ cs.map (·.rename ρ),
          a.quake = some (ρ id) → b.quake = some (ρ id) → a = b := by
        simp only [List.forall_mem_map, Cluster.rename, Option.map_eq_some_iff, ρ.injective.eq_iff, exists_eq_right]
        intro a ha b hb hqa hqb
        rw [hne a ha b hb id hqa hqb]
      rw [← foldl_measuredBy_perm o.estimator hp.symm (ρ id) hne', List.foldl_map]
      exact List.foldl_hom (Quake.rename ρ) fun q c => measuredBy_rename o.estimator ρ id q c
    simp only [Observatory.updateMagnitudes, get?_updateMagnitudes, he, h.get?, Option.map_map, Function.comp_def,
      hfold]
  told := h.told
  next := h.next
  rest := by
    have hr := h.rest
    rw [Observatory.updateMagnitudes, Observatory.updateMagnitudes, hr]

/-! ## Cycles -/

theorem Coherent.filterMap_cluster? (h : o.Coherent) : (o.clusters.map (·.id)).filterMap o.cluster? = o.clusters := by
  rw [List.filterMap_map]
  exact (List.filterMap_congr fun c hc => h.cluster?_of_mem hc).trans List.filterMap_some

theorem Coherent.perm_cluster? (h : o.Coherent) {ids : List ClusterId} (hp : ids.Perm (o.clusters.map (·.id))) :
    (ids.filterMap o.cluster?).Perm o.clusters :=
  (hp.filterMap o.cluster?).trans (List.Perm.of_eq h.filterMap_cluster?)

/-- Orders of identities are orders of clusters. -/
theorem Coherent.exists_order (h : o.Coherent) {ids : List ClusterId} (hp : ids.Perm (o.clusters.map (·.id))) :
    ∃ cs : List Cluster, cs.Perm o.clusters ∧ cs.map (·.id) = ids := by
  refine ⟨ids.filterMap o.cluster?, h.perm_cluster? hp, ?_⟩
  have hid : ∀ id ∈ ids, (o.cluster? id).map (·.id) = some id := by
    intro id hid
    obtain ⟨c, hc, rfl⟩ := List.mem_map.mp (hp.mem_iff.mp hid)
    rw [h.cluster?_of_mem hc, Option.map_some]
  rw [List.map_filterMap, List.filterMap_congr hid, List.filterMap_some]

/-- Passes over all clusters do what was planned before the first of them. -/
theorem Coherent.passes_order (h : o.Coherent) (now : Int64) {cs : List Cluster} (hcs : cs.Perm o.clusters) :
    (Observatory.passes now (cs.map (·.id)) o).1 =
        (Plan.deeds (cs.map (o.plan now)) o.catalog.next).map (fun e => (e.cluster.id, e.outcome)) ∧
      o.After (Plan.deeds (cs.map (o.plan now)) o.catalog.next) (Observatory.passes now (cs.map (·.id)) o).2 :=
  h.passes_plan now (fun _ hc => hcs.mem_iff.mp hc) ((hcs.map _).nodup_iff.mpr h.linked.distinct)

/-- One cycle with the passes in a given order, and after them the estimates in another. -/
def cycleIn (o : Observatory) (now : Int64) (order estimates : List ClusterId) :
    List (ClusterId × Outcome) × Observatory :=
  let (outcomes, o) := passes now order o
  (outcomes, { o.updateMagnitudes (estimates.filterMap o.cluster?) with cycles := o.cycles + 1 })

/-- The deeds of a cycle are for different clusters and tell about different quakes. -/
theorem Coherent.separate_deeds (h : o.Coherent) (now : Int64) {cs : List Cluster} (hp : cs.Perm o.clusters) :
    Separate (Plan.deeds (cs.map (o.plan now)) o.catalog.next) := by
  have hmem : ∀ c ∈ cs, c ∈ o.clusters := fun c hc => hp.mem_iff.mp hc
  have habout : ∀ c ∈ cs, (o.plan now c).About c := fun c hc => h.plan_about now (hmem c hc)
  have hid : (cs.map (·.id)).Nodup := (hp.map _).nodup_iff.mpr h.linked.distinct
  have hne : cs.Pairwise fun a b => a.id ≠ b.id := List.pairwise_map.mp hid
  refine ⟨?_, fun e he n hn => ?_, deeds_separate habout (fun c hc => h.linked.known c (hmem c hc)) (Nat.le_refl _) ?_⟩
  · rwa [deeds_clusters habout]
  · obtain ⟨_, hq, m, -, rfl⟩ := mem_deeds he
    obtain ⟨c, hc, rfl⟩ := List.mem_map.mp hq
    rw [(habout c hc).notice _ n hn, (habout c hc).cluster]
  · refine hne.imp_of_mem fun {a b} ha hb hab id hqa hqb => hab ?_
    rw [h.linked.exclusive a (hmem a ha) b (hmem b hb) id hqa hqb]

/-- The cycle is the one in the order of the clusters. -/
theorem Coherent.cycle_eq_cycleIn (h : o.Coherent) (now : Int64) :
    o.cycle now = o.cycleIn now (o.clusters.map (·.id)) (o.clusters.map (·.id)) := by
  have ha := (h.passes_order now (List.Perm.refl _)).2
  have hcs := (h.passes now (o.clusters.map (·.id))).filterMap_cluster?
  rw [ha.map_id] at hcs
  simp only [Observatory.cycle, cycleIn, hcs]

/-- Two cycles of one observatory in different orders. -/
theorem Coherent.cycleIn_perm (h : o.Coherent) (now : Int64) {order order' estimates estimates' : List ClusterId}
    (hp : order.Perm (o.clusters.map (·.id))) (hp' : order'.Perm (o.clusters.map (·.id)))
    (he : estimates.Perm (o.clusters.map (·.id))) (he' : estimates'.Perm (o.clusters.map (·.id))) :
    ∃ ρ : Equiv.Perm QuakeId,
      (∀ id, id.number < o.catalog.next ∨ (o.cycleIn now order estimates).2.catalog.next ≤ id.number → ρ id = id) ∧
        (o.cycleIn now order' estimates').1.Perm
          ((o.cycleIn now order estimates).1.map fun x => (x.1, x.2.rename ρ)) ∧
        Renamed ρ (o.cycleIn now order estimates).2 (o.cycleIn now order' estimates').2 := by
  -- the clusters in the two orders
  obtain ⟨cs, hcs, rfl⟩ := h.exists_order hp
  obtain ⟨cs', hcs', rfl⟩ := h.exists_order hp'
  have habout : ∀ c ∈ cs, (o.plan now c).About c := fun c hc => h.plan_about now (hcs.mem_iff.mp hc)
  have hknown : ∀ p ∈ cs.map (o.plan now), p.Known o.catalog.next := by
    rw [List.forall_mem_map]
    intro c hc
    exact (habout c hc).known (h.linked.known c (hcs.mem_iff.mp hc))
  -- the passes do what was planned, and the plans in the two orders are the same but for the new names
  obtain ⟨houtcomes, hafter⟩ := h.passes_order now hcs
  obtain ⟨houtcomes', hafter'⟩ := h.passes_order now hcs'
  obtain ⟨ρ, hρ, hdeeds⟩ := deeds_perm ((hcs.trans hcs'.symm).map (o.plan now)) hknown
  have hself := h.renamed_self fun id hlt => hρ id (Or.inl hlt)
  have hpasses := hself.after hafter hafter' (h.separate_deeds now hcs) hdeeds
  -- the estimates are for the clusters that the passes leave
  have hcoherent := h.passes now (cs.map (·.id))
  have hes := hcoherent.perm_cluster? (hafter.map_id ▸ he)
  have hes' := (h.passes now (cs'.map (·.id))).perm_cluster? (hafter'.map_id ▸ he')
  have hestimates := hpasses.updateMagnitudes
    (hes'.trans ((List.Perm.of_eq hpasses.clusters).trans (hes.map (·.rename ρ)).symm))
    fun a ha b hb id => hcoherent.linked.exclusive a (hes.mem_iff.mp ha) b (hes.mem_iff.mp hb) id
  refine ⟨ρ, fun id hlt => hρ id ?_, ?_, hestimates.clusters, hestimates.get?, hestimates.told, hestimates.next, ?_⟩
  · have hnext : (o.cycleIn now (cs.map (·.id)) estimates).2.catalog.next = _ := hafter.tells.next
    rwa [hnext, deeds_creations habout] at hlt
  · have hm := hdeeds.map fun e : Deed => (e.cluster.id, e.outcome)
    simp only [cycleIn, houtcomes, houtcomes', List.map_map] at hm ⊢
    exact hm
  · have hr := hpasses.rest
    simp only [cycleIn, Observatory.updateMagnitudes]
    rw [hr]

/-- There is an outcome for each cluster, in the order of the passes. -/
theorem Coherent.map_fst_cycleIn (h : o.Coherent) (now : Int64) {order : List ClusterId} (estimates : List ClusterId)
    (hp : order.Perm (o.clusters.map (·.id))) : (o.cycleIn now order estimates).1.map (·.1) = order := by
  obtain ⟨cs, hcs, rfl⟩ := h.exists_order hp
  have houtcomes := (h.passes_order now hcs).1
  simp only [cycleIn, houtcomes, List.map_map]
  exact deeds_clusters fun c hc => h.plan_about now (hcs.mem_iff.mp hc)

/-- The order of the passes of a cycle and that of its estimates do not matter. After every run, a cycle in any order
gives an outcome for each cluster, and two orders lead to the same outcomes, clusters and live quakes, and tell the same
about each cluster, but for the names of the quakes that are new. The cycle is the one in the order of the clusters. -/
theorem cycle_any_order {config : Config} {parts : Collaborators} (h : create config parts = .ok o)
    (ops : List Operation) (now : Int64) {order order' estimates estimates' : List ClusterId}
    (hp : order.Perm ((o.run ops).clusters.map (·.id))) (hp' : order'.Perm ((o.run ops).clusters.map (·.id)))
    (he : estimates.Perm ((o.run ops).clusters.map (·.id))) (he' : estimates'.Perm ((o.run ops).clusters.map (·.id))) :
    let s := o.run ops
    let r := s.cycleIn now order estimates
    let r' := s.cycleIn now order' estimates'
    s.cycle now = s.cycleIn now (s.clusters.map (·.id)) (s.clusters.map (·.id)) ∧
      r.1.map (·.1) = order ∧
        ∃ ρ : Equiv.Perm QuakeId,
          (∀ id, id.number < s.catalog.next ∨ r.2.catalog.next ≤ id.number → ρ id = id) ∧
            r'.1.Perm (r.1.map fun x => (x.1, x.2.rename ρ)) ∧ Renamed ρ r.2 r'.2 := by
  have hc := (coherent_create h).run ops
  exact ⟨hc.cycle_eq_cycleIn now, hc.map_fst_cycleIn now estimates hp, hc.cycleIn_perm now hp hp' he he'⟩

/-- Two clusters that are both located, in both orders: the cluster that comes first gets the lower number, and both
quakes get magnitudes. -/
theorem opening_cycle_any_order : create {} OneSecond.parts = .ok (start {} OneSecond.parts) ∧
    let s := (start {} OneSecond.parts).run OneSecond.opening
    let r := s.cycleIn 7000 [⟨1⟩, ⟨2⟩] [⟨1⟩, ⟨2⟩]
    let r' := s.cycleIn 7000 [⟨2⟩, ⟨1⟩] [⟨2⟩, ⟨1⟩]
    r.1 = [(⟨1⟩, .committed ⟨1⟩ 80.0 true), (⟨2⟩, .committed ⟨2⟩ 80.0 true)] ∧
      r'.1 = [(⟨2⟩, .committed ⟨1⟩ 80.0 true), (⟨1⟩, .committed ⟨2⟩ 80.0 true)] ∧
      r.2.catalog.registry.quakes.map (·.mags) = [List.replicate 5 4.0, List.replicate 5 4.0] ∧
      ∃ ρ : Equiv.Perm QuakeId,
        (∀ id, id.number < s.catalog.next ∨ r.2.catalog.next ≤ id.number → ρ id = id) ∧
          r'.1.Perm (r.1.map fun x => (x.1, x.2.rename ρ)) ∧ Renamed ρ r.2 r'.2 := by
  refine ⟨OneSecond.create_parts, ?_⟩
  intro s r r'
  have hs : s = _ := OneSecond.run_opening
  have hids : s.clusters.map (·.id) = [⟨1⟩, ⟨2⟩] := by
    rw [hs]
    rfl
  have hsame : List.Perm [⟨1⟩, ⟨2⟩] (s.clusters.map (·.id)) := List.Perm.of_eq hids.symm
  have hswap : List.Perm [⟨2⟩, ⟨1⟩] (s.clusters.map (·.id)) := hids ▸ List.Perm.swap _ _ _
  obtain ⟨hcycle, -, hrenamed⟩ := cycle_any_order OneSecond.create_parts OneSecond.opening 7000 hsame hswap hsame hswap
  have hr : r = _ := (hids ▸ hcycle).symm.trans OneSecond.cycle_opening
  have hpasses := OneSecond.passes_reversed (n := 0) (OneSecond.pass_gathered ⟨2⟩ { bus := Bus.create busCapacity })
    (OneSecond.pass_gathered ⟨1⟩ _) (by decide) rfl
  have hr' : r'.1 = [(⟨2⟩, .committed ⟨1⟩ 80.0 true), (⟨1⟩, .committed ⟨2⟩ 80.0 true)] :=
    congrArg Prod.fst ((congrArg (Observatory.passes 7000 [⟨2⟩, ⟨1⟩]) hs).trans hpasses)
  refine ⟨congrArg Prod.fst hr, hr', ?_, hrenamed⟩
  rw [hr]
  rfl

end Observatory

end Tremor
