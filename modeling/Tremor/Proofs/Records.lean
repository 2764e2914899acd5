import Mathlib.Logic.Relation
import Tremor.Proofs.Doubles
import Tremor.Proofs.Estimates
import Tremor.Proofs.Run
import Tremor.Proofs.TotalOrder

/-!
# The records of live quakes

A record changes in two ways: it is put under a new solution, or it gets magnitudes (`Quake.Change`). Every record that
is live after some operations has become what it is by such changes, from a record that was live before or from one that
was created meanwhile under a new number (`Catalog.Grown`). So what a change keeps is kept in every run.

- `RegionNames.ByValue` : names that do not tell the sign of zero
- `Quake.Consistent` : the magnitude of a record is the median of those of the stations, and its region that of its place
- `Quake.Change.consistent`, `Quake.Change.same` : a change keeps a record consistent, and keeps whose record it is
- `grown_pass`, `grown_apply`, `grown_run` : what becomes of records in a pass, an operation and a run
- `Coherent.get?_cycle` : a record after a cycle has been measured for the cluster of its quake, after all passes
- `run_keeps_records` : all live records after every run and after every cycle
-/

namespace Tremor

/-! ## Names of places -/

/-- Names go by the coordinates as numbers, so that zero has one name whatever its sign. -/
def RegionNames.ByValue (names : RegionNames) : Prop :=
  ∀ p q : Point, p.lat == q.lat → p.lon == q.lon → names p = names q

/-- Names that are made of the coordinates do not tell the sign of zero. -/
theorem RegionNames.coordinates_byValue : RegionNames.coordinates.ByValue := by
  intro p q hlat hlon
  simp only [coordinates, Number.abs_of_beq hlat, Number.abs_of_beq hlon, ge_iff_le, Number.le_iff_of_beq hlat,
    Number.le_iff_of_beq hlon]

/-! ## Changes of a record -/

namespace Quake

variable {names : RegionNames} {q q' : Quake}

/-- A record under its first solution. -/
def Born (names : RegionNames) (q : Quake) : Prop :=
  ∃ id cluster h now pct revision, q = { create id cluster h names now with pct, revision }

/-- What can become of a record at once. -/
inductive Change (names : RegionNames) (q : Quake) : Quake → Prop
  | restated (s : Solution) (revision : UInt32) (now : Int64) :
      Change names q (Cluster.restate names s revision now q)
  | measured (mags : List Double) : Change names q (q.withMagnitudes mags)

/-- Either the stations gave no magnitudes, or they ascend and the magnitude is the middle one, the lower one of two. The
region is that of the place. -/
structure Consistent (names : RegionNames) (q : Quake) : Prop where
  mags : (q.mags = [] ∧ q.mag = 0.0) ∨
    (q.mags.Pairwise (fun a b => Number.compareTotal a b ≠ .gt) ∧ q.mags[(q.mags.length - 1) / 2]? = some q.mag)
  region : names.ByValue → q.region = names q.place

/-- Two records of one quake. -/
structure Same (q q' : Quake) : Prop where
  id : q'.id = q.id
  cluster : q'.cluster = q.cluster
  created : q'.created = q.created

theorem Born.consistent (h : q.Born names) : q.Consistent names := by
  obtain ⟨id, cluster, hypocenter, now, pct, revision, rfl⟩ := h
  exact ⟨Or.inl ⟨rfl, rfl⟩, fun _ => rfl⟩

/-- Only a record that moves is named again; one that does not move has the same coordinates. -/
theorem Consistent.restate (h : q.Consistent names) (s : Solution) (revision : UInt32) (now : Int64) :
    (Cluster.restate names s revision now q).Consistent names where
  mags := h.mags
  region hv := by
    simp only [Cluster.restate, revise]
    split
    · rfl
    · rename_i hstill
      simp only [movesTo, bne, Bool.or_eq_true, Bool.not_eq_true', not_or, Bool.not_eq_false] at hstill
      exact (h.region hv).trans (hv _ _ hstill.1 hstill.2)

theorem Consistent.withMagnitudes (h : q.Consistent names) (mags : List Double) :
    (q.withMagnitudes mags).Consistent names := by
  unfold Quake.withMagnitudes
  split
  · exact h
  · rename_i mag hmag
    exact ⟨Or.inr ⟨Number.pairwise_sortTotal mags, hmag⟩, h.region⟩

theorem Change.consistent (hc : Change names q q') (h : q.Consistent names) : q'.Consistent names := by
  cases hc with
  | restated s revision now => exact h.restate s revision now
  | measured mags => exact h.withMagnitudes mags

theorem Change.same (hc : Change names q q') : q.Same q' := by
  cases hc with
  | restated => exact ⟨rfl, rfl, rfl⟩
  | measured mags =>
    unfold withMagnitudes
    split <;> exact ⟨rfl, rfl, rfl⟩

/-- What becomes of a record by any number of changes. -/
abbrev Became (names : RegionNames) : Quake → Quake → Prop := Relation.ReflTransGen (Change names)

theorem Became.consistent (hb : Became names q q') (h : q.Consistent names) : q'.Consistent names := by
  induction hb with
  | refl => exact h
  | tail _ hc ih => exact hc.consistent ih

theorem Became.same (hb : Became names q q') : q.Same q' := by
  induction hb with
  | refl => exact ⟨rfl, rfl, rfl⟩
  | tail _ hc ih =>
    have hs := hc.same
    exact ⟨hs.id.trans ih.id, hs.cluster.trans ih.cluster, hs.created.trans ih.created⟩

end Quake

/-! ## Changes of the catalog -/

namespace Catalog

variable {names : RegionNames} {k k' k'' : Catalog}

/-- Every live record has become what it is from one that was live before, or from a new one with a number that had not
been given. -/
structure Grown (names : RegionNames) (k k' : Catalog) : Prop where
  next_le : k.next ≤ k'.next
  source : ∀ q' ∈ k'.registry.quakes, ∃ q, Quake.Became names q q' ∧
    (q ∈ k.registry.quakes ∨ q.Born names ∧ k.next ≤ q.id.number)

theorem Grown.trans (h : k.Grown names k') (h' : k'.Grown names k'') : k.Grown names k'' where
  next_le := Nat.le_trans h.next_le h'.next_le
  source q'' hq'' := by
    obtain ⟨q', hb', hq' | ⟨hborn, hle⟩⟩ := h'.source q'' hq''
    · obtain ⟨q, hb, hq⟩ := h.source q' hq'
      exact ⟨q, hb.trans hb', hq⟩
    · exact ⟨q', hb', Or.inr ⟨hborn, Nat.le_trans h.next_le hle⟩⟩

/-- Records may go. -/
theorem grown_of_subset (hnext : k.next ≤ k'.next) (h : k'.registry.quakes ⊆ k.registry.quakes) : k.Grown names k' where
  next_le := hnext
  source q hq := ⟨q, .refl, Or.inl (h hq)⟩

theorem Grown.refl (names : RegionNames) (k : Catalog) : k.Grown names k :=
  grown_of_subset (Nat.le_refl _) (List.Subset.refl _)

/-- One record may change. -/
theorem grown_modify {id : QuakeId} {f : Quake → Quake} (hf : ∀ q, Quake.Change names q (f q))
    (hnext : k'.next = k.next) (h : k'.registry = k.registry.modify id f) : k.Grown names k' where
  next_le := Nat.le_of_eq hnext.symm
  source q' hq' := by
    rw [h] at hq'
    obtain ⟨q, hq, rfl⟩ := List.mem_map.mp hq'
    split
    · exact ⟨q, .single (hf q), Or.inl hq⟩
    · exact ⟨q, .refl, Or.inl hq⟩

theorem grown_enrol {build : QuakeId → Quake} (hb : (build ⟨k.next⟩).Born names) (hid : (build ⟨k.next⟩).id = ⟨k.next⟩) :
    k.Grown names (k.enrol build).2 where
  next_le := Nat.le_succ _
  source q hq := by
    have hmem : q = build ⟨k.next⟩ ∨ q ∈ k.registry.quakes := by
      simp only [enrol, Registry.insert] at hq
      split at hq
      · obtain ⟨p, hp, rfl⟩ := List.mem_map.mp hq
        split
        · exact Or.inl rfl
        · exact Or.inr hp
      · simpa [or_comm] using hq
    rcases hmem with rfl | hmem
    · exact ⟨_, .refl, Or.inr ⟨hb, Nat.le_of_eq (congrArg (·.number) hid).symm⟩⟩
    · exact ⟨q, .refl, Or.inl hmem⟩

theorem grown_withdraw (id : QuakeId) (cluster : ClusterId) : k.Grown names (k.withdraw id cluster) := by
  unfold withdraw
  split
  · exact grown_of_subset (Nat.le_refl _) (List.filter_subset_self _)
  · exact Grown.refl names k

theorem grown_retire {Sink : Type} (store : Sink → Quake → Sink) (now : Int64) (sink : Sink) :
    k.Grown names (k.retire store now sink).2.1 :=
  grown_of_subset (Nat.le_refl _) (List.filter_subset_self _)

/-- What becomes of the records in a pass. -/
theorem grown_pass (c : Cluster) (d : Detector) (now : Int64) (k : Catalog) :
    k.Grown d.regions (c.pass d now k).2.2 := by
  have he := c.pass_effect d now k
  generalize c.pass d now k = r at he
  obtain ⟨outcome, c', k'⟩ := r
  simp only at he ⊢
  cases he with
  | skipped | rejected | archived | unsettled => exact Grown.refl _ k
  | created hc s => exact grown_enrol ⟨_, _, _, _, _, _, rfl⟩ rfl
  | revised id hc s k' hk =>
    obtain ⟨q, -, rfl⟩ := Option.map_eq_some_iff.mp hk
    exact grown_modify (fun q => .restated s _ now) rfl rfl
  | withdrawn id hc s => exact grown_withdraw id c.id

end Catalog

/-! ## Estimates -/

theorem MagnitudeEstimator.estimate_withMagnitudes (e : MagnitudeEstimator) (q : Quake) (mags : List Double)
    (ds : List Detection) : e.estimate (q.withMagnitudes mags) ds = e.estimate q ds := by
  unfold Quake.withMagnitudes
  split <;> rfl

/-- An estimate does not look at the magnitudes that a record has. -/
theorem Quake.estimate_measured (e : MagnitudeEstimator) (c : Cluster) (q : Quake) (ds : List Detection) :
    e.estimate (q.measured e c) ds = e.estimate q ds := by
  unfold measured
  split
  · rfl
  · exact e.estimate_withMagnitudes q _ ds

/-- A record that is measured has the magnitudes of the estimate. -/
theorem Quake.mags_measured {e : MagnitudeEstimator} {c : Cluster} {q : Quake} {mags : List Double}
    (h : e.estimate q c.assigned = some mags) : (q.measured e c).mags = mags := by
  have hsorted : Number.sortTotal mags = mags ∧ mags ≠ [] := by
    unfold MagnitudeEstimator.estimate at h
    simp only at h
    split at h
    · cases h
    · rename_i hne
      cases h
      refine ⟨Number.sortTotal_sortTotal _, fun he => hne ?_⟩
      have hperm := List.mergeSort_perm ((c.assigned.filter (·.valid)).filterMap (e.stationMagnitude q))
        fun a b => decide (Number.orderKey a ≤ Number.orderKey b)
      rw [Number.sortTotal] at he
      rw [he] at hperm
      rw [hperm.symm.eq_nil]
      rfl
  have hpos := List.length_pos_of_ne_nil hsorted.2
  have hmedian : median (Number.sortTotal mags) = some mags[(mags.length - 1) / 2] := by
    rw [hsorted.1, median, List.getElem?_eq_getElem]
  rw [measured, h]
  simp only [withMagnitudes, hmedian]
  exact hsorted.1

/-- Only the clusters that know a quake measure it. -/
theorem foldl_measuredBy_eq_filter (e : MagnitudeEstimator) (id : QuakeId) (cs : List Cluster) (q : Quake) :
    cs.foldl (Quake.measuredBy e id) q =
      (cs.filter fun c => c.quake = some id).foldl (fun q c => q.measured e c) q := by
  rw [List.foldl_filter]
  simp only [decide_eq_true_eq]
  rfl

namespace Observatory

variable {o o' o'' : Observatory}

/-! ## What becomes of records in a run -/

/-- The records of the second observatory have come from those of the first one. -/
structure Grown (o o' : Observatory) : Prop where
  detector : o'.detector = o.detector
  estimator : o'.estimator = o.estimator
  catalog : o.catalog.Grown o.detector.regions o'.catalog

theorem Grown.refl (o : Observatory) : o.Grown o := ⟨rfl, rfl, Catalog.Grown.refl _ _⟩

theorem Grown.trans (h : o.Grown o') (h' : o'.Grown o'') : o.Grown o'' :=
  ⟨h'.detector.trans h.detector, h'.estimator.trans h.estimator, h.catalog.trans (h.detector ▸ h'.catalog)⟩

theorem grown_passCluster (o : Observatory) (now : Int64) (id : ClusterId) : o.Grown (o.passCluster now id).2 := by
  unfold passCluster
  split
  · exact Grown.refl o
  · exact ⟨rfl, rfl, Catalog.grown_pass _ o.detector now o.catalog⟩

theorem grown_passes (o : Observatory) (now : Int64) (ids : List ClusterId) :
    o.Grown (Observatory.passes now ids o).2 := by
  induction ids generalizing o with
  | nil => exact Grown.refl o
  | cons id ids ih => exact (o.grown_passCluster now id).trans (ih _)

theorem grown_updateMagnitudes (o : Observatory) (cs : List Cluster) : o.Grown (o.updateMagnitudes cs) := by
  induction cs generalizing o with
  | nil => exact Grown.refl o
  | cons c cs ih =>
    have hone : o.Grown (o.updateMagnitudes [c]) := by
      refine ⟨rfl, rfl, ?_⟩
      simp only [updateMagnitudes, List.foldl_cons, List.foldl_nil, updateMagnitude]
      split
      · exact Catalog.Grown.refl _ _
      · split
        · exact Catalog.Grown.refl _ _
        · rw [Registry.setMagnitude_eq_modify]
          exact Catalog.grown_modify (fun q => .measured _) rfl rfl
    exact hone.trans (ih _)

theorem grown_cycle (o : Observatory) (now : Int64) : o.Grown (o.cycle now).2 := by
  have h := (o.grown_passes now (o.clusters.map (·.id))).trans
    (grown_updateMagnitudes _ (Observatory.passes now (o.clusters.map (·.id)) o).2.clusters)
  exact ⟨h.detector, h.estimator, h.catalog⟩

/-- What becomes of the records in an operation. -/
theorem grown_apply (o : Observatory) (op : Operation) : o.Grown (o.apply op) := by
  cases op with
  | addCluster | edit | tick => exact ⟨rfl, rfl, Catalog.Grown.refl _ _⟩
  | pass now id => exact o.grown_passCluster now id
  | magnitudes ids => exact o.grown_updateMagnitudes _
  | cycle now => exact o.grown_cycle now
  | second now => exact ⟨rfl, rfl, Catalog.grown_retire Archive.push now o.archive⟩

/-- What becomes of the records in a run. -/
theorem grown_run (o : Observatory) (ops : List Operation) : o.Grown (o.run ops) := by
  induction ops generalizing o with
  | nil => exact Grown.refl o
  | cons op ops ih => exact (o.grown_apply op).trans (ih _)

/-- A quake that stays live stays the same quake: no new one gets its number. -/
theorem Grown.same (h : o.Grown o') (hc : o.Coherent) {id : QuakeId} {q q' : Quake}
    (hq : o.catalog.registry.get? id = some q) (hq' : o'.catalog.registry.get? id = some q') : q.Same q' := by
  obtain ⟨hmem', hid'⟩ := Registry.mem_of_get? hq'
  obtain ⟨p, hb, hp | ⟨-, hle⟩⟩ := h.catalog.source q' hmem'
  · have hget := hc.sound.distinct.get?_of_mem hp
    have hs := hb.same
    rw [← hs.id, hid', hq] at hget
    cases hget
    exact hs
  · have hlt := hc.sound.number_lt hq
    rw [← hb.same.id, hid'] at hle
    exact absurd hlt (Nat.not_lt.mpr hle)

/-- The record of the quake of a cluster after a cycle has been measured for the cluster as it is then. -/
theorem Coherent.get?_cycle (h : o.Coherent) (now : Int64) {c : Cluster} (hc : c ∈ (o.cycle now).2.clusters)
    {id : QuakeId} (hid : c.quake = some id) :
    (o.cycle now).2.catalog.registry.get? id =
      ((Observatory.passes now (o.clusters.map (·.id)) o).2.catalog.registry.get? id).map
        fun q => q.measured (o.cycle now).2.estimator c := by
  have hpassed := h.passes now (o.clusters.map (·.id))
  refine (get?_updateMagnitudes _ _ _ id).trans ?_
  refine congrArg (Option.map · _) (funext fun q => ?_)
  rw [foldl_measuredBy_eq_filter, hpassed.linked.filter_owner hc hid]
  rfl

/-- After every run, each live record has magnitudes and a region that fit together. While a quake is live, its identity,
its cluster and the time of its creation stay the same. After every cycle, the quake of each cluster has the magnitudes
that its record and the detections of the cluster give, if they give any, whatever came of the pass. -/
theorem run_keeps_records {config : Config} {parts : Collaborators} (h : create config parts = .ok o)
    (ops : List Operation) :
    (∀ q ∈ (o.run ops).catalog.registry.quakes, q.Consistent parts.regions) ∧
      (∀ later id q q', (o.run ops).catalog.registry.get? id = some q →
        (o.run (ops ++ later)).catalog.registry.get? id = some q' → q.Same q') ∧
      ∀ now, let s := ((o.run ops).cycle now).2
        ∀ c ∈ s.clusters, ∀ id q mags, c.quake = some id → s.catalog.registry.get? id = some q →
          s.estimator.estimate q c.assigned = some mags → q.mags = mags := by
  have hnew := coherent_create h
  have hcoherent := hnew.run ops
  have hregions : o.detector.regions = parts.regions ∧ o.catalog.registry.quakes = [] := by
    rw [(create_eq_ok_iff.mp h).2.2]
    exact ⟨rfl, rfl⟩
  refine ⟨fun q' hq' => ?_, fun later id q q' hq hq' => ?_, fun now => ?_⟩
  · obtain ⟨q, hb, hq | ⟨hborn, -⟩⟩ := (o.grown_run ops).catalog.source q' hq'
    · rw [hregions.2] at hq
      cases hq
    · rw [hregions.1] at hb hborn
      exact hb.consistent hborn.consistent
  · have hrun : o.run (ops ++ later) = (o.run ops).run later := List.foldl_append
    rw [hrun] at hq'
    exact ((o.run ops).grown_run later).same hcoherent hq hq'
  · intro s c hc id q mags hid hq hmags
    rw [hcoherent.get?_cycle now hc hid] at hq
    obtain ⟨p, -, rfl⟩ := Option.map_eq_some_iff.mp hq
    rw [Quake.estimate_measured] at hmags
    exact Quake.mags_measured hmags

/-- The quake that is still live is the one that was created, with five magnitudes, their median and the name of its
place. The quake of the cluster that was skipped has its five magnitudes, too. -/
theorem story_keeps_records : create {} OneSecond.parts = .ok (start {} OneSecond.parts) ∧
    ((start {} OneSecond.parts).run OneSecond.story).catalog.registry.quakes = [OneSecond.revision] ∧
    OneSecond.revision.mags = List.replicate 5 4.0 ∧ OneSecond.revision.mag = 4.0 ∧
    OneSecond.revision.Consistent RegionNames.coordinates ∧
    OneSecond.revision.region = RegionNames.coordinates OneSecond.revision.place ∧
    (OneSecond.measured (OneSecond.record ⟨1⟩ ⟨1⟩)).Same OneSecond.revision ∧
    let s := ((start {} OneSecond.parts).run OneSecond.middle).cycle 400000
    (⟨2⟩, .skipped .noNewPicks) ∈ s.1 ∧ ∃ q, s.2.catalog.registry.get? ⟨2⟩ = some q ∧ q.mags = List.replicate 5 4.0 := by
  have hend := congrArg (·.registry) OneSecond.run_story.2
  have hquakes : ((start {} OneSecond.parts).run OneSecond.story).catalog.registry.quakes = [OneSecond.revision] :=
    congrArg Registry.quakes hend
  have hlive : ((start {} OneSecond.parts).run OneSecond.story).catalog.registry.get? ⟨1⟩ = some OneSecond.revision :=
    congrArg (Registry.get? · ⟨1⟩) hend
  have hbefore : ((start {} OneSecond.parts).run OneSecond.middle).catalog.registry.get? ⟨1⟩ =
      some (OneSecond.measured (OneSecond.record ⟨1⟩ ⟨1⟩)) := by
    rw [OneSecond.run_middle]
    rfl
  obtain ⟨hconsistent, -, -⟩ := run_keeps_records OneSecond.create_parts OneSecond.story
  obtain ⟨-, hsame, hmags⟩ := run_keeps_records OneSecond.create_parts OneSecond.middle
  have hcycle := OneSecond.cycle_middle
  have hrevision := hconsistent OneSecond.revision (hquakes ▸ List.mem_singleton_self _)
  refine ⟨OneSecond.create_parts, hquakes, rfl, rfl, hrevision, hrevision.region RegionNames.coordinates_byValue,
    hsame _ _ _ _ hbefore hlive, ?_, OneSecond.measured (OneSecond.record ⟨2⟩ ⟨2⟩), ?_, ?_⟩
  · rw [hcycle]
    exact List.mem_cons_of_mem _ List.mem_cons_self
  · rw [hcycle]
    rfl
  · refine hmags 400000 (OneSecond.located ⟨2⟩ ⟨2⟩) ?_ ⟨2⟩ _ _ rfl ?_ ?_
    · rw [hcycle]
      exact List.mem_cons_of_mem _ List.mem_cons_self
    · rw [hcycle]
      rfl
    · rw [hcycle]
      exact OneSecond.estimate_parts _ (by decide)

end Observatory

end Tremor
