import Tremor.Observatory
import Tremor.Proofs.Linkage
import Tremor.Proofs.PassChecks

/-!
# Runs of an observatory

A run is any sequence of operations on an observatory: clusters are added and changed, ticked, searched in cycles, and
the expired quakes are archived. A cycle makes its passes in the order of the clusters; `Operation.pass` and
`Operation.magnitudes` are the parts of a cycle, from which one with any other order of passes can be put together.

- `Coherent` : what was told about quakes, the registry and the clusters agree
- `Coherent.passCluster`, `Coherent.apply`, `Coherent.run` : every operation keeps it, and so does every run
- `OneSecond.run_story` : a run in a world with one candidate, which locates, revises and archives quakes
- `run_tells_lives` : after every run, the notices about a quake tell one life, and live quakes are those not ended
- `run_links_quakes` : after every run, each live quake belongs to one cluster, which knows its revision
-/

namespace Tremor

/-! ## Operations -/

/-- A change of a cluster from outside. -/
inductive Cluster.Edit where
  | assign (d : Detection)
  | unassign (s : StationId)
  | tick
  | findRoot
  | anchorAt (p : Point)
  | resetAnchor

def Cluster.edit (g : Geodesy) (c : Cluster) : Cluster.Edit → Cluster
  | .assign d => c.assign d
  | .unassign s => c.unassign s
  | .tick => (c.tick g).1
  | .findRoot => c.findRoot
  | .anchorAt p => c.anchorAt p
  | .resetAnchor => c.resetAnchor

theorem SameLink.edit (g : Geodesy) (c : Cluster) (e : Cluster.Edit) : SameLink c (c.edit g e) := by
  cases e with
  | assign | unassign | anchorAt | resetAnchor => exact ⟨rfl, rfl, rfl⟩
  | tick => exact SameLink.tick c g
  | findRoot => exact SameLink.findRoot c

namespace Observatory

/-- What can be done with an observatory. -/
inductive Operation where
  | addCluster
  | edit (cluster : ClusterId) (e : Cluster.Edit)
  | tick
  /-- The tick of one cluster and the pass over it. -/
  | pass (now : Int64) (cluster : ClusterId)
  /-- The magnitudes of the quakes of clusters in a given order. -/
  | magnitudes (clusters : List ClusterId)
  | cycle (now : Int64)
  | second (now : Int64)

def apply (o : Observatory) : Operation → Observatory
  | .addCluster => o.addCluster.2
  | .edit id e => o.modifyCluster id fun c => c.edit o.detector.locator.geodesy e
  | .tick => o.tick.2
  | .pass now id => (o.passCluster now id).2
  | .magnitudes ids => o.updateMagnitudes (ids.filterMap o.cluster?)
  | .cycle now => (o.cycle now).2
  | .second now => (o.second now).2

def run (o : Observatory) (ops : List Operation) : Observatory := ops.foldl apply o

/-! ## Coherence -/

/-- What was told about quakes agrees with the registry, the registry with the clusters, and the number of the next new
cluster has not been used. -/
structure Coherent (o : Observatory) : Prop where
  sound : o.catalog.Sound
  linked : Linked o.clusters o.catalog
  numbered : ∀ c ∈ o.clusters, c.id.number < o.nextCluster

variable {o : Observatory}

/-- There is an observatory for a valid configuration whose threads can be started. -/
theorem create_eq_ok_iff {config : Config} {parts : Collaborators} : create config parts = .ok o ↔
    config.validate = .ok () ∧ parts.workers config.analysis.workerThreads = true ∧ o = start config parts := by
  unfold create
  cases config.validate with
  | error fault => exact iff_of_false nofun nofun
  | ok =>
    by_cases hw : parts.workers config.analysis.workerThreads = true
    · simp only [hw, if_true, true_and, Except.ok.injEq]
      exact eq_comm
    · exact iff_of_false (by simp [hw]) fun h => hw h.2.1

/-- A new observatory is coherent. -/
theorem coherent_create {config : Config} {parts : Collaborators} (h : create config parts = .ok o) : o.Coherent := by
  rw [(create_eq_ok_iff.mp h).2.2]
  have habout : ∀ id, (start config parts).catalog.bus.about id = [] := Bus.about_create busCapacity
  refine ⟨⟨List.nodup_nil, fun id _ => habout id, fun id hpos hlt => ?_, fun id => ?_⟩,
    ⟨List.nodup_nil, ?_, ?_, ?_⟩, ?_⟩
  · exact absurd hlt (Nat.not_lt.mpr hpos)
  · rw [habout]
    exact .nothing
  · rintro c ⟨⟩
  · rintro c ⟨⟩
  · rintro id q ⟨⟩
  · rintro c ⟨⟩

theorem Coherent.map (h : o.Coherent) {f : Cluster → Cluster} (hf : ∀ c ∈ o.clusters, SameLink c (f c)) :
    { o with clusters := o.clusters.map f }.Coherent := by
  refine ⟨h.sound, h.linked.map hf, ?_⟩
  simp only [List.forall_mem_map]
  intro c hc
  rw [(hf c hc).id]
  exact h.numbered c hc

theorem Coherent.addCluster (h : o.Coherent) : o.addCluster.2.Coherent := by
  refine ⟨h.sound, h.linked.add rfl fun c hc he => ?_, ?_⟩
  · have hn := h.numbered c hc
    rw [he] at hn
    exact Nat.lt_irrefl _ hn
  · simp only [Observatory.addCluster, List.mem_append, List.mem_singleton]
    rintro c (hc | rfl)
    · exact Nat.lt_succ_of_lt (h.numbered c hc)
    · exact Nat.lt_succ_self _

theorem Coherent.modifyCluster (h : o.Coherent) (id : ClusterId) {f : Cluster → Cluster}
    (hf : ∀ c, SameLink c (f c)) : (o.modifyCluster id f).Coherent := by
  refine h.map fun c _ => ?_
  split
  · exact hf c
  · exact ⟨rfl, rfl, rfl⟩

theorem Coherent.tick (h : o.Coherent) : o.tick.2.Coherent := by
  have hm := h.map fun c _ => SameLink.tick c o.detector.locator.geodesy
  simpa [Observatory.tick, Function.comp_def] using hm

theorem Coherent.passCluster (h : o.Coherent) (now : Int64) (id : ClusterId) :
    (o.passCluster now id).2.Coherent := by
  unfold Observatory.passCluster
  cases hc : o.cluster? id with
  | none => exact h
  | some c =>
    have hmem : c ∈ o.clusters := List.mem_of_find?_eq_some hc
    have hid : c.id = id := by simpa using List.find?_some hc
    -- the ticked cluster has the link of the old one, and the pass puts a third one in its place
    have ht := SameLink.tick c o.detector.locator.geodesy
    simp only
    generalize (c.tick o.detector.locator.geodesy).1 = ticked at ht
    have hmem' : ticked ∈ replaceCluster o.clusters ticked := (h.linked.mem_replace hmem ht.id).mpr (Or.inl rfl)
    have hl := h.linked.replace_same hmem ht
    have he := ticked.pass_effect o.detector now o.catalog
    generalize ticked.pass o.detector now o.catalog = r at he
    obtain ⟨outcome, c', k'⟩ := r
    have hid' : c'.id = id := he.id_eq.trans (ht.id.trans hid)
    have hs : k'.Sound := he.sound h.sound fun i q hq hk => (hl.synced hmem' hq hk).2
    have hr : o.modifyCluster id (fun _ => c') = { o with clusters := replaceCluster o.clusters c' } := by
      simp only [Observatory.modifyCluster, replaceCluster, hid']
    simp only [hr]
    refine ⟨hs, ?_, fun d hd => ?_⟩
    · rw [← replaceCluster_replaceCluster o.clusters he.id_eq.symm]
      exact hl.pass hmem' he
    · rcases (h.linked.mem_replace hmem (hid'.trans hid.symm)).mp hd with rfl | ⟨hd, -⟩
      · rw [hid', ← hid]
        exact h.numbered c hmem
      · exact h.numbered d hd

/-- Passes in any order. -/
theorem Coherent.passes (h : o.Coherent) (now : Int64) (ids : List ClusterId) :
    (Observatory.passes now ids o).2.Coherent := by
  induction ids generalizing o with
  | nil => exact h
  | cons id ids ih => exact ih (h.passCluster now id)

/-- An estimate stores magnitudes with one quake at most. -/
theorem updateMagnitude_cases (e : MagnitudeEstimator) (r : Registry) (c : Cluster) :
    updateMagnitude e r c = r ∨
      ∃ id mag mags, updateMagnitude e r c = r.modify id fun q => { q with mag, mags } := by
  unfold updateMagnitude
  split
  · exact Or.inl rfl
  · split
    · exact Or.inl rfl
    · unfold Registry.setMagnitude
      simp only
      split
      · exact Or.inl rfl
      · exact Or.inr ⟨_, _, _, rfl⟩

theorem Coherent.storeMagnitude (h : o.Coherent) (id : QuakeId) (mag : Double) (mags : List Double) :
    { o with catalog :=
        { o.catalog with registry := o.catalog.registry.modify id fun q => { q with mag, mags } } }.Coherent := by
  refine ⟨h.sound.modify (fun _ => rfl) (fun _ => rfl), h.linked.recatalog (Nat.le_refl _) fun i q' hq' => ?_,
    h.numbered⟩
  have hget := Registry.get?_modify o.catalog.registry (f := fun q => { q with mag, mags })
    (fun q (hq : q.id = id) => hq) i
  obtain ⟨q, hq, rfl⟩ := Option.map_eq_some_iff.mp (hget ▸ hq')
  refine ⟨q, hq, ?_⟩
  split <;> exact ⟨rfl, rfl⟩

theorem Coherent.updateMagnitudes (h : o.Coherent) (cs : List Cluster) : (o.updateMagnitudes cs).Coherent := by
  induction cs generalizing o with
  | nil => exact h
  | cons c cs ih =>
    have hstep : (o.updateMagnitudes [c]).Coherent := by
      rcases updateMagnitude_cases o.estimator o.catalog.registry c with he | ⟨id, mag, mags, he⟩
      · simpa [Observatory.updateMagnitudes, he] using h
      · simpa [Observatory.updateMagnitudes, he] using h.storeMagnitude id mag mags
    exact ih hstep

theorem Coherent.cycle (h : o.Coherent) (now : Int64) : (o.cycle now).2.Coherent := by
  have hp := h.passes now (o.clusters.map (·.id))
  have hm := hp.updateMagnitudes (Observatory.passes now (o.clusters.map (·.id)) o).2.clusters
  exact ⟨hm.sound, hm.linked, hm.numbered⟩

theorem Coherent.second (h : o.Coherent) (now : Int64) : (o.second now).2.Coherent := by
  refine ⟨h.sound.retire Archive.push now o.archive, h.linked.recatalog (Nat.le_refl _) fun id q hq => ?_, h.numbered⟩
  have hget : (o.catalog.registry.get? id).filter (fun q => !q.expired now) = some q :=
    Registry.get?_sweep h.sound.distinct Archive.push now o.archive ▸ hq
  exact ⟨q, (Option.filter_eq_some_iff.mp hget).1, rfl, rfl⟩

/-- Every operation keeps the observatory coherent. -/
theorem Coherent.apply (h : o.Coherent) (op : Operation) : (o.apply op).Coherent := by
  cases op with
  | addCluster => exact h.addCluster
  | edit id e => exact h.modifyCluster id fun c => SameLink.edit _ c e
  | tick => exact h.tick
  | pass now id => exact h.passCluster now id
  | magnitudes ids => exact h.updateMagnitudes _
  | cycle now => exact h.cycle now
  | second now => exact h.second now

/-- Every run keeps the observatory coherent. -/
theorem Coherent.run (h : o.Coherent) (ops : List Operation) : (o.run ops).Coherent := by
  induction ops generalizing o with
  | nil => exact h
  | cons op ops ih => exact ih (h.apply op)

end Observatory

/-! ## A run with a revised and an archived quake -/

namespace OneSecond

open Observatory

/-- What an observatory relies on in this world, where every station gives the magnitude four. -/
def parts : Collaborators :=
  { geodesy := locator.geodesy, travelTimes := locator.travelTimes, table := { magnitude := fun _ _ => 4.0 } }

theorem create_parts : Observatory.create {} parts = .ok (Observatory.start {} parts) :=
  create_eq_ok_iff.mpr ⟨by decide +kernel, rfl, rfl⟩

/-- An observatory with two clusters and a catalog, after some cycles. -/
def world (a b : Cluster) (k : Catalog) (cycles : Nat) : Observatory :=
  { Observatory.start {} parts with clusters := [a, b], catalog := k, nextCluster := 3, cycles }

/-- A cluster that has gathered the five detections. -/
def gathered (id : ClusterId) : Cluster := { id, detections }

/-- Two clusters gather the five detections. -/
def opening : List Operation :=
  [.addCluster, .addCluster] ++ (others ++ [first]).map (fun d => .edit ⟨1⟩ (.assign d)) ++
    (others ++ [first]).map fun d => .edit ⟨2⟩ (.assign d)

theorem run_opening : (Observatory.start {} parts).run opening =
    world (gathered ⟨1⟩) (gathered ⟨2⟩) { bus := Bus.create busCapacity } 0 := rfl

def ticked (c : Cluster) : Cluster := (c.tick locator.geodesy).1

/-! ### Cycles -/

section

variable {a b a' b' : Cluster} {k k' k'' : Catalog} {n : Nat} {now : Int64} {x y : Outcome}

theorem passCluster_first (h : (ticked a).pass detector now k = (x, a', k')) (hne : a.id ≠ b.id) :
    (world a b k n).passCluster now a.id = (some x, world a' b k' n) := by
  have hc : (world a b k n).cluster? a.id = some a := by simp [cluster?, world]
  have hpass : (a.tick (world a b k n).detector.locator.geodesy).1.pass (world a b k n).detector now
      (world a b k n).catalog = (x, a', k') := h
  simp only [passCluster, hc, hpass]
  simp [world, modifyCluster, hne.symm]

theorem passCluster_second (h : (ticked b).pass detector now k = (x, b', k')) (hne : a.id ≠ b.id) :
    (world a b k n).passCluster now b.id = (some x, world a b' k' n) := by
  have hc : (world a b k n).cluster? b.id = some b := by simp [cluster?, world, hne]
  have hpass : (b.tick (world a b k n).detector.locator.geodesy).1.pass (world a b k n).detector now
      (world a b k n).catalog = (x, b', k') := h
  simp only [passCluster, hc, hpass]
  simp [world, modifyCluster, hne]

/-- The pass over the second of two clusters comes first. -/
theorem passes_reversed (hb : (ticked b).pass detector now k = (y, b', k'))
    (ha : (ticked a).pass detector now k' = (x, a', k'')) (hne : a.id ≠ b.id) (hid : b'.id = b.id) :
    passes now [b.id, a.id] (world a b k n) = ([(b.id, y), (a.id, x)], world a' b' k'' n) := by
  simp only [passes, passCluster_second hb hne, passCluster_first ha (hid ▸ hne)]
  rfl

theorem cycle_world (ha : (ticked a).pass detector now k = (x, a', k'))
    (hb : (ticked b).pass detector now k' = (y, b', k'')) (hne : a.id ≠ b.id) (hid : a'.id = a.id) :
    (world a b k n).cycle now =
      ([(a.id, x), (b.id, y)],
        world a' b' { k'' with
          registry := [a', b'].foldl (updateMagnitude (Observatory.start {} parts).estimator) k''.registry } (n + 1)) := by
  have hids : (world a b k n).clusters.map (·.id) = [a.id, b.id] := rfl
  rw [cycle, hids]
  simp only [passes, passCluster_first ha hne, passCluster_second hb (hid ▸ hne)]
  rfl

end

/-- A record with the magnitudes of five stations. -/
def measured (q : Quake) : Quake := { q with mag := 4.0, mags := List.replicate 5 4.0 }

theorem sortTotal_fours : Number.sortTotal (List.replicate 5 4.0) = List.replicate 5 4.0 :=
  List.mergeSort_of_pairwise (by decide +kernel)

theorem estimate_parts (q : Quake) {ds : List Detection} (hvalid : (ds.filter (·.valid)).length = 5) :
    (Observatory.start {} parts).estimator.estimate q ds = some (List.replicate 5 4.0) := by
  have hmags : (ds.filter (·.valid)).filterMap ((Observatory.start {} parts).estimator.stationMagnitude q) =
      List.replicate 5 4.0 := by
    rw [← hvalid, ← List.map_const', ← List.filterMap_eq_map]
    rfl
  rw [MagnitudeEstimator.estimate, hmags]
  exact congrArg some sortTotal_fours

theorem updateMagnitude_parts {r : Registry} {c : Cluster} {id : QuakeId} {q : Quake} (hquake : c.quake = some id)
    (hq : r.get? id = some q) (hvalid : (c.assigned.filter (·.valid)).length = 5) :
    updateMagnitude (Observatory.start {} parts).estimator r c = r.modify id measured := by
  have hid : q.id = id := (Registry.mem_of_get? hq).2
  simp only [updateMagnitude, hquake, Option.bind_some, hq, estimate_parts q hvalid, hid, Registry.setMagnitude,
    sortTotal_fours]
  rfl

theorem updateMagnitudes_parts {a b : Cluster} {q p : Quake} (ha : a.quake = some q.id) (hb : b.quake = some p.id)
    (hne : q.id ≠ p.id) (hvalid : (a.assigned.filter (·.valid)).length = 5)
    (hvalid' : (b.assigned.filter (·.valid)).length = 5) :
    [a, b].foldl (updateMagnitude (Observatory.start {} parts).estimator) { quakes := [q, p] } =
      { quakes := [measured q, measured p] } := by
  have hkept : (measured q).id ≠ p.id := hne
  have hfirst : ({ quakes := [q, p] } : Registry).modify q.id measured = { quakes := [measured q, p] } := by
    simp [Registry.modify, hne.symm]
  have hsecond : ({ quakes := [measured q, p] } : Registry).modify p.id measured =
      { quakes := [measured q, measured p] } := by
    simp [Registry.modify, hkept]
  have hget : ({ quakes := [q, p] } : Registry).get? q.id = some q := by simp [Registry.get?]
  have hget' : ({ quakes := [measured q, p] } : Registry).get? p.id = some p := by simp [Registry.get?, hkept]
  rw [List.foldl_cons, updateMagnitude_parts ha hget hvalid, hfirst, List.foldl_cons,
    updateMagnitude_parts hb hget' hvalid', hsecond, List.foldl_nil]

/-! ### Both clusters are located -/

/-- A cluster after a pass that has made its solution a quake. -/
def located (c : ClusterId) (id : QuakeId) : Cluster :=
  { ticked (gathered c) with
    searchedAt := 5, selected := picks, previous := some solution.hypocenter, revision := 1, quake := some id }

def record (c : ClusterId) (id : QuakeId) : Quake := (ticked (gathered c)).recordOf detector solution 7000 id

theorem pass_gathered (c : ClusterId) (k : Catalog) :
    (ticked (gathered c)).pass detector 7000 k =
      (.committed ⟨k.next⟩ 80.0 true, located c ⟨k.next⟩, (k.enrol (record c)).2) :=
  pass_creates (c := ticked (gathered c)) (ready_of (show (0 : UInt64) ≠ 5 by decide) rfl) rfl rfl nofun rfl 7000 k

def bothLocated : Catalog :=
  { registry := { quakes := [measured (record ⟨1⟩ ⟨1⟩), measured (record ⟨2⟩ ⟨2⟩)] }
    bus := ((Bus.create busCapacity).publish (.created (record ⟨1⟩ ⟨1⟩))).publish (.created (record ⟨2⟩ ⟨2⟩))
    next := 3 }

theorem cycle_opening : ((Observatory.start {} parts).run opening).cycle 7000 =
    ([(⟨1⟩, .committed ⟨1⟩ 80.0 true), (⟨2⟩, .committed ⟨2⟩ 80.0 true)],
      world (located ⟨1⟩ ⟨1⟩) (located ⟨2⟩ ⟨2⟩) bothLocated 1) := by
  have hcycle := cycle_world (n := 0) (pass_gathered ⟨1⟩ { bus := Bus.create busCapacity }) (pass_gathered ⟨2⟩ _)
    (by decide) rfl
  have hmags := updateMagnitudes_parts (a := located ⟨1⟩ ⟨1⟩) (b := located ⟨2⟩ ⟨2⟩) (q := record ⟨1⟩ ⟨1⟩)
    (p := record ⟨2⟩ ⟨2⟩) rfl rfl (by decide) (by decide) (by decide)
  rw [run_opening, hcycle]
  exact congrArg (fun r => (_, world _ _ { bothLocated with registry := r } 1)) hmags

/-! ### One of them is located again -/

/-- The first detection after it was updated. -/
def again : Detection := { first with updates := 2 }

def updated : Cluster := (located ⟨1⟩ ⟨1⟩).assign again

/-- The updated cluster after it was located again. -/
def revised : Cluster := { ticked updated with searchedAt := 6, revision := 2 }

def revision : Quake := Cluster.restate detector.regions solution 2 400000 (measured (record ⟨1⟩ ⟨1⟩))

def oneRevised : Catalog :=
  { registry := { quakes := [revision, measured (record ⟨2⟩ ⟨2⟩)] }
    bus := bothLocated.bus.publish (.updated revision)
    next := 3 }

theorem pass_updated :
    (ticked updated).pass detector 400000 bothLocated = (.committed ⟨1⟩ 80.0 false, revised, oneRevised) := by
  have hk : bothLocated.amend ⟨1⟩ (Cluster.restate detector.regions solution ((ticked updated).revision + 1) 400000) =
      some oneRevised := rfl
  refine pass_revises (c := ticked updated) (ready_of (show (5 : UInt64) ≠ 6 by decide) rfl) rfl rfl ?_ rfl hk
  rintro p ⟨⟩
  decide

theorem pass_located (k : Catalog) : (ticked (located ⟨2⟩ ⟨2⟩)).pass detector 400000 k =
    (.skipped .noNewPicks, located ⟨2⟩ ⟨2⟩, k) := rfl

/-- Both clusters are located, and the first one is updated. -/
def middle : List Operation := opening ++ [.cycle 7000, .edit ⟨1⟩ (.assign again)]

theorem run_middle : (Observatory.start {} parts).run middle = world updated (located ⟨2⟩ ⟨2⟩) bothLocated 1 := by
  have hrun : (Observatory.start {} parts).run middle =
      (((Observatory.start {} parts).run opening).cycle 7000).2.apply (.edit ⟨1⟩ (.assign again)) :=
    List.foldl_append
  rw [hrun, cycle_opening]
  rfl

theorem cycle_middle : ((Observatory.start {} parts).run middle).cycle 400000 =
    ([(⟨1⟩, .committed ⟨1⟩ 80.0 false), (⟨2⟩, .skipped .noNewPicks)],
      world revised (located ⟨2⟩ ⟨2⟩)
        { oneRevised with registry := { quakes := [revision, measured (record ⟨2⟩ ⟨2⟩)] } } 2) := by
  have hcycle := cycle_world (n := 1) pass_updated (pass_located oneRevised) (by decide) rfl
  have hmags := updateMagnitudes_parts (a := revised) (b := located ⟨2⟩ ⟨2⟩) (q := revision)
    (p := measured (record ⟨2⟩ ⟨2⟩)) rfl rfl (by decide) (by decide) (by decide)
  rw [run_middle, hcycle]
  exact congrArg (fun r => (_, world _ _ { oneRevised with registry := r } 2)) hmags

/-- The first cluster is located again, and then the quake of the other one has expired. -/
def story : List Operation := middle ++ [.cycle 400000, .second 430000]

theorem run_story :
    let o := (Observatory.start {} parts).run story
    o.clusters = [revised, located ⟨2⟩ ⟨2⟩] ∧
      o.catalog =
        { registry := { quakes := [revision] }
          bus := oneRevised.bus.publish (.archived (measured (record ⟨2⟩ ⟨2⟩)))
          next := 3 } := by
  intro o
  have ho : o = ((((Observatory.start {} parts).run middle).cycle 400000).2.second 430000).2 := List.foldl_append
  have hlive : revision.expired 430000 = false := by decide +kernel
  have hexpired : (measured (record ⟨2⟩ ⟨2⟩)).expired 430000 = true := by decide +kernel
  rw [ho, cycle_middle]
  refine ⟨rfl, ?_⟩
  simp only [second, Catalog.retire, Registry.sweep, Registry.expired, world, List.filter_cons, hlive, hexpired]
  rfl

end OneSecond

namespace Observatory

variable {o : Observatory}

/-! ## Every run -/

/-- After every run, the notices about a quake are none or the life of one quake, and the live quakes are those that
were created and not ended. The quakes that nothing was told about are those whose numbers, which go from one on, were
not given yet. -/
theorem run_tells_lives {config : Config} {parts : Collaborators} (h : create config parts = .ok o)
    (ops : List Operation) (id : QuakeId) :
    ((o.run ops).catalog.bus.about id = [] ∨ LifeCycle ((o.run ops).catalog.bus.about id)) ∧
      ((o.run ops).catalog.registry.contains id ↔
        (∃ q, .created q ∈ (o.run ops).catalog.bus.about id) ∧
          ∀ n ∈ (o.run ops).catalog.bus.about id, n.isFinal = false) ∧
      (0 < id.number → ((o.run ops).catalog.bus.about id = [] ↔ (o.run ops).catalog.next ≤ id.number)) := by
  have hs := ((coherent_create h).run ops).sound
  have ht := hs.told id
  refine ⟨ht.lifeCycle, ?_, fun hpos => ⟨fun hnone => ?_, hs.fresh id⟩⟩
  · rw [Registry.contains_eq_isSome, ← ht.live_iff, Option.isSome_map]
  · exact Nat.le_of_not_lt fun hlt => hs.given id hpos hlt hnone

/-- The quake that was revised is live after its second notice, and the one that was archived has had its last. The next
number was not given yet. -/
theorem story_tells_lives : create {} OneSecond.parts = .ok (start {} OneSecond.parts) ∧
    let k := ((start {} OneSecond.parts).run OneSecond.story).catalog
    (k.bus.about ⟨1⟩ = [.created (OneSecond.record ⟨1⟩ ⟨1⟩), .updated OneSecond.revision] ∧
        LifeCycle (k.bus.about ⟨1⟩) ∧ k.registry.contains ⟨1⟩) ∧
      (k.bus.about ⟨2⟩ =
          [.created (OneSecond.record ⟨2⟩ ⟨2⟩), .archived (OneSecond.measured (OneSecond.record ⟨2⟩ ⟨2⟩))] ∧
        LifeCycle (k.bus.about ⟨2⟩) ∧ ¬ k.registry.contains ⟨2⟩) ∧
      k.bus.about ⟨3⟩ = [] := by
  refine ⟨OneSecond.create_parts, ?_⟩
  intro k
  have hk := OneSecond.run_story.2
  have hrevised : k.bus.about ⟨1⟩ = [.created (OneSecond.record ⟨1⟩ ⟨1⟩), .updated OneSecond.revision] := by
    simp only [show k = _ from hk, OneSecond.oneRevised, OneSecond.bothLocated, Bus.about_publish, Bus.about_create]
    rfl
  have harchived : k.bus.about ⟨2⟩ =
      [.created (OneSecond.record ⟨2⟩ ⟨2⟩), .archived (OneSecond.measured (OneSecond.record ⟨2⟩ ⟨2⟩))] := by
    simp only [show k = _ from hk, OneSecond.oneRevised, OneSecond.bothLocated, Bus.about_publish, Bus.about_create]
    rfl
  have hnext : k.next = 3 := congrArg Catalog.next hk
  have htells := run_tells_lives OneSecond.create_parts OneSecond.story
  obtain ⟨hlife, hlive, -⟩ := htells ⟨1⟩
  obtain ⟨hlife', hlive', -⟩ := htells ⟨2⟩
  refine ⟨⟨hrevised, hlife.resolve_left ?_, hlive.mpr ⟨⟨OneSecond.record ⟨1⟩ ⟨1⟩, ?_⟩, fun n hn => ?_⟩⟩,
    ⟨harchived, hlife'.resolve_left ?_, fun hcontains => ?_⟩, ((htells ⟨3⟩).2.2 (by decide)).mpr hnext.le⟩
  · exact hrevised ▸ List.cons_ne_nil _ _
  · exact hrevised ▸ List.mem_cons_self
  · rcases List.mem_pair.mp (hrevised ▸ hn) with rfl | rfl <;> rfl
  · exact harchived ▸ List.cons_ne_nil _ _
  · have hfinal := (hlive'.mp hcontains).2 _ (harchived ▸ List.mem_cons_of_mem _ List.mem_cons_self)
    cases hfinal

/-- After every run, no two clusters hold one quake, and each live quake is held by exactly one cluster, which it names
and whose revision it has. -/
theorem run_links_quakes {config : Config} {parts : Collaborators} (h : create config parts = .ok o)
    (ops : List Operation) :
    ((o.run ops).clusters.filterMap (·.quake)).Nodup ∧
      ∀ q ∈ (o.run ops).catalog.registry.quakes, ∃ c,
        (o.run ops).clusters.filter (fun d => d.quake = some q.id) = [c] ∧
          q.cluster = c.id ∧ q.revision = c.revision := by
  have hc := (coherent_create h).run ops
  refine ⟨hc.linked.nodup_quakes, fun q hq => ?_⟩
  obtain ⟨c, hmem, hquake, hcluster, hrevision⟩ := hc.linked.owned q.id q (hc.sound.distinct.get?_of_mem hq)
  exact ⟨c, hc.linked.filter_owner hmem hquake, hcluster, hrevision⟩

/-- The live quake is held by the first cluster alone, at its second revision, while the second cluster still holds the
archived one. -/
theorem story_links_quakes : create {} OneSecond.parts = .ok (start {} OneSecond.parts) ∧
    let s := (start {} OneSecond.parts).run OneSecond.story
    s.clusters.map (·.quake) = [some ⟨1⟩, some ⟨2⟩] ∧ (s.clusters.filterMap (·.quake)).Nodup ∧
      s.catalog.registry.quakes = [OneSecond.revision] ∧
        ∃ c, s.clusters.filter (fun d => d.quake = some OneSecond.revision.id) = [c] ∧
          OneSecond.revision.cluster = c.id ∧ OneSecond.revision.revision = c.revision ∧ c.revision = 2 := by
  refine ⟨OneSecond.create_parts, ?_⟩
  intro s
  obtain ⟨hclusters, hcatalog⟩ := OneSecond.run_story
  have hlive : s.catalog.registry.quakes = [OneSecond.revision] := congrArg (·.registry.quakes) hcatalog
  obtain ⟨hnodup, howned⟩ := run_links_quakes OneSecond.create_parts OneSecond.story
  obtain ⟨c, hfilter, hcluster, hrevision⟩ := howned OneSecond.revision (hlive ▸ List.mem_singleton_self _)
  refine ⟨?_, hnodup, hlive, c, hfilter, hcluster, hrevision, hrevision.symm⟩
  rw [show s.clusters = _ from hclusters]
  rfl

end Observatory

end Tremor
