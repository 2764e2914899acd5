import Tremor.Proofs.Linkage

/-!
# Passes planned ahead

A pass looks at the catalog twice at most: whether the quake of its cluster is live, and which number a new quake gets.
So the pass can be planned from the record of that quake alone (`Cluster.plan`) and carried out under any number
(`Plan.deed`). What it does to the catalog is said by what it tells.

- `Catalog.Tells` : a catalog after some more notices; the registry is what they say
- `Deed`, `Plan` : what a pass does, and the same with the number of a new quake left open
- `pass_plan` : a pass does what was planned
- `plan_about` : a plan is about its cluster, and names no quakes but that of the cluster or the new one
-/

namespace Tremor

/-! ## What notices say -/

/-- The record of its quake that a notice leaves in the registry. -/
def Notice.record : Notice → Option Quake
  | created q => some q
  | updated q => some q
  | removed _ _ => none
  | archived _ => none

/-- The cluster that a notice names. -/
def Notice.cluster : Notice → ClusterId
  | created q => q.cluster
  | updated q => q.cluster
  | removed _ cluster => cluster
  | archived q => q.cluster

def Notice.isCreation : Notice → Bool
  | created _ => true
  | _ => false

/-- The notices that name a cluster, in the order in which they were published. -/
def Bus.by (b : Bus) (c : ClusterId) : List Notice := b.notices.toList.filter (·.cluster == c)

theorem Bus.notices_foldl_publish (ns : List Notice) (b : Bus) :
    (ns.foldl publish b).notices.toList = b.notices.toList ++ ns := by
  induction ns generalizing b with
  | nil => simp
  | cons n ns ih => simp [ih]

/-- The record of a quake after a notice. -/
def Notice.recordOf (id : QuakeId) (old : Option Quake) (n : Notice) : Option Quake :=
  if n.subject = id then n.record else old

namespace Catalog

/-- The second catalog is the first one after some notices, which the registry agrees with. -/
structure Tells (k : Catalog) (ns : List Notice) (k' : Catalog) : Prop where
  get? : ∀ id, k'.registry.get? id = ns.foldl (Notice.recordOf id) (k.registry.get? id)
  bus : k'.bus = ns.foldl Bus.publish k.bus
  next : k'.next = k.next + ns.countP (·.isCreation)

variable {k k' k'' : Catalog} {ns ms : List Notice}

theorem Tells.refl (k : Catalog) : k.Tells [] k := ⟨fun _ => rfl, rfl, rfl⟩

theorem Tells.trans (h : k.Tells ns k') (h' : k'.Tells ms k'') : k.Tells (ns ++ ms) k'' where
  get? id := by rw [List.foldl_append, ← h.get?, h'.get?]
  bus := by rw [List.foldl_append, ← h.bus, h'.bus]
  next := by rw [h'.next, h.next, List.countP_append, Nat.add_assoc]

theorem Tells.by (h : k.Tells ns k') (c : ClusterId) : k'.bus.by c = k.bus.by c ++ ns.filter (·.cluster == c) := by
  rw [h.bus, Bus.by, Bus.notices_foldl_publish, List.filter_append, Bus.by]

/-- Nothing is told about any other quake. -/
theorem Tells.get?_of_forall_ne (h : k.Tells ns k') {id : QuakeId} (hid : ∀ n ∈ ns, n.subject ≠ id) :
    k'.registry.get? id = k.registry.get? id := by
  rw [h.get?]
  refine List.foldlRecOn (motive := (· = k.registry.get? id)) ns _ rfl fun old hold n hn => ?_
  rw [Notice.recordOf, if_neg (hid n hn), hold]

theorem tells_enrol (k : Catalog) (build : QuakeId → Quake) :
    k.Tells [.created (build ⟨k.next⟩)] (k.enrol build).2 where
  get? _ := Registry.get?_insert _ _
  bus := rfl
  next := rfl

theorem tells_amend {id : QuakeId} {change : Quake → Quake} (hid : ∀ q, q.id = id → (change q).id = id) {q : Quake}
    (hq : k.registry.get? id = some q) (hk : k.amend id change = some k') : k.Tells [.updated (change q)] k' := by
  have hs : (change q).id = id := hid q (Registry.mem_of_get? hq).2
  simp only [amend, hq, Option.map_some, Option.some.injEq] at hk
  subst hk
  refine ⟨fun i => ?_, rfl, rfl⟩
  show (k.registry.modify id change).get? i = if (change q).id = i then some (change q) else k.registry.get? i
  rw [hs]
  split
  · rename_i hi
    subst hi
    rw [Registry.get?_modify_self _ hid, hq, Option.map_some]
  · rename_i hi
    exact Registry.get?_modify_of_ne _ hid hi

theorem tells_withdraw (k : Catalog) (id : QuakeId) (cluster : ClusterId) :
    k.Tells ((k.registry.get? id).map fun _ => Notice.removed id cluster).toList (k.withdraw id cluster) := by
  unfold withdraw
  cases hq : k.registry.get? id with
  | none =>
    rw [if_neg (by simp [Registry.contains_eq_isSome, hq])]
    exact Tells.refl k
  | some q =>
    rw [if_pos (by simp [Registry.contains_eq_isSome, hq])]
    exact ⟨fun i => Registry.get?_remove _, rfl, rfl⟩

end Catalog

/-! ## Plans -/

/-- What a pass does: its outcome, the cluster that it leaves and what it tells. -/
structure Deed where
  outcome : Outcome
  cluster : Cluster
  notice : Option Notice

/-- What a pass is going to do. -/
inductive Plan where
  /-- No new quake comes of it. -/
  | settled (deed : Deed)
  /-- A new quake comes of it, whose identity is not known yet. -/
  | creating (pct : Float) (cluster : Cluster) (record : Quake)

namespace Plan

def creates : Plan → Bool
  | settled _ => false
  | creating _ _ _ => true

/-- What is done under an identity for the new quake. -/
def deed (fresh : QuakeId) : Plan → Deed
  | settled deed => deed
  | creating pct cluster record =>
    { outcome := .committed fresh pct true
      cluster := { cluster with quake := some fresh }
      notice := some (.created { record with id := fresh }) }

end Plan

namespace Cluster

/-- The plan for a solution that enough picks fit, the record of the quake of the cluster being `own`. -/
def planCommit (c : Cluster) (d : Detector) (s : Solution) (now : Int64) (own : Option Quake) : Plan :=
  match c.quake, own with
  | none, _ => .creating s.pct { c with revision := c.revision + 1 } (c.recordOf d s now ⟨0⟩)
  | some _, none => .settled { outcome := .skipped .archived, cluster := c, notice := none }
  | some id, some q => .settled {
      outcome := .committed id s.pct false
      cluster := { c with revision := c.revision + 1 }
      notice := some (.updated (restate d.regions s (c.revision + 1) now q)) }

/-- The plan for a solution that too few picks fit. -/
def planDiscard (c : Cluster) (s : Solution) (own : Option Quake) : Plan :=
  .settled {
    outcome := .discarded s.pct
    cluster := { c with quake := none }
    notice := own.map fun q => .removed q.id c.id }

/-- The plan of a pass over a cluster, the record of whose quake is `own`. -/
def plan (c : Cluster) (d : Detector) (now : Int64) (own : Option Quake) : Plan :=
  match c.prepare d.locator.geodesy with
  | (c, .error reason) => .settled { outcome := .skipped reason, cluster := c, notice := none }
  | (c, .ok task) =>
    match evaluate d.locator task c.previous with
    | .error (condition, best) => .settled {
        outcome := .rejected condition
        cluster := if best.isSome then { c with previous := best } else c
        notice := none }
    | .ok s =>
      -- the solution is kept whatever becomes of it, and neither of the two looks at what was kept before
      let c := { c with previous := some s.hypocenter }
      if s.pct > d.locator.settings.correctness then
        (c.followDrift d.locator.geodesy task.anchor s.hypocenter).planCommit d s now own
      else c.planDiscard s own

/-- The record of the quake of a cluster, if it is live. -/
def own (c : Cluster) (k : Catalog) : Option Quake := c.quake.bind k.registry.get?

end Cluster

/-! ## Passes go as planned -/

/-- What comes of a pass in a catalog is a deed. -/
structure Deed.Done (e : Deed) (k : Catalog) (r : Outcome × Cluster × Catalog) : Prop where
  outcome : r.1 = e.outcome
  cluster : r.2.1 = e.cluster
  tells : k.Tells e.notice.toList r.2.2

namespace Cluster

variable (c : Cluster) (d : Detector) (s : Solution) (now : Int64) (k : Catalog)

theorem commit_plan : ((c.planCommit d s now (c.own k)).deed ⟨k.next⟩).Done k (c.commit d s now k) := by
  cases hc : c.quake with
  | none =>
    rw [commit_new d s now k hc]
    simp only [planCommit, hc]
    exact ⟨rfl, rfl, Catalog.tells_enrol k (c.recordOf d s now)⟩
  | some id =>
    cases hq : k.registry.get? id with
    | none =>
      rw [commit_gone hc (by simp [Catalog.amend, hq])]
      simp only [planCommit, own, hc, Option.bind_some, hq]
      exact ⟨rfl, rfl, Catalog.Tells.refl k⟩
    | some q =>
      obtain ⟨k', hk⟩ : ∃ k', k.amend id (restate d.regions s (c.revision + 1) now) = some k' :=
        ⟨_, by rw [Catalog.amend, hq, Option.map_some]⟩
      rw [commit_live hc hk]
      simp only [planCommit, own, hc, Option.bind_some, hq]
      exact ⟨rfl, rfl, Catalog.tells_amend (restate_id _ _ _ _ _) hq hk⟩

theorem discard_plan : ((c.planDiscard s (c.own k)).deed ⟨k.next⟩).Done k (c.discard s k) := by
  refine ⟨rfl, rfl, ?_⟩
  simp only [discard, planDiscard, Plan.deed, own]
  cases c.quake with
  | none => exact Catalog.Tells.refl k
  | some id =>
    have hn : ((k.registry.get? id).map fun q => Notice.removed q.id c.id) =
        (k.registry.get? id).map fun _ => Notice.removed id c.id :=
      Option.map_congr fun q hq => by rw [(Registry.mem_of_get? hq).2]
    rw [Option.bind_some, hn]
    exact Catalog.tells_withdraw k id c.id

/-- Settling a solution does not look at the solution before. -/
theorem settle_previous (anchor : Point) (previous : Option Hypocenter) :
    { c with previous }.settle d anchor s now k =
      ((c.settle d anchor s now k).1, { (c.settle d anchor s now k).2.1 with previous },
        (c.settle d anchor s now k).2.2) := by
  have hcommit : ∀ c : Cluster, { c with previous }.commit d s now k =
      ((c.commit d s now k).1, { (c.commit d s now k).2.1 with previous }, (c.commit d s now k).2.2) := by
    intro c
    rcases Option.eq_none_or_eq_some c.quake with hc | ⟨id, hc⟩
    · rw [commit_new d s now k hc, commit_new d s now k (by exact hc)]
      rfl
    · rcases Option.eq_none_or_eq_some (k.amend id (restate d.regions s (c.revision + 1) now)) with hk | ⟨k', hk⟩
      · rw [commit_gone hc hk, commit_gone (by exact hc) (by exact hk)]
      · rw [commit_live hc hk, commit_live (by exact hc) (by exact hk)]
  simp only [settle]
  split
  · simp only [followDrift]
    split
    · exact hcommit (c.anchorAt s.hypocenter.place)
    · exact hcommit c
  · rfl

theorem sameLink_prepare (g : Geodesy) : SameLink c (c.prepare g).1 := by
  obtain ⟨nextReport, searchedAt, selected, hc, -⟩ := prepare_cases c g
  rw [hc]
  exact ⟨rfl, rfl, rfl⟩

theorem sameLink_followDrift (g : Geodesy) (anchor : Point) (h : Hypocenter) :
    SameLink c (c.followDrift g anchor h) := by
  obtain ⟨anchor', hc⟩ := followDrift_cases c g anchor h
  rw [hc]
  exact ⟨rfl, rfl, rfl⟩

/-- A pass does what is planned when the record of the quake of its cluster is known. -/
theorem pass_plan : ((c.plan d now (c.own k)).deed ⟨k.next⟩).Done k (c.pass d now k) := by
  have hs := c.sameLink_prepare d.locator.geodesy
  unfold pass plan
  generalize c.prepare d.locator.geodesy = p at hs
  obtain ⟨prepared, result⟩ := p
  cases result with
  | error reason => exact ⟨rfl, rfl, Catalog.Tells.refl k⟩
  | ok task =>
    simp only
    cases evaluate d.locator task prepared.previous with
    | error e => exact ⟨rfl, rfl, Catalog.Tells.refl k⟩
    | ok s =>
      have hown : c.own k = prepared.own k := by rw [own, own, hs.quake]
      simp only [hown]
      -- the solution is kept before or after it is settled
      have hkeep := settle_previous prepared d s now k task.anchor (some s.hypocenter)
      generalize hr : prepared.settle d task.anchor s now k = r at hkeep
      show Deed.Done _ k (r.1, { r.2.1 with previous := some s.hypocenter }, r.2.2)
      rw [← hkeep, settle]
      split
      · have hd := sameLink_followDrift { prepared with previous := some s.hypocenter } d.locator.geodesy task.anchor
          s.hypocenter
        have hown' : prepared.own k =
            (followDrift { prepared with previous := some s.hypocenter } d.locator.geodesy task.anchor
              s.hypocenter).own k := by
          rw [own, own, hd.quake]
        rw [hown']
        exact commit_plan _ d s now k
      · exact discard_plan { prepared with previous := some s.hypocenter } s k

end Cluster

/-! ## What a plan is about -/

/-- Every quake that a deed names has a property. -/
structure Deed.Names (e : Deed) (P : QuakeId → Prop) : Prop where
  outcome : ∀ id pct created, e.outcome = .committed id pct created → P id
  cluster : ∀ id, e.cluster.quake = some id → P id
  notice : ∀ n ∈ e.notice, P n.subject

theorem Deed.Names.mono {e : Deed} {P Q : QuakeId → Prop} (h : e.Names P) (hPQ : ∀ id, P id → Q id) : e.Names Q where
  outcome id pct created he := hPQ id (h.outcome id pct created he)
  cluster id he := hPQ id (h.cluster id he)
  notice n hn := hPQ _ (h.notice n hn)

/-- A plan is about one cluster and one quake: the new one if there is one, and else that of the cluster. -/
structure Plan.About (c : Cluster) (p : Plan) : Prop where
  cluster : ∀ fresh, (p.deed fresh).cluster.id = c.id
  notice : ∀ fresh, ∀ n ∈ (p.deed fresh).notice, n.cluster = c.id
  creations : ∀ fresh, (p.deed fresh).notice.toList.countP (·.isCreation) = if p.creates then 1 else 0
  names : ∀ fresh, (p.deed fresh).Names fun id =>
    p.creates = true ∧ id = fresh ∨ p.creates = false ∧ c.quake = some id

theorem Plan.About.of_sameLink {c c' : Cluster} {p : Plan} (h : p.About c') (hs : SameLink c c') : p.About c := by
  obtain ⟨hcluster, hnotice, hcreations, hnames⟩ := h
  rw [hs.id] at hcluster hnotice
  rw [hs.quake] at hnames
  exact ⟨hcluster, hnotice, hcreations, hnames⟩

/-- A plan that tells nothing and commits nothing. -/
theorem Plan.about_quiet (c : Cluster) {outcome : Outcome}
    (h : ∀ id pct created, outcome ≠ .committed id pct created) :
    (Plan.settled { outcome, cluster := c, notice := none }).About c where
  cluster _ := rfl
  notice _ n hn := by cases hn
  creations _ := rfl
  names _ := ⟨fun id pct created he => absurd he (h id pct created), fun _ hq => Or.inr ⟨rfl, hq⟩,
    fun n hn => by cases hn⟩

namespace Cluster

variable (c : Cluster) (d : Detector) (s : Solution) (now : Int64) {own : Option Quake}

theorem planCommit_about (hown : ∀ q, own = some q → c.quake = some q.id ∧ q.cluster = c.id) :
    (c.planCommit d s now own).About c := by
  unfold planCommit
  split
  · refine ⟨fun _ => rfl, ?_, fun _ => rfl, fun fresh => ⟨?_, ?_, ?_⟩⟩
    · rintro fresh n ⟨⟩
      rfl
    · rintro id pct created ⟨⟩
      exact Or.inl ⟨rfl, rfl⟩
    · rintro id ⟨⟩
      exact Or.inl ⟨rfl, rfl⟩
    · rintro n ⟨⟩
      exact Or.inl ⟨rfl, rfl⟩
  · exact Plan.about_quiet c (by simp)
  · rename_i id q hc
    obtain ⟨hq, hcluster⟩ := hown q rfl
    refine ⟨fun _ => rfl, ?_, fun _ => rfl, fun fresh => ⟨?_, fun _ hi => Or.inr ⟨rfl, hi⟩, ?_⟩⟩
    · rintro fresh n ⟨⟩
      exact hcluster
    · rintro id pct created ⟨⟩
      exact Or.inr ⟨rfl, hc⟩
    · rintro n ⟨⟩
      exact Or.inr ⟨rfl, hq⟩

theorem planDiscard_about (hown : ∀ q, own = some q → c.quake = some q.id ∧ q.cluster = c.id) :
    (c.planDiscard s own).About c := by
  refine ⟨fun _ => rfl, fun fresh n hn => ?_, fun fresh => ?_, fun fresh => ⟨?_, ?_, fun n hn => ?_⟩⟩
  · obtain ⟨q, -, rfl⟩ := Option.map_eq_some_iff.mp hn
    rfl
  · cases own <;> rfl
  · rintro id pct created ⟨⟩
  · rintro id ⟨⟩
  · obtain ⟨q, hq, rfl⟩ := Option.map_eq_some_iff.mp hn
    exact Or.inr ⟨rfl, (hown q hq).1⟩

/-- A plan made from the record of the quake of a cluster is about that cluster. -/
theorem plan_about (hown : ∀ q, own = some q → c.quake = some q.id ∧ q.cluster = c.id) :
    (c.plan d now own).About c := by
  have hs := c.sameLink_prepare d.locator.geodesy
  unfold plan
  generalize c.prepare d.locator.geodesy = p at hs
  obtain ⟨prepared, result⟩ := p
  rw [← hs.quake, ← hs.id] at hown
  cases result with
  | error reason => exact (Plan.about_quiet prepared (by simp)).of_sameLink hs
  | ok task =>
    simp only
    split
    · rename_i condition best _
      have hb : SameLink c (if best.isSome then { prepared with previous := best } else prepared) := by
        split
        · exact ⟨hs.id, hs.quake, hs.revision⟩
        · exact hs
      exact (Plan.about_quiet _ (by simp)).of_sameLink hb
    · rename_i s _
      split
      · have hd := sameLink_followDrift { prepared with previous := some s.hypocenter } d.locator.geodesy task.anchor
          s.hypocenter
        refine (planCommit_about _ d s now ?_).of_sameLink
          ⟨hd.id.trans hs.id, hd.quake.trans hs.quake, hd.revision.trans hs.revision⟩
        rw [hd.quake, hd.id]
        exact hown
      · exact (planDiscard_about { prepared with previous := some s.hypocenter } s hown).of_sameLink
          ⟨hs.id, hs.quake, hs.revision⟩

end Cluster

end Tremor
