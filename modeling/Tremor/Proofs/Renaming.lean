import Mathlib.Logic.Equiv.Basic
import Tremor.Proofs.PassPlan

/-!
# New quakes under other numbers

Plans that are carried out in another order give new quakes other numbers, and nothing else changes. `Plan.deeds`
carries out plans one after the other; `deeds_perm` finds the renaming that takes the deeds of one order to those of
another.

- `Quake.rename`, `Notice.rename`, `Outcome.rename`, `Cluster.rename`, `Deed.rename` : data under renamed quakes
- `Deed.rename_of_names` : a deed whose quakes keep their names stays as it is
- `deeds_perm` : plans in another order give the same deeds under renamed quakes
- `deeds_separate` : deeds for different clusters tell about different quakes
-/

namespace Tremor

/-! ## Renamed quakes -/

section Rename

variable (ρ : QuakeId → QuakeId)

def Quake.rename (q : Quake) : Quake := { q with id := ρ q.id }

def Notice.rename : Notice → Notice
  | created q => created (q.rename ρ)
  | updated q => updated (q.rename ρ)
  | removed id cluster => removed (ρ id) cluster
  | archived q => archived (q.rename ρ)

def Outcome.rename : Outcome → Outcome
  | committed id pct created => committed (ρ id) pct created
  | skipped reason => skipped reason
  | rejected condition => rejected condition
  | discarded pct => discarded pct

def Cluster.rename (c : Cluster) : Cluster := { c with quake := c.quake.map ρ }

def Deed.rename (e : Deed) : Deed :=
  { outcome := e.outcome.rename ρ, cluster := e.cluster.rename ρ, notice := e.notice.map (·.rename ρ) }

@[simp] theorem Notice.subject_rename (n : Notice) : (n.rename ρ).subject = ρ n.subject := by
  cases n <;> rfl

@[simp] theorem Notice.cluster_rename (n : Notice) : (n.rename ρ).cluster = n.cluster := by
  cases n <;> rfl

@[simp] theorem Notice.record_rename (n : Notice) : (n.rename ρ).record = n.record.map (·.rename ρ) := by
  cases n <;> rfl

@[simp] theorem Notice.isCreation_rename (n : Notice) : (n.rename ρ).isCreation = n.isCreation := by
  cases n <;> rfl

variable {ρ}

theorem Quake.rename_eq_self {q : Quake} (h : ρ q.id = q.id) : q.rename ρ = q := by
  rw [Quake.rename, h]

theorem Notice.rename_eq_self {n : Notice} (h : ρ n.subject = n.subject) : n.rename ρ = n := by
  cases n with
  | created q | updated q | archived q => exact congrArg _ (Quake.rename_eq_self h)
  | removed id cluster => exact congrArg (removed · cluster) h

theorem Cluster.rename_eq_self {c : Cluster} (h : ∀ id, c.quake = some id → ρ id = id) : c.rename ρ = c := by
  have hq : c.quake.map ρ = c.quake := by
    cases hc : c.quake with
    | none => rfl
    | some id => rw [Option.map_some, h id hc]
  rw [Cluster.rename, hq]

/-- A deed whose quakes keep their names stays as it is. -/
theorem Deed.rename_of_names {e : Deed} (h : e.Names fun id => ρ id = id) : e.rename ρ = e := by
  obtain ⟨outcome, cluster, notice⟩ := e
  obtain ⟨houtcome, hcluster, hnotice⟩ := h
  have ho : outcome.rename ρ = outcome := by
    cases outcome with
    | committed id pct created => exact congrArg (Outcome.committed · pct created) (houtcome id pct created rfl)
    | skipped | rejected | discarded => rfl
  have hn : notice.map (·.rename ρ) = notice := by
    cases notice with
    | none => rfl
    | some n => exact congrArg some (Notice.rename_eq_self (hnotice n rfl))
  simp only [Deed.rename, ho, Cluster.rename_eq_self hcluster, hn]

theorem Notice.rename_rename (ρ ρ' : QuakeId → QuakeId) (n : Notice) :
    (n.rename ρ).rename ρ' = n.rename (ρ' ∘ ρ) := by
  cases n <;> rfl

theorem Deed.rename_rename (ρ ρ' : QuakeId → QuakeId) (e : Deed) : (e.rename ρ).rename ρ' = e.rename (ρ' ∘ ρ) := by
  obtain ⟨outcome, cluster, notice⟩ := e
  have ho : (outcome.rename ρ).rename ρ' = outcome.rename (ρ' ∘ ρ) := by
    cases outcome <;> rfl
  have hc : (cluster.rename ρ).rename ρ' = cluster.rename (ρ' ∘ ρ) := by
    simp only [Cluster.rename, Option.map_map]
  have hn : (notice.map (·.rename ρ)).map (·.rename ρ') = notice.map (·.rename (ρ' ∘ ρ)) := by
    simp only [Option.map_map, Function.comp_def, Notice.rename_rename]
  simp only [Deed.rename, ho, hc, hn]

theorem Deed.rename_refl (e : Deed) : e.rename (Equiv.refl QuakeId) = e :=
  rename_of_names ⟨fun _ _ _ _ => rfl, fun _ _ => rfl, fun _ _ => rfl⟩

end Rename

/-! ## Plans in order -/

/-- The deeds of plans that are carried out one after the other; the first new quake gets the number `n`. -/
def Plan.deeds : List Plan → Nat → List Deed
  | [], _ => []
  | p :: ps, n => p.deed ⟨n⟩ :: deeds ps (n + if p.creates then 1 else 0)

/-- A plan names the new quake or one with a number below `n`. -/
def Plan.Known (n : Nat) (p : Plan) : Prop :=
  ∀ fresh, (p.deed fresh).Names fun id => p.creates = true ∧ id = fresh ∨ p.creates = false ∧ id.number < n

theorem Plan.About.known {c : Cluster} {p : Plan} {n : Nat} (h : p.About c)
    (hc : ∀ id, c.quake = some id → id.number < n) : p.Known n := by
  intro fresh
  exact (h.names fresh).mono fun id hid => hid.imp_right fun ⟨hp, hq⟩ => ⟨hp, hc id hq⟩

namespace Plan.Known

variable {p : Plan} {n m : Nat} {ρ : QuakeId → QuakeId}

theorem mono (h : p.Known n) (hm : n ≤ m) : p.Known m := by
  intro fresh
  exact (h fresh).mono fun id hid => hid.imp_right fun ⟨hp, hn⟩ => ⟨hp, Nat.lt_of_lt_of_le hn hm⟩

/-- A deed stays as it is when the old quakes keep their names, and so does the new one if there is one. -/
theorem rename_deed (h : p.Known n) (hρ : ∀ id, id.number < n → ρ id = id) {fresh : QuakeId}
    (hf : p.creates = true → ρ fresh = fresh) : (p.deed fresh).rename ρ = p.deed fresh := by
  refine Deed.rename_of_names ((h fresh).mono fun id hid => ?_)
  rcases hid with ⟨hp, rfl⟩ | ⟨-, hid⟩
  · exact hf hp
  · exact hρ id hid

end Plan.Known

/-- Deeds of plans stay as they are when no quake that they can name gets another name. -/
theorem map_rename_deeds {ps : List Plan} {n m : Nat} {ρ : QuakeId → QuakeId} (hps : ∀ p ∈ ps, p.Known n)
    (hρ : ∀ id, id.number < n ∨ m ≤ id.number → ρ id = id) :
    (Plan.deeds ps m).map (·.rename ρ) = Plan.deeds ps m := by
  induction ps generalizing m with
  | nil => rfl
  | cons p ps ih =>
    have hhead := (hps p List.mem_cons_self).rename_deed (fun id hid => hρ id (Or.inl hid))
      fun _ => hρ ⟨m⟩ (Or.inr (Nat.le_refl m))
    have htail := ih (fun q hq => hps q (List.mem_cons_of_mem _ hq)) fun id hid =>
      hρ id (hid.imp_right (Nat.le_trans (Nat.le_add_right m (if p.creates then 1 else 0))))
    rw [Plan.deeds, List.map_cons, hhead, htail]

/-- A new quake under a name or under another one. -/
theorem rename_deed_creating (ρ : QuakeId → QuakeId) (pct : Float) (c : Cluster) (record : Quake) (fresh : QuakeId) :
    ((Plan.creating pct c record).deed fresh).rename ρ = (Plan.creating pct c record).deed (ρ fresh) := rfl

/-- Two plans in the other order: if both give new quakes, these exchange their numbers. -/
theorem deeds_swap (p q : Plan) {ps : List Plan} {n : Nat} (hps : ∀ p ∈ ps, p.Known n) :
    ∃ ρ : Equiv.Perm QuakeId,
      (∀ id, id.number < n ∨ n + (q :: p :: ps).countP (·.creates) ≤ id.number → ρ id = id) ∧
        (Plan.deeds (p :: q :: ps) n).Perm ((Plan.deeds (q :: p :: ps) n).map (·.rename ρ)) := by
  have hsame : ∀ ds : List Deed, ds.map (·.rename (Equiv.refl QuakeId)) = ds := fun ds => by
    rw [List.map_congr_left fun e _ => Deed.rename_refl e, List.map_id']
  cases p with
  | settled e =>
    refine ⟨Equiv.refl _, fun _ _ => rfl, ?_⟩
    rw [hsame]
    exact List.Perm.swap _ _ _
  | creating pct c r =>
    cases q with
    | settled e =>
      refine ⟨Equiv.refl _, fun _ _ => rfl, ?_⟩
      rw [hsame]
      exact List.Perm.swap _ _ _
    | creating pct' c' r' =>
      have hout : ∀ id : QuakeId, id.number < n ∨ n + 2 ≤ id.number → Equiv.swap ⟨n⟩ ⟨n + 1⟩ id = id := by
        intro id hid
        refine Equiv.swap_apply_of_ne_of_ne ?_ ?_ <;> rintro rfl <;> simp only at hid <;> omega
      refine ⟨Equiv.swap ⟨n⟩ ⟨n + 1⟩, fun id hid => hout id (hid.imp_right fun hle => ?_), ?_⟩
      · simp only [List.countP_cons, Plan.creates, if_true] at hle
        omega
      · have hrest := map_rename_deeds (m := n + 2) hps hout
        simp only [Plan.deeds, Plan.creates, if_true, List.map_cons, rename_deed_creating, Equiv.swap_apply_left,
          Equiv.swap_apply_right, hrest]
        exact List.Perm.swap _ _ _

/-- Plans in another order give the same deeds, the new quakes among them under other numbers. -/
theorem deeds_perm {ps ps' : List Plan} (hp : ps.Perm ps') {n : Nat} (hps : ∀ p ∈ ps, p.Known n) :
    ∃ ρ : Equiv.Perm QuakeId,
      (∀ id, id.number < n ∨ n + ps.countP (·.creates) ≤ id.number → ρ id = id) ∧
        (Plan.deeds ps' n).Perm ((Plan.deeds ps n).map (·.rename ρ)) := by
  induction hp generalizing n with
  | nil => exact ⟨Equiv.refl _, fun _ _ => rfl, List.Perm.nil⟩
  | @cons p ps ps' _ ih =>
    have hle : n ≤ n + if p.creates then 1 else 0 := Nat.le_add_right _ _
    obtain ⟨ρ, hρ, hd⟩ := ih (n := n + if p.creates then 1 else 0) fun q hq =>
      (hps q (List.mem_cons_of_mem _ hq)).mono hle
    refine ⟨ρ, fun id hid => hρ id ?_, ?_⟩
    · rcases hid with hid | hid
      · exact Or.inl (Nat.lt_of_lt_of_le hid hle)
      · rw [List.countP_cons] at hid
        exact Or.inr (by omega)
    · have hhead : (p.deed ⟨n⟩).rename ρ = p.deed ⟨n⟩ :=
        (hps p List.mem_cons_self).rename_deed (fun id hid => hρ id (Or.inl (Nat.lt_of_lt_of_le hid hle)))
          fun hc => hρ ⟨n⟩ (Or.inl (by simp [hc]))
      rw [Plan.deeds, Plan.deeds, List.map_cons, hhead]
      exact hd.cons _
  | swap p q ps => exact deeds_swap p q fun r hr => hps r (List.mem_cons_of_mem _ (List.mem_cons_of_mem _ hr))
  | @trans ps qs rs hpq _ ihp ihq =>
    obtain ⟨ρ, hρ, hd⟩ := ihp hps
    obtain ⟨ρ', hρ', hd'⟩ := ihq fun q hq => hps q (hpq.mem_iff.mpr hq)
    refine ⟨ρ.trans ρ', fun id hid => ?_, ?_⟩
    · rw [Equiv.trans_apply, hρ id hid, hρ' id (by rwa [← hpq.countP_eq])]
    · refine hd'.trans ((hd.map _).trans (List.Perm.of_eq ?_))
      rw [List.map_map]
      exact List.map_congr_left fun e _ => Deed.rename_rename ρ ρ' e

theorem mem_deeds {ps : List Plan} {n : Nat} {e : Deed} (he : e ∈ Plan.deeds ps n) :
    ∃ p ∈ ps, ∃ m, n ≤ m ∧ e = p.deed ⟨m⟩ := by
  induction ps generalizing n with
  | nil => cases he
  | cons p ps ih =>
    rcases List.mem_cons.mp he with rfl | he
    · exact ⟨p, List.mem_cons_self, n, Nat.le_refl n, rfl⟩
    · obtain ⟨q, hq, m, hm, rfl⟩ := ih he
      exact ⟨q, List.mem_cons_of_mem _ hq, m, Nat.le_trans (Nat.le_add_right _ _) hm, rfl⟩

/-- The deeds of plans for clusters leave one cluster each. -/
theorem deeds_clusters {plan : Cluster → Plan} {cs : List Cluster} {n : Nat} (habout : ∀ c ∈ cs, (plan c).About c) :
    (Plan.deeds (cs.map plan) n).map (·.cluster.id) = cs.map (·.id) := by
  induction cs generalizing n with
  | nil => rfl
  | cons c cs ih =>
    simp only [List.map_cons, Plan.deeds, (habout c List.mem_cons_self).cluster,
      ih fun b hb => habout b (List.mem_cons_of_mem _ hb)]

/-- What one deed tells. -/
theorem filterMap_notice_singleton (e : Deed) : [e].filterMap (·.notice) = e.notice.toList := by
  rw [List.filterMap_cons]
  cases e.notice <;> rfl

/-- Deeds tell of as many new quakes as were planned. -/
theorem deeds_creations {plan : Cluster → Plan} {cs : List Cluster} {n : Nat} (habout : ∀ c ∈ cs, (plan c).About c) :
    ((Plan.deeds (cs.map plan) n).filterMap (·.notice)).countP (·.isCreation) = (cs.map plan).countP (·.creates) := by
  induction cs generalizing n with
  | nil => rfl
  | cons c cs ih =>
    rw [List.map_cons, Plan.deeds, ← List.singleton_append, List.filterMap_append, List.countP_append,
      filterMap_notice_singleton, (habout c List.mem_cons_self).creations,
      ih fun b hb => habout b (List.mem_cons_of_mem _ hb), List.countP_cons, Nat.add_comm]

/-- Deeds for clusters that know different quakes tell about different quakes. -/
theorem deeds_separate {plan : Cluster → Plan} {cs : List Cluster} {n m : Nat}
    (habout : ∀ c ∈ cs, (plan c).About c) (hknown : ∀ c ∈ cs, ∀ id, c.quake = some id → id.number < n) (hm : n ≤ m)
    (hne : cs.Pairwise fun a b => ∀ id, a.quake = some id → b.quake ≠ some id) :
    (Plan.deeds (cs.map plan) m).Pairwise fun a b => ∀ x ∈ a.notice, ∀ y ∈ b.notice, x.subject ≠ y.subject := by
  induction cs generalizing m with
  | nil => exact List.Pairwise.nil
  | cons c cs ih =>
    rw [List.pairwise_cons] at hne
    have hle : m ≤ m + if (plan c).creates then 1 else 0 := Nat.le_add_right _ _
    refine List.pairwise_cons.mpr ⟨fun e he x hx y hy hxy => ?_,
      ih (fun b hb => habout b (List.mem_cons_of_mem _ hb)) (fun b hb => hknown b (List.mem_cons_of_mem _ hb))
        (Nat.le_trans hm hle) hne.2⟩
    obtain ⟨_, hp, i, hi, rfl⟩ := mem_deeds he
    obtain ⟨b, hb, rfl⟩ := List.mem_map.mp hp
    have hxc := ((habout c List.mem_cons_self).names ⟨m⟩).notice x hx
    have hyb := ((habout b (List.mem_cons_of_mem _ hb)).names ⟨i⟩).notice y hy
    have hold : ∀ id, b.quake = some id → id.number < m := fun id hid =>
      Nat.lt_of_lt_of_le (hknown b (List.mem_cons_of_mem _ hb) id hid) hm
    rw [← hxy] at hyb
    rcases hxc with ⟨hc, hx⟩ | ⟨-, hx⟩
    · rcases hyb with ⟨-, hy⟩ | ⟨-, hy⟩
      · -- both are new, and the later one has the greater number
        rw [hc] at hi
        simp only [hx, QuakeId.mk.injEq] at hy
        simp only [if_true] at hi
        omega
      · have := hold _ hy
        simp only [hx] at this
        omega
    · rcases hyb with ⟨-, hy⟩ | ⟨-, hy⟩
      · have hlt := hknown c List.mem_cons_self _ hx
        rw [hy] at hlt
        simp only at hlt
        omega
      · exact hne.1 b hb _ hx hy

end Tremor
