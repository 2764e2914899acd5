import Mathlib.Data.List.Chain
import Tremor.Proofs.Registry
import Tremor.Quake.Catalog

/-!
# What is told about a quake

The notices about one quake tell its life: it is created, updated any number of times, and ended at most once.
`Told` follows them one by one, together with the revision of the quake while it is live; `Catalog.Sound` says that
this is the revision in the registry.

- `LifeCycle` : the shape of the notices about one quake
- `Told.lifeCycle`, `Told.live_iff` : the shape of what was told, and what it says of the registry
- `Sound.tell` : a change of one record that is told
- `Sound.enrol`, `Sound.amend`, `Sound.withdraw`, `Sound.retire`, `Sound.modify` : every change of the catalog keeps it
-/

namespace Tremor

/-! ## Notices about one quake -/

/-- The quake that a notice is about. -/
def Notice.subject : Notice → QuakeId
  | created q => q.id
  | updated q => q.id
  | removed id _ => id
  | archived q => q.id

/-- Whether a notice says that its quake is no longer live. -/
def Notice.isFinal : Notice → Bool
  | removed _ _ => true
  | archived _ => true
  | _ => false

/-- The notices about a quake, in the order in which they were published. -/
def Bus.about (b : Bus) (id : QuakeId) : List Notice := b.notices.toList.filter (·.subject == id)

theorem Bus.about_create (capacity : Nat) (id : QuakeId) : (Bus.create capacity).about id = [] := by
  simp [about, notices, create]

theorem Bus.about_publish (b : Bus) (n : Notice) (id : QuakeId) :
    (b.publish n).about id = b.about id ++ if n.subject = id then [n] else [] := by
  by_cases h : n.subject = id <;> simp [about, List.filter_append, h]

theorem Bus.about_archive (qs : List Quake) (b : Bus) (id : QuakeId) :
    (qs.foldl (fun bus q => bus.publish (.archived q)) b).about id =
      b.about id ++ (qs.filter (·.id == id)).map .archived := by
  induction qs generalizing b with
  | nil => simp
  | cons q qs ih =>
    rw [List.foldl_cons, ih, about_publish]
    by_cases h : q.id = id <;> simp [Notice.subject, h]

/-! ## Lives -/

/-- Every record has the revision after that of the record before. -/
def Successive (qs : List Quake) : Prop := qs.IsChain fun a b => b.revision = a.revision + 1

/-- One creation, any number of updates with successive revisions, and at most one final notice. -/
def LifeCycle (ns : List Notice) : Prop :=
  ∃ first later last, ns = (.created first :: later.map .updated) ++ last ∧ Successive (first :: later) ∧
    last.length ≤ 1 ∧ ∀ n ∈ last, n.isFinal

/-- What may be told about a quake, notice by notice, with its revision while it is live. -/
inductive Told : List Notice → Option UInt32 → Prop
  | nothing : Told [] none
  | created (q : Quake) : Told [.created q] (some q.revision)
  | updated {ns : List Notice} {revision : UInt32} (h : Told ns (some revision)) (q : Quake)
      (hq : q.revision = revision + 1) : Told (ns ++ [.updated q]) (some q.revision)
  | ended {ns : List Notice} {revision : UInt32} (h : Told ns (some revision)) (n : Notice) (hn : n.isFinal) :
      Told (ns ++ [n]) none

theorem Told.eq_none {revision : Option UInt32} (h : Told [] revision) : revision = none := by
  generalize hn : ([] : List Notice) = ns at h
  cases h with
  | nothing => rfl
  | created => cases hn
  | updated => simp at hn
  | ended => rfl

/-- What was told about a live quake: its creation and its revisions so far. -/
theorem Told.live {ns : List Notice} {revision : UInt32} (h : Told ns (some revision)) :
    ∃ first later, ns = .created first :: later.map .updated ∧ Successive (first :: later) ∧
      ∃ q ∈ (first :: later).getLast?, q.revision = revision := by
  generalize hr : some revision = live at h
  induction h generalizing revision with
  | nothing => cases hr
  | created q =>
    cases hr
    exact ⟨q, [], rfl, List.IsChain.singleton q, q, rfl, rfl⟩
  | updated h q hq ih =>
    cases hr
    obtain ⟨first, later, rfl, hs, last, hl, hrev⟩ := ih rfl
    refine ⟨first, later ++ [q], by simp, ?_, q, ?_, rfl⟩
    · refine (List.cons_append ▸ hs.append (List.IsChain.singleton q) fun x hx y hy => ?_)
      cases Option.mem_unique hx hl
      cases Option.mem_some.mp hy
      rw [hq, hrev]
    · rw [← List.cons_append]
      exact List.getLast?_concat
  | ended => cases hr

/-- What was told is nothing or the life of a quake. -/
theorem Told.lifeCycle {ns : List Notice} {revision : Option UInt32} (h : Told ns revision) :
    ns = [] ∨ LifeCycle ns := by
  cases h with
  | nothing => exact Or.inl rfl
  | created q => exact Or.inr ⟨q, [], [], rfl, List.IsChain.singleton q, Nat.zero_le 1, by simp⟩
  | updated h q hq =>
    obtain ⟨first, later, he, hs, -⟩ := (h.updated q hq).live
    exact Or.inr ⟨first, later, [], by rw [he, List.append_nil], hs, Nat.zero_le 1, by simp⟩
  | ended h n hn =>
    obtain ⟨first, later, rfl, hs, -⟩ := h.live
    exact Or.inr ⟨first, later, [n], rfl, hs, Nat.le_refl 1, by simpa using hn⟩

/-- A quake is live when its creation was told and its end was not. -/
theorem Told.live_iff {ns : List Notice} {revision : Option UInt32} (h : Told ns revision) :
    revision.isSome ↔ (∃ q, .created q ∈ ns) ∧ ∀ n ∈ ns, n.isFinal = false := by
  have halive : ∀ {ns revision}, Told ns (some revision) →
      (∃ q, .created q ∈ ns) ∧ ∀ n ∈ ns, n.isFinal = false := by
    intro ns revision h
    obtain ⟨first, later, rfl, -⟩ := h.live
    refine ⟨⟨first, List.mem_cons_self⟩, fun n hn => ?_⟩
    rcases List.mem_cons.mp hn with rfl | hn
    · rfl
    · obtain ⟨q, -, rfl⟩ := List.mem_map.mp hn
      rfl
  cases h with
  | nothing => simp
  | created q => exact ⟨fun _ => halive (.created q), fun _ => rfl⟩
  | updated h q hq => exact ⟨fun _ => halive (h.updated q hq), fun _ => rfl⟩
  | ended h n hn => simp [hn]

/-! ## Every change of the catalog -/

namespace Catalog

/-- Nothing was told about quakes still to come, something about each one whose number was given, and what was told
about any one is its life so far. -/
structure Sound (k : Catalog) : Prop where
  distinct : k.registry.Distinct
  fresh : ∀ id, k.next ≤ id.number → k.bus.about id = []
  given : ∀ id, 0 < id.number → id.number < k.next → k.bus.about id ≠ []
  told : ∀ id, Told (k.bus.about id) ((k.registry.get? id).map (·.revision))

variable {k k' : Catalog}

theorem Sound.number_lt (h : k.Sound) {id : QuakeId} {q : Quake} (hq : k.registry.get? id = some q) :
    id.number < k.next := by
  refine Nat.lt_of_not_le fun hle => ?_
  have hn := (h.fresh id hle ▸ h.told id).eq_none
  rw [hq] at hn
  cases hn

/-- A notice about one quake that is told together with the change of its record. A number that is given with it is the
one of that quake. -/
theorem Sound.tell (h : k.Sound) {r : Registry} {n : Notice} {next : Nat} (hd : r.Distinct) (hle : k.next ≤ next)
    (hlt : n.subject.number < next) (hgiven : ∀ i : QuakeId, k.next ≤ i.number → i.number < next → n.subject = i)
    (hrest : ∀ i, n.subject ≠ i → r.get? i = k.registry.get? i)
    (ht : Told (k.bus.about n.subject ++ [n]) ((r.get? n.subject).map (·.revision))) :
    Sound { registry := r, bus := k.bus.publish n, next } where
  distinct := hd
  fresh i hi := by
    have hne : n.subject ≠ i := by
      rintro rfl
      exact Nat.not_lt.mpr hi hlt
    rw [Bus.about_publish, if_neg hne, List.append_nil]
    exact h.fresh i (Nat.le_trans hle hi)
  given i hpos hi := by
    rw [Bus.about_publish]
    rcases Nat.lt_or_ge i.number k.next with hold | hnew
    · exact List.append_ne_nil_of_left_ne_nil (h.given i hpos hold) _
    · rw [if_pos (hgiven i hnew hi)]
      exact List.append_ne_nil_of_right_ne_nil _ (List.cons_ne_nil _ _)
  told i := by
    rw [Bus.about_publish]
    by_cases hi : n.subject = i
    · subst hi
      rw [if_pos rfl]
      exact ht
    · rw [if_neg hi, List.append_nil, hrest i hi]
      exact h.told i

theorem Sound.enrol (h : k.Sound) {build : QuakeId → Quake} (hb : ∀ id, (build id).id = id) :
    (k.enrol build).2.Sound := by
  have hs : (Notice.created (build ⟨k.next⟩)).subject = ⟨k.next⟩ := hb _
  refine h.tell (h.distinct.insert _) (Nat.le_succ _) ?_ (fun i hle hlt => ?_) (fun i hi => ?_) ?_
  · rw [hs]
    exact Nat.lt_succ_self _
  · rw [hs, Nat.le_antisymm hle (Nat.le_of_lt_succ hlt)]
  · exact (Registry.get?_insert _ _).trans (if_neg hi)
  · have hget := (Registry.get?_insert k.registry (build ⟨k.next⟩)).trans (if_pos rfl)
    rw [h.fresh _ (by rw [hs])]
    exact hget ▸ Told.created (build ⟨k.next⟩)

theorem Sound.amend (h : k.Sound) {id : QuakeId} {change : Quake → Quake} (hid : ∀ q, q.id = id → (change q).id = id)
    (hrev : ∀ q, k.registry.get? id = some q → (change q).revision = q.revision + 1)
    (hk : k.amend id change = some k') : k'.Sound := by
  obtain ⟨q, hq, rfl⟩ := Option.map_eq_some_iff.mp hk
  have hs : (Notice.updated (change q)).subject = id := hid q (Registry.mem_of_get? hq).2
  have ht := h.told id
  refine h.tell (h.distinct.modify hid) (Nat.le_refl _) ?_ (fun i hle hlt => absurd hlt (Nat.not_lt.mpr hle))
    (fun i hi => ?_) ?_
  · rw [hs]
    exact h.number_lt hq
  · exact Registry.get?_modify_of_ne _ hid (hs ▸ hi)
  · rw [hq] at ht
    rw [hs, Registry.get?_modify_self _ hid, hq]
    exact ht.updated (change q) (hrev q hq)

theorem next_withdraw (k : Catalog) (id : QuakeId) (cluster : ClusterId) : (k.withdraw id cluster).next = k.next := by
  unfold Catalog.withdraw
  split <;> rfl

theorem get?_withdraw (k : Catalog) (id i : QuakeId) (cluster : ClusterId) :
    (k.withdraw id cluster).registry.get? i = if id = i then none else k.registry.get? i := by
  unfold Catalog.withdraw
  split
  · exact Registry.get?_remove _
  · rename_i hc
    split
    · rename_i hi
      subst hi
      simpa [Registry.contains_eq_isSome] using hc
    · rfl

theorem Sound.withdraw (h : k.Sound) (id : QuakeId) (cluster : ClusterId) : (k.withdraw id cluster).Sound := by
  unfold Catalog.withdraw
  split
  · rename_i hc
    rw [Registry.contains_eq_isSome] at hc
    obtain ⟨q, hq⟩ := Option.isSome_iff_exists.mp hc
    have ht := h.told id
    refine h.tell (h.distinct.remove id) (Nat.le_refl _) (h.number_lt hq)
      (fun i hle hlt => absurd hlt (Nat.not_lt.mpr hle)) (fun i hi => ?_) ?_
    · exact (Registry.get?_remove _).trans (if_neg hi)
    · have hget : (k.registry.remove id).get? id = none := (Registry.get?_remove _).trans (if_pos rfl)
      rw [hq] at ht
      exact hget ▸ ht.ended (.removed id cluster) rfl
  · exact h

theorem Sound.retire {Sink : Type} (h : k.Sound) (store : Sink → Quake → Sink) (now : Int64) (sink : Sink) :
    (k.retire store now sink).2.1.Sound := by
  have habout : ∀ id, (k.retire store now sink).2.1.bus.about id =
      k.bus.about id ++ ((k.registry.get? id).filter (·.expired now)).toList.map .archived := fun id => by
    rw [← Registry.expired_filter h.distinct]
    exact Bus.about_archive _ _ _
  have hget : ∀ id, (k.retire store now sink).2.1.registry.get? id =
      (k.registry.get? id).filter fun q => !q.expired now := fun id => Registry.get?_sweep h.distinct store now sink
  refine ⟨h.distinct.sweep store now sink, fun id hle => ?_, fun id hpos hlt => ?_, fun id => ?_⟩
  · have hn : k.registry.get? id = none :=
      Option.eq_none_iff_forall_ne_some.mpr fun q hq => Nat.not_lt.mpr hle (h.number_lt hq)
    simp [habout, hn, h.fresh id hle]
  · rw [habout]
    exact List.append_ne_nil_of_left_ne_nil (h.given id hpos hlt) _
  · have ht := h.told id
    rw [habout, hget]
    cases hq : k.registry.get? id with
    | none => simpa [hq] using ht
    | some q =>
      rw [hq] at ht
      cases hx : q.expired now
      · simpa [Option.filter, hx] using ht
      · simpa [Option.filter, hx] using ht.ended (.archived q) rfl

/-- A change of a live record that keeps its identity and revision and is not told. -/
theorem Sound.modify (h : k.Sound) {id : QuakeId} {f : Quake → Quake} (hid : ∀ q, (f q).id = q.id)
    (hrev : ∀ q, (f q).revision = q.revision) : { k with registry := k.registry.modify id f }.Sound := by
  have hf : ∀ q, q.id = id → (f q).id = id := fun q hq => (hid q).trans hq
  refine ⟨h.distinct.modify hf, h.fresh, h.given, fun i => ?_⟩
  have ht := h.told i
  rw [Registry.get?_modify _ hf]
  cases hq : k.registry.get? i with
  | none => simpa [hq] using ht
  | some q =>
    rw [hq] at ht
    by_cases hi : q.id = id <;> simpa [hi, hrev] using ht

end Catalog

end Tremor
