import Mathlib.Data.List.Perm.Basic
import Tremor.Proofs.NearbyDoubles
import Tremor.Proofs.Registry
import Tremor.Proofs.Words

/-!
# What a sweep takes out

A sweep finds the quakes that have outlived their magnitude, hands them over one after another while all of them are
still live, and only then removes them, again one after another. As no two live quakes have one identity, that leaves
the others as they were. What has expired once stays expired, so that sweeping more often archives nothing else.

- `retention_spec` : how long quakes are kept
- `Quake.expired_iff`, `Quake.expired_iff_doubles` : when a quake has expired, in whole numbers and as doubles
- `sweepInTurn_eq` : one removal after another
- `sweep_archives` : what a sweep archives, removes and leaves, and what a later one finds
-/

namespace Tremor

open Number

/-! ## Expiry -/

/-- Quakes are kept for three to forty minutes. -/
theorem retention_spec (mag : Float) :
    ∃ m : Int, 3 ≤ m ∧ m ≤ 40 ∧ (retention mag).toInt = 60000 * m ∧ (retention mag / 4).toInt = 15000 * m := by
  have htable : ∀ i : Fin 10, ∃ m ∈ List.range 41, 3 ≤ m ∧
      (retentionTable.getD i 0 * 60 * 1000).toInt = 60000 * m ∧
      (retentionTable.getD i 0 * 60 * 1000 / 4).toInt = 15000 * m := by decide
  obtain ⟨m, hm, hlow, hwindow, hquarter⟩ := htable ⟨min (truncate mag).toInt.toNat 9, by omega⟩
  rw [List.mem_range] at hm
  exact ⟨m, by omega, by omega, hwindow, hquarter⟩

theorem hasValue_quarter : HasValue 0.25 (1 / 4) := by
  have hunpack : (0.25 : Float).toModel.unpack = .finite .positive 4503599627370496 (-54) (by decide) := rfl
  convert hasValue_of_unpack hunpack using 1
  norm_num [signed]

namespace Quake

variable {q : Quake} {now later : Int64}

/-- The times since the origin and since the last revision fit into words. -/
structure Datable (q : Quake) (now : Int64) : Prop where
  origin : InWord (now.toInt - q.origin.toInt)
  updated : InWord (now.toInt - q.updated.toInt)

/-- A quake started longer ago than it is kept, and was not revised for more than a quarter of that time. -/
def Outlived (q : Quake) (now : Int64) : Prop :=
  (retention q.mag.toFloat).toInt < now.toInt - q.origin.toInt ∧
    (retention q.mag.toFloat).toInt < 4 * (now.toInt - q.updated.toInt)

theorem expired_iff (h : q.Datable now) : q.expired now = true ↔ q.Outlived now := by
  obtain ⟨m, -, -, hwindow, hquarter⟩ := retention_spec q.mag.toFloat
  rw [expired, Bool.and_eq_true, decide_eq_true_iff, decide_eq_true_iff, Int64.lt_iff_toInt_lt, Int64.lt_iff_toInt_lt,
    toInt_sub_of_inWord h.origin, toInt_sub_of_inWord h.updated, hwindow, hquarter, Outlived, hwindow]
  refine and_congr_right fun _ => ?_
  omega

theorem Outlived.mono (h : q.Outlived now) (hle : now ≤ later) : q.Outlived later := by
  rw [Int64.le_iff_toInt_le] at hle
  exact ⟨by have := h.1; omega, by have := h.2; omega⟩

/-- What has expired stays expired. -/
theorem expired_mono (h : q.Datable now) (h' : q.Datable later) (hle : now ≤ later) (hq : q.expired now = true) :
    q.expired later = true :=
  (expired_iff h').mpr (((expired_iff h).mp hq).mono hle)

/-- A quarter of the time that a quake is kept can be taken in doubles as well. -/
theorem expired_iff_doubles (q : Quake) (now : Int64) :
    q.expired now = true ↔ retention q.mag.toFloat < now - q.origin ∧
      0.25 * ofInt64 (retention q.mag.toFloat) < ofInt64 (now - q.updated) := by
  obtain ⟨m, hlow, hhigh, hwindow, hquarter⟩ := retention_spec q.mag.toFloat
  rw [expired, Bool.and_eq_true, decide_eq_true_iff, decide_eq_true_iff]
  refine and_congr_right fun _ => ?_
  rw [Int64.lt_iff_toInt_lt, hquarter]
  generalize now - q.updated = age
  -- the quarter is a whole number, and so is the next one after it, which no age before it is rounded up to
  obtain ⟨x, hx⟩ := exists_hasValue_whole (i := 15000 * m) (abs_lt.mpr (by omega))
  obtain ⟨y, hy⟩ := exists_hasValue_whole (i := 15000 * m + 1) (abs_lt.mpr (by omega))
  have hquarter' : HasValue (0.25 * ofInt64 (retention q.mag.toFloat)) (15000 * m : Int) := by
    have hwhole := hasValue_ofInt64 (i := retention q.mag.toFloat) (abs_lt.mpr (by omega))
    have hproduct := faithful_mul hasValue_quarter hwhole
    have hexact : (1 / 4 : ℚ) * (retention q.mag.toFloat).toInt = (15000 * m : Int) := by
      rw [hwindow]
      push_cast
      ring
    rw [hexact] at hproduct
    exact hproduct.hasValue hx
  have hage := faithful_ofInt64 age
  constructor
  · intro hlt
    have hge : y ≤ ofInt64 age := hage.le_of_le hy (by exact_mod_cast hlt)
    by_contra hno
    have hle := Number.le_trans hge (Number.le_of_not_lt (le_iff.mp hge).2.1 hquarter'.le_self hno)
    rw [le_iff_of_hasValue hy hquarter', Int.cast_le] at hle
    omega
  · intro hlt
    by_contra hle
    exact (le_iff.mp (hage.ge_of_ge hquarter' (by exact_mod_cast not_lt.mp hle))).2.2 hlt

end Quake

namespace Registry

variable {r : Registry} {now later : Int64} {Sink : Type}

/-! ## One removal after another -/

/-- Removes the records with the identities of given ones, one after another, and gives those that were still live. -/
def removeInTurn : Registry → List Quake → List Quake × Registry
  | r, [] => ([], r)
  | r, q :: qs =>
    match r.get? q.id with
    | none => r.removeInTurn qs
    | some live =>
      let (removed, r) := (r.remove q.id).removeInTurn qs
      (live :: removed, r)

/-- A sweep step by step. The sink may look at the registry when it takes in a record. -/
def sweepInTurn (watch : Registry → Sink → Quake → Sink) (r : Registry) (now : Int64) (sink : Sink) :
    List Quake × Registry × Sink :=
  let expired := r.expired now
  let sink := expired.foldl (watch r) sink
  let (removed, r) := r.removeInTurn expired
  (removed, r, sink)

/-- Records that are live are all found when they are removed in turn. -/
theorem removeInTurn_eq (h : r.Distinct) {qs : List Quake} (hlive : ∀ q ∈ qs, q ∈ r.quakes)
    (hqs : (qs.map (·.id)).Nodup) :
    r.removeInTurn qs = (qs, { quakes := r.quakes.filter fun p => decide (p.id ∉ qs.map (·.id)) }) := by
  induction qs generalizing r with
  | nil => simp [removeInTurn]
  | cons q qs ih =>
    rw [List.map_cons, List.nodup_cons] at hqs
    have hrest : ∀ p ∈ qs, p ∈ (r.remove q.id).quakes := by
      intro p hp
      refine List.mem_filter.mpr ⟨hlive p (List.mem_cons_of_mem _ hp), ?_⟩
      have hne : p.id ≠ q.id := fun he => hqs.1 (he ▸ List.mem_map_of_mem hp)
      simpa using hne
    have hlast := ih (h.remove q.id) hrest hqs.2
    simp only [removeInTurn, h.get?_of_mem (hlive q List.mem_cons_self), hlast]
    congr 2
    rw [remove, List.filter_filter]
    refine List.filter_congr fun p _ => ?_
    by_cases hp : p.id = q.id <;> simp [hp]

/-- The records that stay are those that have not expired. -/
theorem Distinct.filter_not_mem (h : r.Distinct) (p : Quake → Bool) :
    (r.quakes.filter fun q => decide (q.id ∉ (r.quakes.filter p).map (·.id))) = r.quakes.filter fun q => !p q := by
  refine List.filter_congr fun q hq => ?_
  cases hp : p q with
  | true =>
    have hmem : q.id ∈ (r.quakes.filter p).map (·.id) := List.mem_map_of_mem (List.mem_filter.mpr ⟨hq, hp⟩)
    simp only [hmem, not_true_eq_false, decide_false, Bool.not_true]
  | false =>
    have hmem : q.id ∉ (r.quakes.filter p).map (·.id) := by
      intro hmem
      obtain ⟨q', hq', hid⟩ := List.mem_map.mp hmem
      obtain ⟨hlive, hp'⟩ := List.mem_filter.mp hq'
      have hsame := h.get?_of_mem hlive
      rw [hid, h.get?_of_mem hq, Option.some.injEq] at hsame
      rw [← hsame, hp] at hp'
      cases hp'
    simp only [hmem, not_false_eq_true, decide_true, Bool.not_false]

/-- A sweep step by step is a sweep. -/
theorem sweepInTurn_eq (h : r.Distinct) (watch : Registry → Sink → Quake → Sink) (now : Int64) (sink : Sink) :
    r.sweepInTurn watch now sink = r.sweep (watch r) now sink := by
  have hlive : ∀ q ∈ r.expired now, q ∈ r.quakes := fun q hq => List.mem_of_mem_filter hq
  have hnodup : ((r.expired now).map (·.id)).Nodup := h.sublist (List.filter_sublist.map _)
  have hturn := removeInTurn_eq h hlive hnodup
  rw [expired, h.filter_not_mem] at hturn
  simp only [sweepInTurn, sweep, expired, hturn]

/-! ## Sweeps -/

/-- A sweep has taken out the records `archived`, which are those that have outlived their magnitude, each once, and has
left the registry `r'`, which are the others. -/
structure Swept (r r' : Registry) (now : Int64) (archived : List Quake) : Prop where
  mem_iff : ∀ q, q ∈ archived ↔ q ∈ r.quakes ∧ q.Outlived now
  nodup : (archived.map (·.id)).Nodup
  others : r.quakes.Perm (archived ++ r'.quakes)

theorem swept_sweep (hr : r.Distinct) (hnow : ∀ q ∈ r.quakes, q.Datable now) (store : Sink → Quake → Sink)
    (sink : Sink) : r.Swept (r.sweep store now sink).2.1 now (r.sweep store now sink).1 where
  mem_iff q := by
    rw [sweep, expired, List.mem_filter]
    exact and_congr_right fun hq => Quake.expired_iff (hnow q hq)
  nodup := hr.sublist (List.filter_sublist.map _)
  others := (List.filter_append_perm (fun q : Quake => q.expired now) r.quakes).symm

/-- Where nothing has expired, a sweep changes nothing. -/
theorem sweep_of_forall_not (h : ∀ q ∈ r.quakes, q.expired now = false) (store : Sink → Quake → Sink) (sink : Sink) :
    r.sweep store now sink = ([], r, sink) := by
  have hexpired : r.expired now = [] := by
    refine List.filter_eq_nil_iff.mpr fun q hq => ?_
    rw [h q hq]
    exact Bool.false_ne_true
  have hrest : (r.quakes.filter fun q => !q.expired now) = r.quakes := by
    refine List.filter_eq_self.mpr fun q hq => ?_
    rw [h q hq, Bool.not_false]
  simp only [sweep, hexpired, hrest, List.foldl_nil]

/-- A sweep after another one, of what that has left in any order, leaves and archives the same as a single one. -/
theorem sweep_after {r' : Registry} (hnow : ∀ q ∈ r.quakes, q.Datable now)
    (hlater : ∀ q ∈ r.quakes, q.Datable later) (hle : now ≤ later)
    (hr' : r'.quakes.Perm (r.quakes.filter fun q => !q.expired now)) :
    (r'.quakes.filter fun q => !q.expired later).Perm (r.quakes.filter fun q => !q.expired later) ∧
      (r.expired now ++ r'.expired later).Perm (r.expired later) := by
  have hmono : ∀ q ∈ r.quakes, q.expired now = true → q.expired later = true := fun q hq =>
    Quake.expired_mono (hnow q hq) (hlater q hq) hle
  constructor
  · refine (hr'.filter _).trans (List.Perm.of_eq ?_)
    rw [List.filter_filter]
    refine List.filter_congr fun q hq => ?_
    have := hmono q hq
    cases hq' : q.expired now <;> simp_all
  · have hsplit := List.filter_append_perm (fun q => q.expired now) (r.expired later)
    refine List.Perm.trans (List.Perm.append (List.Perm.of_eq ?_) ?_) hsplit
    · rw [expired, expired, List.filter_filter]
      refine List.filter_congr fun q hq => ?_
      have := hmono q hq
      cases hq' : q.expired now <;> simp_all
    · refine (hr'.filter _).trans (List.Perm.of_eq ?_)
      rw [expired, List.filter_filter, List.filter_filter]
      simp only [Bool.and_comm]

/-- A sweep hands exactly the records that have outlived their magnitude over to the sink, each once and while all are
live, and then removes and gives exactly these; the others stay as they are. At the same time nothing is left to be
swept, whatever the order in which the registry then has its records; and a later sweep leaves the same, and both
together archive the same, as if there had been the later one alone. -/
theorem sweep_archives (hr : r.Distinct) (hnow : ∀ q ∈ r.quakes, q.Datable now)
    (watch : Registry → Sink → Quake → Sink) (sink : Sink) :
    let s := r.sweep (watch r) now sink
    r.sweepInTurn watch now sink = s ∧ s.2.2 = s.1.foldl (watch r) sink ∧ r.Swept s.2.1 now s.1 ∧
      ∀ (r' : Registry) (sink' : Sink), r'.quakes.Perm s.2.1.quakes →
        r'.sweep (watch r') now sink' = ([], r', sink') ∧
        ∀ later, now ≤ later → (∀ q ∈ r.quakes, q.Datable later) →
          let t := r'.sweep (watch r') later sink'
          let once := r.sweep (watch r) later sink
          t.2.1.quakes.Perm once.2.1.quakes ∧ (s.1 ++ t.1).Perm once.1 := by
  intro s
  refine ⟨sweepInTurn_eq hr watch now sink, rfl, swept_sweep hr hnow (watch r) sink, fun r' sink' hr' => ⟨?_, ?_⟩⟩
  · refine sweep_of_forall_not (fun q hq => ?_) (watch r') sink'
    simpa using (List.mem_filter.mp (hr'.mem_iff.mp hq)).2
  · intro later hle hlater
    exact sweep_after hnow hlater hle hr'

/-- Two quakes of which the first one has outlived its magnitude after 200 seconds, and the other one after 400. -/
def staggered : Registry where
  quakes :=
    let h : Hypocenter := .scored ⟨35.0, 139.0⟩ 10.0 0 0.0 8
    [Quake.create ⟨1⟩ ⟨1⟩ h .coordinates 0, Quake.create ⟨2⟩ ⟨2⟩ { h with origin := 100000 } .coordinates 100000]

/-- The sink notes which quakes it takes in, and how many are live then. -/
theorem sweep_archives_staggered :
    let watch : Registry → List (QuakeId × ℕ) → Quake → List (QuakeId × ℕ) := fun r seen q => seen ++ [(q.id, r.len)]
    let s := staggered.sweep (watch staggered) 200000 []
    let t := s.2.1.sweep (watch s.2.1) 400000 s.2.2
    let once := staggered.sweep (watch staggered) 400000 []
    staggered.Distinct ∧ (∀ q ∈ staggered.quakes, q.Datable 200000 ∧ q.Datable 400000) ∧
      s.2.2 = [(⟨1⟩, 2)] ∧ staggered.Swept s.2.1 200000 s.1 ∧
      s.2.1.sweep (watch s.2.1) 200000 s.2.2 = ([], s.2.1, s.2.2) ∧
      t.2.1.quakes.Perm once.2.1.quakes ∧ (s.1 ++ t.1).Perm once.1 := by
  intro watch s t once
  have hdistinct : staggered.Distinct := by simp [Distinct, staggered, Quake.create]
  have hdatable : ∀ q ∈ staggered.quakes, q.Datable 200000 ∧ q.Datable 400000 := by
    intro q hq
    simp only [staggered, List.mem_cons, List.not_mem_nil, or_false] at hq
    rcases hq with rfl | rfl <;> exact ⟨⟨by decide, by decide⟩, ⟨by decide, by decide⟩⟩
  have hseen : s.2.2 = [(⟨1⟩, 2)] := by decide +kernel
  obtain ⟨-, -, hswept, hagain⟩ :=
    sweep_archives hdistinct (fun q hq => (hdatable q hq).1) watch []
  obtain ⟨hidle, hlater⟩ := hagain s.2.1 s.2.2 (List.Perm.refl _)
  obtain ⟨hleft, harchived⟩ := hlater 400000 (by decide) fun q hq => (hdatable q hq).2
  exact ⟨hdistinct, hdatable, hseen, hswept, hidle, hleft, harchived⟩

end Registry

end Tremor
