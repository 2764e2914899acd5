import Mathlib.Data.List.ReduceOption
import Tremor.Hypocenter
import Tremor.Proofs.DoubleParts
import Tremor.Proofs.TotalOrder

/-!
# The ranking of candidates

Candidates are ranked by a lexicographic order, in which missing ones come last (`rankMaybe`). The better of two is a
least one, so whatever the order and the grouping in which candidates are reduced to one, the result is a least one of
all of them; and that is unique among candidates with the same count of wrong picks.

- `rank_eq_iff` : only the count of wrong picks is not ranked
- `BestOf` : a least one of some candidates
- `BestOf.select`, `BestOf.chain`, `BestOf.unique` : the better of two least ones, a search that goes on from one, and
  that there is only one
- `reduction_independent` : every way of reducing candidates gives the same one
-/

namespace Tremor

/-! ## The order -/

namespace Hypocenter

@[simp] theorem place_scored (place : Point) (depth : Float) (origin : Int64) (totalError : Float) (correct : Nat) :
    (scored place depth origin totalError correct).place = place := by
  simp [scored, Hypocenter.place]

@[simp] theorem depth_scored (place : Point) (depth : Float) (origin : Int64) (totalError : Float) (correct : Nat) :
    (scored place depth origin totalError correct).depth.toFloat = depth := by
  simp [scored]

/-- Candidates are ranked lexicographically. -/
instance : Std.TransCmp rank :=
  inferInstanceAs (Std.TransCmp (
    compareLex (fun a b : Hypocenter => compareOn (·.correct) b a) <|
    compareLex (fun a b : Hypocenter => compareOn (fun h => Number.orderKey h.totalError) a b) <|
    compareLex (fun a b : Hypocenter => compareOn (fun h => Number.orderKey h.lat) a b) <|
    compareLex (fun a b : Hypocenter => compareOn (fun h => Number.orderKey h.lon) a b) <|
    compareLex (fun a b : Hypocenter => compareOn (fun h => Number.orderKey h.depth) a b) <|
    compareOn (·.origin)))

/-- Only the count of wrong picks is not ranked. -/
theorem rank_eq_iff {a b : Hypocenter} : a.rank b = .eq ↔ { a with wrong := b.wrong } = b := by
  obtain ⟨lat, lon, depth, origin, totalError, correct, wrong⟩ := a
  obtain ⟨lat', lon', depth', origin', totalError', correct', wrong'⟩ := b
  simp only [rank, Ordering.then_eq_eq, Std.LawfulEqCmp.compare_eq_iff_eq, mk.injEq, and_true]
  constructor
  · rintro ⟨rfl, rfl, rfl, rfl, rfl, rfl⟩
    exact ⟨rfl, rfl, rfl, rfl, rfl, rfl⟩
  · rintro ⟨rfl, rfl, rfl, rfl, rfl, rfl⟩
    exact ⟨rfl, rfl, rfl, rfl, rfl, rfl⟩

end Hypocenter

/-- The order of candidates that may be missing; a missing one comes last. -/
def rankMaybe : Option Hypocenter → Option Hypocenter → Ordering
  | none, none => .eq
  | none, some _ => .gt
  | some _, none => .lt
  | some a, some b => a.rank b

instance : Std.TransCmp rankMaybe where
  eq_swap := by
    rintro (_ | a) (_ | b)
    · rfl
    · rfl
    · rfl
    · show a.rank b = (b.rank a).swap
      exact Std.OrientedCmp.eq_swap
  isLE_trans := by
    rintro (_ | a) (_ | b) (_ | c) hab hbc
    · rfl
    · cases hbc
    · rfl
    · cases hab
    · rfl
    · cases hbc
    · rfl
    · have hab : (a.rank b).isLE = true := hab
      have hac : (a.rank c).isLE = true := Std.TransCmp.isLE_trans hab hbc
      exact hac

theorem prefersFirst_eq_true_iff {a b : Option Hypocenter} : prefersFirst a b = true ↔ rankMaybe a b = .lt := by
  cases a <;> cases b <;> simp [prefersFirst, rankMaybe]

theorem prefersFirst_eq_false_iff {a b : Option Hypocenter} :
    prefersFirst a b = false ↔ (rankMaybe b a).isLE = true := by
  have hswap : rankMaybe a b = (rankMaybe b a).swap := Std.OrientedCmp.eq_swap
  rw [← Bool.not_eq_true, prefersFirst_eq_true_iff, hswap]
  cases rankMaybe b a <;> simp

/-! ## The best of some candidates -/

/-- A candidate that is one of some, if there are any, and that none of them comes before. -/
structure BestOf (best : Option Hypocenter) (cs : List (Option Hypocenter)) : Prop where
  mem : ∀ h, best = some h → some h ∈ cs
  first : ∀ c ∈ cs, (rankMaybe best c).isLE = true

variable {a b best : Option Hypocenter} {cs ds : List (Option Hypocenter)}

theorem BestOf.nothing : BestOf none [] where
  mem := by
    rintro h ⟨⟩
  first := by
    rintro c ⟨⟩

theorem BestOf.single (c : Option Hypocenter) : BestOf c [c] where
  mem := by
    rintro h rfl
    exact List.mem_singleton_self _
  first := by
    intro d hd
    rw [List.mem_singleton.mp hd]
    exact Std.ReflCmp.isLE_rfl

/-- Only which candidates there are matters, and not how often or in which order. -/
theorem BestOf.congr (h : BestOf best cs) (hcs : ∀ c, c ∈ cs ↔ c ∈ ds) : BestOf best ds where
  mem x hx := (hcs _).mp (h.mem x hx)
  first c hc := h.first c ((hcs c).mpr hc)

/-- A search that goes on from the best of some candidates gives the best of these and of its own. -/
theorem BestOf.chain (ha : BestOf a cs) (hb : BestOf b (a :: ds)) : BestOf b (cs ++ ds) where
  mem x hx := by
    rcases List.mem_cons.mp (hb.mem x hx) with hxa | hxd
    · exact List.mem_append_left _ (ha.mem x hxa.symm)
    · exact List.mem_append_right _ hxd
  first c hc := by
    rcases List.mem_append.mp hc with hc | hc
    · exact Std.TransCmp.isLE_trans (hb.first a List.mem_cons_self) (ha.first c hc)
    · exact hb.first c (List.mem_cons_of_mem _ hc)

/-- The better of two best ones is the best of all. -/
theorem BestOf.select (ha : BestOf a cs) (hb : BestOf b ds) : BestOf (selectBetter a b) (cs ++ ds) := by
  unfold selectBetter
  split
  · rename_i h
    have hab : (rankMaybe a b).isLE = true := by
      rw [prefersFirst_eq_true_iff.mp h]
      rfl
    refine ⟨fun x hx => List.mem_append_left _ (ha.mem x hx), fun c hc => ?_⟩
    rcases List.mem_append.mp hc with hc | hc
    · exact ha.first c hc
    · exact Std.TransCmp.isLE_trans hab (hb.first c hc)
  · rename_i h
    have hba : (rankMaybe b a).isLE = true := prefersFirst_eq_false_iff.mp (Bool.eq_false_iff.mpr h)
    refine ⟨fun x hx => List.mem_append_right _ (hb.mem x hx), fun c hc => ?_⟩
    rcases List.mem_append.mp hc with hc | hc
    · exact Std.TransCmp.isLE_trans hba (ha.first c hc)
    · exact hb.first c hc

theorem BestOf.foldl (h : BestOf best cs) (ds : List (Option Hypocenter)) :
    BestOf (ds.foldl selectBetter best) (cs ++ ds) := by
  induction ds generalizing best cs with
  | nil => simpa using h
  | cons d ds ih =>
    have hd := ih (h.select (BestOf.single d))
    rwa [List.append_assoc] at hd

/-- Nothing is the best of missing candidates alone. -/
theorem BestOf.eq_none_iff (h : BestOf best cs) : best = none ↔ ∀ c ∈ cs, c = none := by
  constructor
  · rintro rfl c hc
    cases c with
    | none => rfl
    | some x => exact absurd (h.first _ hc) Bool.false_ne_true
  · intro hn
    cases best with
    | none => rfl
    | some x => cases hn _ (h.mem x rfl)

/-- When all candidates are the same one or missing, it is the best. -/
theorem BestOf.eq_some (h : BestOf best cs) {x : Hypocenter} (hx : some x ∈ cs)
    (hcs : ∀ c ∈ cs, c = none ∨ c = some x) : best = some x := by
  cases best with
  | none => cases h.eq_none_iff.mp rfl _ hx
  | some y => exact (hcs _ (h.mem y rfl)).resolve_left (Option.some_ne_none y)

/-- There is only one best candidate, as long as the counts of wrong picks agree. -/
theorem BestOf.unique (ha : BestOf a cs) (hb : BestOf b ds) (hcs : ∀ x, some x ∈ cs ↔ some x ∈ ds)
    (hw : ∀ x y, some x ∈ cs → some y ∈ cs → x.wrong = y.wrong) : a = b := by
  cases a with
  | none =>
    have hn : ∀ c ∈ ds, c = none := by
      intro c hc
      cases c with
      | none => rfl
      | some x => exact ha.eq_none_iff.mp rfl _ ((hcs x).mpr hc)
    exact (hb.eq_none_iff.mpr hn).symm
  | some x =>
    have hx := ha.mem x rfl
    cases b with
    | none => cases hb.eq_none_iff.mp rfl _ ((hcs x).mp hx)
    | some y =>
      have hy := (hcs y).mpr (hb.mem y rfl)
      -- each of the two comes no later than the other
      have hxy : (x.rank y).isLE = true := ha.first _ hy
      have hyx : (y.rank x).isLE = true := hb.first _ ((hcs x).mp hx)
      have heq : x.rank y = .eq := Std.OrientedCmp.isLE_antisymm hxy hyx
      rw [← Hypocenter.rank_eq_iff.mp heq, ← hw x y hx hy]

/-! ## Reductions -/

/-- A way of reducing candidates to one. -/
inductive Reduction where
  | leaf (c : Option Hypocenter)
  | node (left right : Reduction)

namespace Reduction

def leaves : Reduction → List (Option Hypocenter)
  | leaf c => [c]
  | node left right => left.leaves ++ right.leaves

/-- What the candidates are reduced to. -/
def value : Reduction → Option Hypocenter
  | leaf c => c
  | node left right => selectBetter left.value right.value

/-- A reduction gives a best candidate. -/
theorem bestOf : ∀ t : Reduction, BestOf t.value t.leaves
  | leaf c => BestOf.single c
  | node left right => (bestOf left).select (bestOf right)

end Reduction

/-- The best of candidates that are looked at one after the other. -/
def bestInOrder (cs : List (Option Hypocenter)) : Option Hypocenter := cs.foldl selectBetter none

theorem bestOf_bestInOrder (cs : List (Option Hypocenter)) : BestOf (bestInOrder cs) cs := BestOf.nothing.foldl cs

/-- Every way of reducing candidates gives the same one, whatever their order, and wherever missing ones are put in:
none if all are missing, and else one that no other is preferred to. Preference is a strict total order, but for the
count of wrong picks. -/
theorem reduction_independent (cs : List (Option Hypocenter))
    (hw : ∀ a b, some a ∈ cs → some b ∈ cs → a.wrong = b.wrong) :
    (∀ t : Reduction, t.leaves.reduceOption.Perm cs.reduceOption → t.value = bestInOrder cs) ∧
      (∀ ds, ds.reduceOption.Perm cs.reduceOption → bestInOrder ds = bestInOrder cs) ∧
      (bestInOrder cs = none ↔ ∀ c ∈ cs, c = none) ∧
      (∀ h, bestInOrder cs = some h → some h ∈ cs ∧ ∀ c ∈ cs, prefersFirst c (some h) = false) ∧
      (∀ a, prefersFirst a a = false) ∧
      (∀ a b c, prefersFirst a b = true → prefersFirst b c = true → prefersFirst a c = true) ∧
      ∀ a b : Hypocenter, prefersFirst (some a) (some b) = true ∨ prefersFirst (some b) (some a) = true ∨
        { a with wrong := b.wrong } = b := by
  have hb := bestOf_bestInOrder cs
  have hone : ∀ best ds, BestOf best ds → ds.reduceOption.Perm cs.reduceOption → best = bestInOrder cs := by
    intro best ds hd hp
    have hmem : ∀ x, some x ∈ cs ↔ some x ∈ ds := by
      intro x
      rw [← List.reduceOption_mem_iff, ← hp.mem_iff, List.reduceOption_mem_iff]
    exact (hb.unique hd hmem hw).symm
  refine ⟨fun t => hone _ _ t.bestOf, fun ds => hone _ _ (bestOf_bestInOrder ds), hb.eq_none_iff,
    fun h hh => ⟨hb.mem h hh, fun c hc => ?_⟩, ?_, ?_, ?_⟩
  · exact prefersFirst_eq_false_iff.mpr (hh ▸ hb.first c hc)
  · intro a
    exact prefersFirst_eq_false_iff.mpr Std.ReflCmp.isLE_rfl
  · intro a b c hab hbc
    rw [prefersFirst_eq_true_iff] at hab hbc ⊢
    exact Std.TransCmp.lt_trans hab hbc
  · intro a b
    rw [prefersFirst_eq_true_iff, prefersFirst_eq_true_iff, ← Hypocenter.rank_eq_iff]
    show a.rank b = .lt ∨ b.rank a = .lt ∨ a.rank b = .eq
    cases h : a.rank b with
    | lt => exact Or.inl rfl
    | eq => exact Or.inr (Or.inr rfl)
    | gt => exact Or.inr (Or.inl (Std.OrientedCmp.gt_iff_lt.mp h))

/-- Candidates with NaNs of either sign and a negative zero, reduced in another order and with a missing one. The
negative NaN is the smallest error. -/
theorem reduction_independent_nan :
    let a : Hypocenter := ⟨-0.0, 1.0, 10.0, 5, Double.nan, 7, 0⟩
    let b : Hypocenter := ⟨0.0, 1.0, 10.0, 5, Double.nan, 7, 0⟩
    let c : Hypocenter := ⟨0.0, 1.0, 10.0, 5, -Double.nan, 7, 0⟩
    (Reduction.node (.node (.leaf (some b)) (.leaf none)) (.node (.leaf (some c)) (.leaf (some a)))).value =
        bestInOrder [some a, some b, some c] ∧
      bestInOrder [some a, some b, some c] = some c ∧ bestInOrder [some a, some b] = some a := by
  intro a b c
  have hw : ∀ x y, some x ∈ [some a, some b, some c] → some y ∈ [some a, some b, some c] → x.wrong = y.wrong := by
    simp only [List.mem_cons, Option.some.injEq, List.not_mem_nil, or_false]
    rintro x y (rfl | rfl | rfl) (rfl | rfl | rfl) <;> rfl
  have hperm : List.Perm ([b, c] ++ [a]) ([a] ++ [b, c]) := List.perm_append_comm
  exact ⟨(reduction_independent [some a, some b, some c] hw).1 _ hperm, by decide, by decide⟩

end Tremor
