import Tremor.Detection
import Tremor.Number.Scalar
import Tremor.Number.TotalOrder

/-!
# Selecting picks for a search

From the picks of a cluster the weak ones are dropped first. Then picks are selected that lie far apart: the strongest
one to begin with, and always the one whose nearest selected pick is farthest away.

- `byRatio`, `byArrival` : picks in order of ratio and of time
- `trimWeak` : drops the picks below the 35th percentile of the ratio, but keeps eight
- `selectSpread` : at most thirty picks that lie far apart
- `arrivalSpread` : the time between the 10th and the 90th percentile of the arrivals
- `length_selectSpread_le` : no more than thirty are selected
-/

namespace Tremor.Selection

def byRatio (picks : List Pick) : List Pick :=
  picks.mergeSort fun a b => Number.orderKey a.maxRatio ≤ Number.orderKey b.maxRatio

def byArrival (picks : List Pick) : List Pick :=
  picks.mergeSort fun a b => a.pWave ≤ b.pWave

/-! ## Weak picks -/

def keepAtLeast : Nat := 8

/-- The share of the picks below the threshold. -/
def percentile : Float := 0.35

/-- The position of the 35th percentile among `n` picks. The product never reaches beyond the last position; the
minimum makes that plain. -/
def percentileIndex (n : Nat) : Nat :=
  min (Number.truncateNat ((n - 1).toFloat * percentile)) (n - 1)

/-- Drops the picks below the 35th percentile from picks in order of ratio, as long as eight remain. -/
def trimWeak (picks : List Pick) : List Pick :=
  match picks[percentileIndex picks.length]? with
  | none => picks
  | some threshold =>
    let weak := (picks.takeWhile fun p => decide (p.maxRatio.toFloat < threshold.maxRatio.toFloat)).length
    picks.drop (min weak (picks.length - keepAtLeast))

/-! ## Spread -/

def target : Nat := 30

/-- A pick that is not selected, with the distance to the nearest one that is. -/
structure Candidate where
  pick : Pick
  gap : Float

/-- The first candidate, from position `i` on, with the greatest distance, which must be above `most`. -/
def furthestFrom : List Candidate → (i : Nat) → (most : Float) → (found : Option Nat) → Option Nat
  | [], _, _, found => found
  | c :: cs, i, most, found =>
    if most < c.gap then furthestFrom cs (i + 1) c.gap (some i) else furthestFrom cs (i + 1) most found

def furthest (cs : List Candidate) : Option Nat := furthestFrom cs 0 0.0 none

/-- A candidate after another pick was selected. -/
def Candidate.approach (distance : Pick → Pick → Float) (selected : Pick) (c : Candidate) : Candidate :=
  { c with gap := Scalar.min c.gap (distance c.pick selected) }

/-- Selects at most so many picks from candidates. -/
def selectFrom (distance : Pick → Pick → Float) : Nat → List Candidate → List Pick
  | 0, _ => []
  | more + 1, cs =>
    match furthest cs with
    | none => []
    | some i =>
      match cs[i]? with
      | none => []
      | some next => next.pick :: selectFrom distance more ((cs.eraseIdx i).map (·.approach distance next.pick))

/-- The last pick, and at most 29 others that lie far apart. -/
def selectSpread (distance : Pick → Pick → Float) (picks : List Pick) : List Pick :=
  match picks.getLast? with
  | none => []
  | some first =>
    first :: selectFrom distance (target - 1) (picks.dropLast.map fun p => { pick := p, gap := distance p first })

theorem length_selectFrom_le (distance : Pick → Pick → Float) (n : Nat) (cs : List Candidate) :
    (selectFrom distance n cs).length ≤ n := by
  fun_induction selectFrom distance n cs with
  | case1 => simp
  | case2 => simp
  | case3 => simp
  | case4 more cs i hi next hn ih => simpa using ih

theorem length_selectSpread_le (distance : Pick → Pick → Float) (picks : List Pick) :
    (selectSpread distance picks).length ≤ target := by
  unfold selectSpread
  split
  · exact Nat.zero_le _
  · have h := length_selectFrom_le distance (target - 1)
    exact Nat.succ_le_of_lt (Nat.lt_of_le_of_lt (h _) (by decide))

/-! ## Arrivals -/

def arrivalAt (picks : List Pick) (i : Nat) : Int64 := (picks[i]?.map (·.pWave)).getD 0

/-- The time between the 10th and the 90th percentile of picks in order of time. -/
def arrivalSpread (picks : List Pick) : Int64 :=
  let last := (picks.length - 1).toFloat
  arrivalAt picks (Number.truncateNat (last * 0.9)) - arrivalAt picks (Number.truncateNat (last * 0.1))

end Tremor.Selection
