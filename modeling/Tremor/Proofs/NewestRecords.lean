import Mathlib.Data.List.DropRight
import Tremor.Quake.Archive
import Tremor.Quake.Registry

/-!
# The archive keeps the newest records

However records come into an archive, one by one or in sweeps, and however it is read meanwhile, it holds the newest
records of all that came, as many as its capacity allows, and tells them from the newest one on. So it cannot be told
from an archive that keeps everything and shows no more than that.

- `pushInTurn_eq` : the oldest records can give way one by one, before a record is stored
- `Request`, `run` : what is done with an archive, and the replies
- `Keeps` : the newest records of a history
- `told` : the replies of an archive that keeps everything
- `newest_records` : the archive after any requests
-/

namespace Tremor.Archive

variable {a : Archive} {capacity : ℕ} {history : List Quake}

/-! ## Making room in turn -/

/-- Makes room for a record: the oldest ones give way, one after the other, while the capacity is reached. -/
def makeRoom (capacity : ℕ) : List Quake → List Quake
  | [] => []
  | q :: qs => if capacity ≤ (q :: qs).length then makeRoom capacity qs else q :: qs

/-- Makes room and stores a record, unless there can be no room. -/
def pushInTurn (a : Archive) (q : Quake) : Archive :=
  if a.capacity = 0 then a else { a with records := makeRoom a.capacity a.records ++ [q] }

theorem makeRoom_eq (capacity : ℕ) (qs : List Quake) :
    makeRoom capacity qs = qs.drop (qs.length + 1 - capacity) := by
  induction qs with
  | nil => rw [makeRoom, List.drop_nil]
  | cons q qs ih =>
    rw [makeRoom, ih, List.length_cons]
    split
    · rw [show qs.length + 1 + 1 - capacity = qs.length + 1 - capacity + 1 by omega, List.drop_succ_cons]
    · rw [Nat.sub_eq_zero_of_le (by omega), List.drop_zero]

/-- An archive that does not exceed its capacity stores a record in either way. -/
theorem pushInTurn_eq (h : a.len ≤ a.capacity) (q : Quake) : a.pushInTurn q = a.push q := by
  unfold pushInTurn push
  dsimp only
  split
  · rename_i hzero
    have hnil : a.records = [] := List.eq_nil_of_length_eq_zero (Nat.le_zero.mp (hzero ▸ h))
    rw [hzero, Nat.sub_zero, List.drop_length, ← hnil, ← hzero]
  · have hle : a.records.length + 1 - a.capacity ≤ a.records.length := by omega
    rw [makeRoom_eq, List.length_append, List.length_singleton, List.drop_append_of_le_length hle]

/-! ## Requests -/

/-- What is asked of an archive. -/
inductive Request where
  | archive (q : Quake)
  | sweep (r : Registry) (now : Int64)
  | recent (limit : ℕ)

/-- The records that a request hands over. -/
def Request.records : Request → List Quake
  | archive q => [q]
  | sweep r now => r.expired now
  | recent _ => []

/-- Carries out a request, where `store` stores a record; only reads have a reply. -/
def request (store : Archive → Quake → Archive) (a : Archive) : Request → Option (List Quake) × Archive
  | .archive q => (none, store a q)
  | .sweep r now => (none, (r.sweep store now a).2.2)
  | .recent limit => (some (a.recent limit), a)

/-- Carries out requests one after the other; gives the replies. -/
def run (store : Archive → Quake → Archive) (a : Archive) : List Request → List (List Quake) × Archive
  | [] => ([], a)
  | r :: rs =>
    let (reply, a) := a.request store r
    let (replies, a) := run store a rs
    (reply.toList ++ replies, a)

theorem run_cons (store : Archive → Quake → Archive) (a : Archive) (r : Request) (rs : List Request) :
    run store a (r :: rs) =
      ((a.request store r).1.toList ++ (run store (a.request store r).2 rs).1,
        (run store (a.request store r).2 rs).2) := rfl

/-- The replies of an archive that keeps everything, and shows the newest records up to a capacity. -/
def told (capacity : ℕ) (history : List Quake) : List Request → List (List Quake)
  | [] => []
  | .recent limit :: rs => (history.rtake (min limit capacity)).reverse :: told capacity history rs
  | r :: rs => told capacity (history ++ r.records) rs

/-! ## The newest records -/

/-- The archive holds the newest records of a history, up to a capacity. -/
structure Keeps (a : Archive) (capacity : ℕ) (history : List Quake) : Prop where
  capacity_eq : a.capacity = capacity
  records_eq : a.records = history.rtake capacity

theorem rtake_append_rtake {α : Type} (l m : List α) (n : ℕ) : (l.rtake n ++ m).rtake n = (l ++ m).rtake n := by
  simp only [List.rtake_eq_reverse_take_reverse, List.reverse_append, List.reverse_reverse, List.take_append,
    List.take_take, Nat.min_eq_left (Nat.sub_le _ _)]

namespace Keeps

theorem push (h : Keeps a capacity history) (q : Quake) : Keeps (a.push q) capacity (history ++ [q]) where
  capacity_eq := h.capacity_eq
  records_eq := by
    rw [← rtake_append_rtake, ← h.records_eq, List.rtake, ← h.capacity_eq]
    rfl

theorem foldl_push (h : Keeps a capacity history) (qs : List Quake) :
    Keeps (qs.foldl Archive.push a) capacity (history ++ qs) := by
  induction qs generalizing a history with
  | nil => rwa [List.append_nil]
  | cons q qs ih =>
    rw [List.append_cons]
    exact ih (h.push q)

/-- A request adds the records that it hands over to the history. -/
theorem request (h : Keeps a capacity history) (r : Request) :
    Keeps (a.request Archive.push r).2 capacity (history ++ r.records) := by
  cases r with
  | archive q => exact h.push q
  | sweep r now => exact h.foldl_push (r.expired now)
  | recent limit => rwa [Request.records, List.append_nil]

theorem recent (h : Keeps a capacity history) (limit : ℕ) :
    a.recent limit = (history.rtake (min limit capacity)).reverse := by
  rw [Archive.recent, h.records_eq, List.rtake_eq_reverse_take_reverse, List.rtake_eq_reverse_take_reverse,
    List.reverse_reverse, List.reverse_reverse, List.take_take]

theorem len (h : Keeps a capacity history) : a.len = min history.length capacity := by
  rw [Archive.len, h.records_eq, List.rtake, List.length_drop]
  omega

/-- Along a run, the replies are those of an archive that keeps everything. -/
theorem run (h : Keeps a capacity history) (rs : List Request) :
    (a.run Archive.push rs).1 = told capacity history rs ∧
      Keeps (a.run Archive.push rs).2 capacity (history ++ rs.flatMap Request.records) := by
  induction rs generalizing a history with
  | nil =>
    rw [List.flatMap_nil, List.append_nil]
    exact ⟨rfl, h⟩
  | cons r rs ih =>
    obtain ⟨hreplies, hkeeps⟩ := ih (h.request r)
    rw [List.append_assoc, ← List.flatMap_cons] at hkeeps
    refine ⟨?_, hkeeps⟩
    rw [run_cons, hreplies]
    cases r with
    | archive | sweep => rfl
    | recent limit =>
      rw [told, ← h.recent limit, Request.records, List.append_nil]
      rfl

/-- Records that are stored one by one may as well make room for each other. -/
theorem foldl_pushInTurn (h : Keeps a capacity history) (qs : List Quake) :
    qs.foldl pushInTurn a = qs.foldl Archive.push a := by
  induction qs generalizing a history with
  | nil => rfl
  | cons q qs ih =>
    have hlen : a.len ≤ a.capacity := by
      rw [h.len, h.capacity_eq]
      exact Nat.min_le_right _ _
    rw [List.foldl_cons, List.foldl_cons, pushInTurn_eq hlen]
    exact ih (h.push q)

theorem run_pushInTurn (h : Keeps a capacity history) (rs : List Request) :
    a.run pushInTurn rs = a.run Archive.push rs := by
  induction rs generalizing a history with
  | nil => rfl
  | cons r rs ih =>
    have hrequest : a.request pushInTurn r = a.request Archive.push r := by
      cases r with
      | archive q => exact congrArg (none, ·) (h.foldl_pushInTurn [q])
      | sweep r now => exact congrArg (none, ·) (h.foldl_pushInTurn (r.expired now))
      | recent limit => rfl
    rw [run_cons, run_cons, hrequest, ih (h.request r)]

end Keeps

/-- A new archive, after any requests, holds exactly the newest records of all that were handed over to it, up to its
capacity, and has told, and tells, the newest ones of them, newest first. It does not matter whether the oldest records
give way before a record is stored or afterwards. -/
theorem newest_records (capacity : ℕ) (rs : List Request) :
    let history := rs.flatMap Request.records
    let (replies, a) := run push { capacity } rs
    a.records = history.rtake capacity ∧ a.len = min history.length capacity ∧ a.len ≤ capacity ∧
      (∀ limit, a.recent limit = (history.rtake (min limit capacity)).reverse) ∧
      replies = told capacity [] rs ∧ run pushInTurn { capacity } rs = (replies, a) := by
  intro history
  have hstart : Keeps { capacity } capacity [] := ⟨rfl, by rw [List.rtake_nil]⟩
  obtain ⟨hreplies, hkeeps⟩ := hstart.run rs
  exact ⟨hkeeps.records_eq, hkeeps.len, hkeeps.len ▸ Nat.min_le_right _ _, hkeeps.recent, hreplies,
    hstart.run_pushInTurn rs⟩

end Tremor.Archive
