import Tremor.Config.Path

/-!
# A store of files

A store holds directories and files by their places: the names that lead there from its root. A path is followed from
the root or from a directory of the store, part by part, and every part before the last must lead to a directory. A
double dot goes up from the directory that was reached, so it does not take back a name that leads nowhere.

- `StoreFault` : why an access fails
- `FileStore.walk` : follows the parts of a path
- `FileStore.read`, `FileStore.write`, `FileStore.makeDir`, `FileStore.makeDirs` : the accesses
- `get?_put_self`, `get?_put_of_ne` : what is found after something was put
- `KeepsDirectories` : all directories stay, so paths lead where they led
- `read_write` : what was written is read
-/

namespace Tremor

/-- Why an access to a file fails. -/
inductive StoreFault where
  | notFound
  | alreadyThere
  | notADirectory
  | isADirectory
  | nameTooLong
  | unexpectedNul
  deriving DecidableEq, Repr

def StoreFault.message : StoreFault → String
  | notFound => "No such file or directory (os error 2)"
  | alreadyThere => "File exists (os error 17)"
  | notADirectory => "Not a directory (os error 20)"
  | isADirectory => "Is a directory (os error 21)"
  | nameTooLong => "File name too long (os error 36)"
  | unexpectedNul => "file name contained an unexpected NUL byte"

inductive StoreEntry where
  | directory
  | file (text : String)
  deriving DecidableEq, Repr

/-- The names that lead to a place from the root. -/
abbrev Place := List String

/-- Directories and files by their places; the root is always a directory. -/
structure FileStore where
  entries : List (Place × StoreEntry) := []
  /-- The directory where the paths start that are not rooted. -/
  here : Place := []

namespace FileStore

def get? (s : FileStore) (place : Place) : Option StoreEntry :=
  if place.isEmpty then some .directory else s.entries.lookup place

def put (s : FileStore) (place : Place) (e : StoreEntry) : FileStore :=
  { s with entries := (place, e) :: s.entries.filter (·.1 != place) }

/-! ## Following paths -/

/-- A name takes so many bytes at most. -/
def nameLimit : Nat := 255

/-- A path takes fewer bytes than this. -/
def pathLimit : Nat := 4096

/-- What an entry of a directory is, if it is there; a name that is too long can be none. -/
def child? (s : FileStore) (place : Place) (name : String) : Except StoreFault (Option StoreEntry) :=
  if nameLimit < name.utf8ByteSize then .error .nameTooLong else .ok (s.get? (place ++ [name]))

/-- The directory that a part leads to from a directory. -/
def step (s : FileStore) (place : Place) (part : String) : Except StoreFault Place :=
  if Path.blank part then .ok place
  else if part = ".." then .ok place.dropLast
  else
    match s.child? place part with
    | .error fault => .error fault
    | .ok none => .error .notFound
    | .ok (some (.file _)) => .error .notADirectory
    | .ok (some .directory) => .ok (place ++ [part])

/-- Follows parts from a directory to a directory. -/
def walk (s : FileStore) : Place → List String → Except StoreFault Place
  | place, [] => .ok place
  | place, part :: parts =>
    match s.step place part with
    | .error fault => .error fault
    | .ok next => s.walk next parts

/-- Where a path ends: in a directory as a whole, or at an entry that need not be there. -/
inductive Target where
  | whole (place : Place)
  | entry (place : Place) (name : String) (slash : Bool)

/-- Follows a path up to its last part. -/
def resolve (s : FileStore) (p : Path) : Except StoreFault Target :=
  let start := if p.rooted then [] else s.here
  if '\x00' ∈ p.toString.toList then .error .unexpectedNul
  else if pathLimit ≤ p.toString.utf8ByteSize then .error .nameTooLong
  else
    match p.direction with
    | .nowhere => .error .notFound
    | .stay parts => (s.walk start parts).map .whole
    | .entry parts name slash => (s.walk start parts).map (.entry · name slash)

/-! ## Accesses -/

/-- What stands where a path leads. -/
def find (s : FileStore) (p : Path) : Except StoreFault StoreEntry := do
  match ← s.resolve p with
  | .whole _ => return .directory
  | .entry place name slash =>
    match ← s.child? place name with
    | none => .error .notFound
    | some (.file text) => if slash then .error .notADirectory else return .file text
    | some .directory => return .directory

def contains (s : FileStore) (p : Path) : Bool := (s.find p).isOk

def isDirectory (s : FileStore) (p : Path) : Bool :=
  match s.find p with
  | .ok .directory => true
  | _ => false

def read (s : FileStore) (p : Path) : Except StoreFault String := do
  match ← s.find p with
  | .file text => return text
  | .directory => .error .isADirectory

/-- Writes a file, new or in the place of an older one. No file is written under a name with a slash after it. -/
def write (s : FileStore) (p : Path) (text : String) : Except StoreFault FileStore := do
  match ← s.resolve p with
  | .whole _ => .error .isADirectory
  | .entry place name slash =>
    if slash then .error .isADirectory
    else
      match ← s.child? place name with
      | some .directory => .error .isADirectory
      | _ => return s.put (place ++ [name]) (.file text)

def makeDir (s : FileStore) (p : Path) : Except StoreFault FileStore := do
  match ← s.resolve p with
  | .whole _ => .error .alreadyThere
  | .entry place name _ =>
    match ← s.child? place name with
    | some _ => .error .alreadyThere
    | none => return s.put (place ++ [name]) .directory

def ensureDir (s : FileStore) (p : Path) : Except StoreFault FileStore :=
  match s.makeDir p with
  | .error fault => if s.isDirectory p then .ok s else .error fault
  | made => made

/-- Makes the first of some directories, the longest path first. The others are made before it where it turns out that
the way to it is missing, and they stay when the first one fails after all. -/
def makeFirst (s : FileStore) : List Path → Except StoreFault Unit × FileStore
  | [] => (.ok (), s)
  | p :: above =>
    match s.ensureDir p with
    | .ok made => (.ok (), made)
    | .error .notFound =>
      match s.makeFirst above with
      | (.error fault, made) => (.error fault, made)
      | (.ok _, made) =>
        match made.ensureDir p with
        | .ok last => (.ok (), last)
        | .error fault => (.error fault, made)
    | .error fault => (.error fault, s)

/-- Makes a directory and those that lead to it, and gives the store after that, whether or not it succeeds. -/
def makeDirs (s : FileStore) (p : Path) : Except StoreFault Unit × FileStore := s.makeFirst p.ancestors

/-! ## Putting and getting -/

theorem get?_put_self (s : FileStore) {place : Place} (h : place ≠ []) (e : StoreEntry) :
    (s.put place e).get? place = some e := by
  simp [get?, put, h]

theorem lookup_filter_ne {place other : Place} (h : other ≠ place) :
    ∀ es : List (Place × StoreEntry), (es.filter (·.1 != place)).lookup other = es.lookup other
  | [] => rfl
  | (key, e) :: es => by
    have ih := lookup_filter_ne h es
    by_cases hk : key = place
    · subst hk
      have hne : (other == key) = false := by simpa using h
      simpa [List.lookup_cons, hne] using ih
    · simp [List.lookup_cons, hk, ih]

theorem get?_put_of_ne (s : FileStore) {place other : Place} (h : other ≠ place) (e : StoreEntry) :
    (s.put place e).get? other = s.get? other := by
  have hne : (other == place) = false := by simpa using h
  unfold get? put
  split
  · rfl
  · simp only [List.lookup_cons, hne, lookup_filter_ne h]

/-! ## Directories that stay -/

/-- All directories of a store stay. -/
structure KeepsDirectories (s s' : FileStore) : Prop where
  here : s'.here = s.here
  keeps : ∀ place, s.get? place = some .directory → s'.get? place = some .directory

/-- A file that is put where no directory stood takes no directory away. -/
theorem keepsDirectories_put (s : FileStore) {target : Place} (h : s.get? target ≠ some .directory) (text : String) :
    s.KeepsDirectories (s.put target (.file text)) := by
  refine ⟨rfl, fun place hplace => ?_⟩
  have hne : place ≠ target := fun he => h (he ▸ hplace)
  rw [get?_put_of_ne s hne]
  exact hplace

theorem child?_eq_ok {s : FileStore} {place : Place} {name : String} {e? : Option StoreEntry} :
    s.child? place name = .ok e? ↔ name.utf8ByteSize ≤ nameLimit ∧ s.get? (place ++ [name]) = e? := by
  unfold child?
  split
  · next hlong => exact ⟨nofun, fun h => absurd h.1 (Nat.not_le.mpr hlong)⟩
  · next hshort =>
    rw [Except.ok.injEq]
    exact ⟨fun h => ⟨Nat.not_lt.mp hshort, h⟩, And.right⟩

namespace KeepsDirectories

variable {s s' : FileStore}

theorem step (h : s.KeepsDirectories s') {place next : Place} {part : String} (hs : s.step place part = .ok next) :
    s'.step place part = .ok next := by
  unfold FileStore.step at hs ⊢
  split at hs
  · next hblank =>
    rw [if_pos hblank]
    exact hs
  · next hblank =>
    rw [if_neg hblank]
    split at hs
    · next hup =>
      rw [if_pos hup]
      exact hs
    · next hup =>
      rw [if_neg hup]
      cases hchild : s.child? place part with
      | error fault =>
        rw [hchild] at hs
        cases hs
      | ok e? =>
        obtain ⟨hshort, he⟩ := child?_eq_ok.mp hchild
        rw [hchild] at hs
        match e?, he, hs with
        | some .directory, he, hs =>
          rw [child?_eq_ok.mpr ⟨hshort, h.keeps _ he⟩]
          exact hs

theorem walk (h : s.KeepsDirectories s') {place reached : Place} {parts : List String}
    (hw : s.walk place parts = .ok reached) : s'.walk place parts = .ok reached := by
  induction parts generalizing place with
  | nil => exact hw
  | cons part parts ih =>
    unfold FileStore.walk at hw ⊢
    cases hs : s.step place part with
    | error fault =>
      rw [hs] at hw
      cases hw
    | ok next =>
      rw [hs] at hw
      rw [h.step hs]
      exact ih hw

end KeepsDirectories

/-! ## Where a path leads -/

/-- A path whose text is not too long and has no NUL. -/
def Takes (p : Path) : Prop := '\x00' ∉ p.toString.toList ∧ p.toString.utf8ByteSize < pathLimit

/-- The directory that the parts of a path are followed from. -/
def start (s : FileStore) (p : Path) : Place := if p.rooted then [] else s.here

/-- Where a path ends, by what its last part asks for. -/
theorem resolve_of_takes {s : FileStore} {p : Path} (h : Takes p) :
    s.resolve p = match p.direction with
      | .nowhere => .error .notFound
      | .stay parts => (s.walk (s.start p) parts).map .whole
      | .entry parts name slash => (s.walk (s.start p) parts).map (.entry · name slash) := by
  unfold resolve
  rw [if_neg h.1, if_neg (Nat.not_le.mpr h.2)]
  rfl

theorem takes_of_resolve {s : FileStore} {p : Path} {t : Target} (h : s.resolve p = .ok t) : Takes p := by
  unfold resolve at h
  have hnul : '\x00' ∉ p.toString.toList := by
    intro hnul
    rw [if_pos hnul] at h
    cases h
  rw [if_neg hnul] at h
  refine ⟨hnul, Nat.not_le.mp fun hlong => ?_⟩
  rw [if_pos hlong] at h
  cases h

theorem map_eq_ok {ε α β : Type} {f : α → β} {x : Except ε α} {b : β} :
    x.map f = .ok b ↔ ∃ a, x = .ok a ∧ b = f a := by
  cases x with
  | error fault => exact ⟨nofun, fun ⟨a, h, _⟩ => nomatch h⟩
  | ok a =>
    constructor
    · intro h
      exact ⟨a, rfl, (Except.ok.inj h).symm⟩
    · rintro ⟨a', ha, rfl⟩
      cases ha
      rfl

/-- Paths lead where they led as long as all directories stay. -/
theorem KeepsDirectories.resolve {s s' : FileStore} (h : s.KeepsDirectories s') {p : Path} {t : Target}
    (hr : s.resolve p = .ok t) : s'.resolve p = .ok t := by
  have htakes := takes_of_resolve hr
  have hstart : s'.start p = s.start p := by rw [start, start, h.here]
  rw [resolve_of_takes htakes] at hr ⊢
  rw [hstart]
  cases hd : p.direction with
  | nowhere =>
    rw [hd] at hr
    cases hr
  | stay parts =>
    rw [hd] at hr
    obtain ⟨place, hw, rfl⟩ := map_eq_ok.mp hr
    exact map_eq_ok.mpr ⟨place, h.walk hw, rfl⟩
  | entry parts name slash =>
    rw [hd] at hr
    obtain ⟨place, hw, rfl⟩ := map_eq_ok.mp hr
    exact map_eq_ok.mpr ⟨place, h.walk hw, rfl⟩

/-! ## Writing and reading -/

/-- What a file that was written has changed. -/
theorem write_eq_ok {s written : FileStore} {p : Path} {text : String} (h : s.write p text = .ok written) :
    ∃ place name, s.resolve p = .ok (.entry place name false) ∧ name.utf8ByteSize ≤ nameLimit ∧
      s.get? (place ++ [name]) ≠ some .directory ∧ written = s.put (place ++ [name]) (.file text) := by
  unfold write at h
  cases hr : s.resolve p with
  | error fault =>
    rw [hr] at h
    cases h
  | ok t =>
    rw [hr] at h
    cases t with
    | whole place => cases h
    | entry place name slash =>
      cases slash with
      | true => cases h
      | false =>
        cases hc : s.child? place name with
        | error fault => simp [bind, Except.bind, hc] at h
        | ok e? =>
          obtain ⟨hshort, hget⟩ := child?_eq_ok.mp hc
          simp only [bind, Except.bind, hc, pure, Except.pure, Bool.false_eq_true, if_false] at h
          split at h
          · cases h
          · next hne =>
            exact ⟨place, name, rfl, hshort, hget ▸ hne, (Except.ok.inj h).symm⟩

/-- What was written is read. -/
theorem read_write {s written : FileStore} {p : Path} {text : String} (h : s.write p text = .ok written) :
    written.read p = .ok text := by
  obtain ⟨place, name, hr, hshort, hdir, rfl⟩ := write_eq_ok h
  have hresolve := (keepsDirectories_put s hdir text).resolve hr
  have hfound : (s.put (place ++ [name]) (.file text)).child? place name = .ok (some (.file text)) :=
    child?_eq_ok.mpr ⟨hshort, get?_put_self s (by simp) (.file text)⟩
  simp [read, find, hresolve, bind, Except.bind, hfound, pure, Except.pure]

end FileStore

end Tremor
