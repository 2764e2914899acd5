import Tremor.Config.Store

/-!
# Making directories

Directories are made where nothing stood, so what was there before stays, and paths that led somewhere lead there
still. When a directory could be made with those above it, its path can be followed to the end; so a file can be
written below it.

- `FileStore.Extends` : nothing was taken away or changed
- `extends_makeDirs` : making directories only adds to a store
- `walk_makeDirs` : the path of a directory that was made leads to it
- `resolve_makeDirs`, `write_of_resolve` : so a file can be written below it
-/

namespace Tremor

namespace FileStore

variable {s s' s'' : FileStore}

/-! ## Stores that grow -/

/-- Nothing was taken away from a store or changed in it. -/
structure Extends (s s' : FileStore) : Prop where
  here : s'.here = s.here
  keeps : ∀ place e, s.get? place = some e → s'.get? place = some e

theorem Extends.refl (s : FileStore) : s.Extends s := ⟨rfl, fun _ _ h => h⟩

theorem Extends.trans (h : s.Extends s') (h' : s'.Extends s'') : s.Extends s'' :=
  ⟨h'.here.trans h.here, fun place e he => h'.keeps place e (h.keeps place e he)⟩

/-- What is put where nothing stood adds to a store. -/
theorem extends_put {place : Place} (h : s.get? place = none) (e : StoreEntry) : s.Extends (s.put place e) := by
  refine ⟨rfl, fun other e' he => ?_⟩
  have hne : other ≠ place := by
    rintro rfl
    rw [h] at he
    cases he
  rw [get?_put_of_ne s hne]
  exact he

/-- So all directories stay, and paths lead where they led. -/
theorem Extends.keepsDirectories (h : s.Extends s') : s.KeepsDirectories s' :=
  ⟨h.here, fun place hplace => h.keeps place _ hplace⟩

/-! ## Making one directory -/

/-- A directory is made where nothing stood. -/
theorem makeDir_eq_ok {p : Path} {made : FileStore} (h : s.makeDir p = .ok made) :
    ∃ place name slash, s.resolve p = .ok (.entry place name slash) ∧ s.child? place name = .ok none ∧
      made = s.put (place ++ [name]) .directory := by
  unfold makeDir at h
  cases hr : s.resolve p with
  | error fault =>
    rw [hr] at h
    cases h
  | ok t =>
    rw [hr] at h
    cases t with
    | whole place => cases h
    | entry place name slash =>
      cases hc : s.child? place name with
      | error fault => simp [bind, Except.bind, hc] at h
      | ok e? =>
        cases e? with
        | some e => simp [bind, Except.bind, hc] at h
        | none =>
          simp only [bind, Except.bind, hc, pure, Except.pure, Except.ok.injEq] at h
          exact ⟨place, name, slash, rfl, hc, h.symm⟩

/-- What is found where a path leads. -/
theorem find_of_resolve {p : Path} {place : Place} {name : String} {slash : Bool}
    (hr : s.resolve p = .ok (.entry place name slash)) (hc : s.child? place name = .ok (some .directory)) :
    s.isDirectory p = true := by
  simp [isDirectory, find, hr, hc, bind, Except.bind, pure, Except.pure]

/-- Where a directory is made or was there already, the path leads to one, and nothing else has changed. -/
theorem ensureDir_eq_ok {p : Path} {made : FileStore} (h : s.ensureDir p = .ok made) :
    s.Extends made ∧ made.isDirectory p = true := by
  unfold ensureDir at h
  cases hm : s.makeDir p with
  | error fault =>
    rw [hm] at h
    simp only at h
    split at h
    · rename_i hdir
      cases h
      exact ⟨.refl s, hdir⟩
    · cases h
  | ok made' =>
    rw [hm] at h
    cases h
    obtain ⟨place, name, slash, hr, hc, rfl⟩ := makeDir_eq_ok hm
    obtain ⟨hshort, hnone⟩ := child?_eq_ok.mp hc
    have hextends := extends_put hnone .directory
    refine ⟨hextends, find_of_resolve (hextends.keepsDirectories.resolve hr) (child?_eq_ok.mpr ⟨hshort, ?_⟩)⟩
    exact get?_put_self s (by simp) .directory

/-! ## Making all directories on the way -/

/-- Making directories only adds to a store, whether or not it succeeds. -/
theorem extends_makeFirst {ps : List Path} : s.Extends (s.makeFirst ps).2 := by
  induction ps generalizing s with
  | nil => exact .refl s
  | cons p above ih =>
    unfold makeFirst
    cases he : s.ensureDir p with
    | ok made => exact (ensureDir_eq_ok he).1
    | error fault =>
      cases fault with
      | notFound =>
        cases ha : s.makeFirst above with
        | mk result made =>
          have hmade : s.Extends made := by
            have hall := @ih s
            rw [ha] at hall
            exact hall
          cases result with
          | error fault => exact hmade
          | ok _ =>
            cases hl : made.ensureDir p with
            | ok last =>
              simp only [hl]
              exact hmade.trans (ensureDir_eq_ok hl).1
            | error fault =>
              simp only [hl]
              exact hmade
      | _ => exact .refl s

theorem extends_makeDirs (s : FileStore) (p : Path) : s.Extends (s.makeDirs p).2 := extends_makeFirst

/-- The first of the directories is there when making them succeeds. -/
theorem isDirectory_makeFirst {p : Path} {above : List Path} (h : (s.makeFirst (p :: above)).1 = .ok ()) :
    (s.makeFirst (p :: above)).2.isDirectory p = true := by
  unfold makeFirst at h ⊢
  cases he : s.ensureDir p with
  | ok made => exact (ensureDir_eq_ok he).2
  | error fault =>
    rw [he] at h
    cases fault with
    | notFound =>
      cases ha : s.makeFirst above with
      | mk result made =>
        simp only [ha] at h ⊢
        cases result with
        | error fault => cases h
        | ok _ =>
          cases hl : made.ensureDir p with
          | ok last =>
            simp only [hl]
            exact (ensureDir_eq_ok hl).2
          | error fault =>
            simp only [hl] at h
            cases h
    | _ => cases h

end FileStore

namespace Path

/-! ## Parts of paths -/

/-- What a path asks for that ends in a part which is not empty. -/
theorem direction_append {p : Path} {before : List String} {last : String} (hp : p.parts = before ++ [last])
    (hlast : last ≠ "") :
    p.direction = if last = "." ∨ last = ".." then .stay p.parts else .entry before last false := by
  have hdrop : (before ++ [last]).reverse.dropWhile (fun part => part = "") = last :: before.reverse := by
    rw [List.reverse_append, List.reverse_singleton, List.singleton_append, List.dropWhile_cons_of_neg (by simpa)]
  unfold direction
  rw [hp, hdrop]
  simp [hlast]

/-- A path that asks for an entry without a slash after it ends in the name of this entry. -/
theorem parts_of_direction {p : Path} {parts : List String} {name : String}
    (h : p.direction = .entry parts name false) :
    p.parts = parts ++ [name] ∧ blank name = false ∧ name ≠ ".." := by
  unfold direction at h
  cases hrev : p.parts.reverse with
  | nil =>
    rw [hrev, List.dropWhile_nil] at h
    simp only at h
    split at h <;> cases h
  | cons a before =>
    have hparts : p.parts = before.reverse ++ [a] := by
      rw [← List.reverse_reverse p.parts, hrev, List.reverse_cons]
    have hlast : p.parts.getLast? = some a := by rw [hparts, List.getLast?_concat]
    rw [hrev, hlast] at h
    by_cases ha : a = ""
    · -- an empty part at the end is the slash
      split at h
      · split at h <;> cases h
      · split at h
        · cases h
        · simp [ha] at h
    · rw [List.dropWhile_cons_of_neg (by simpa using ha)] at h
      simp only at h
      split at h
      · cases h
      · rename_i hdots
        obtain ⟨hdot, hup⟩ := not_or.mp hdots
        simp only [Direction.entry.injEq] at h
        obtain ⟨rfl, rfl, -⟩ := h
        exact ⟨hparts, by simp [blank, ha, hdot], hup⟩

/-- Only blank parts are left out at the end of a path. -/
theorem exists_trim (p : Path) : ∃ tail, p.parts = p.trim.parts ++ tail ∧ ∀ part ∈ tail, blank part = true := by
  refine ⟨(p.parts.reverse.takeWhile blank).reverse, ?_, fun part hpart => ?_⟩
  · rw [trim, ← List.reverse_append, List.takeWhile_append_dropWhile, List.reverse_reverse]
  · exact List.all_eq_true.mp List.all_takeWhile part (List.mem_reverse.mp hpart)

/-- After that a path is empty, or its last part is not blank. -/
theorem trim_cases (p : Path) :
    p.trim.parts = [] ∨ ∃ before last, p.trim.parts = before ++ [last] ∧ blank last = false := by
  have hhead := List.head?_dropWhile_not blank p.parts.reverse
  unfold trim
  cases hdrop : p.parts.reverse.dropWhile blank with
  | nil => exact Or.inl rfl
  | cons last before =>
    rw [hdrop] at hhead
    exact Or.inr ⟨before.reverse, last, List.reverse_cons, hhead⟩

/-- The parent of a path that ends in a name has the parts before it. -/
theorem parent_append {p : Path} {parts : List String} {name : String} (hp : p.parts = parts ++ [name])
    (hname : blank name = false) : p.parent = ({ p with parts } : Path).trim := by
  have hdrop : (parts ++ [name]).reverse.dropWhile blank = name :: parts.reverse := by
    rw [List.reverse_append, List.reverse_singleton, List.singleton_append,
      List.dropWhile_cons_of_neg (by simp [hname])]
  have htrim : p.trim.parts = parts ++ [name] := by
    rw [trim, hp, hdrop, List.reverse_cons, List.reverse_reverse]
  rw [parent, htrim, List.dropLast_concat]

/-- A path that ends in a part which is not blank is the first of those above it. -/
theorem ancestors_cons {p : Path} {before : List String} {last : String} (hp : p.parts = before ++ [last])
    (hlast : blank last = false) : ∃ above, p.ancestors = p :: above := by
  have hlen : p.parts.length = before.length + 1 := by rw [hp, List.length_append, List.length_singleton]
  have hget : p.parts[before.length]? = some last := by rw [hp, List.getElem?_concat_length]
  have htake : p.parts.take (before.length + 1) = p.parts := by rw [← hlen, List.take_length]
  unfold ancestors
  rw [hlen, List.range_succ, List.reverse_append, List.reverse_singleton, List.singleton_append,
    List.filterMap_cons_some (by rw [hget, Option.all_some, hlast, if_neg Bool.false_ne_true])]
  rw [htake]
  exact ⟨_, rfl⟩

end Path

namespace FileStore

variable {s : FileStore}

/-! ## Below a directory -/

theorem walk_append {place : Place} {before after : List String} :
    s.walk place (before ++ after) = (s.walk place before).bind fun next => s.walk next after := by
  induction before generalizing place with
  | nil => rfl
  | cons part before ih =>
    rw [List.cons_append, FileStore.walk, FileStore.walk]
    cases s.step place part with
    | error fault => rfl
    | ok next => exact ih

theorem walk_blank {place : Place} {parts : List String} (h : ∀ part ∈ parts, Path.blank part = true) :
    s.walk place parts = .ok place := by
  induction parts with
  | nil => rfl
  | cons part parts ih =>
    have hstep : s.step place part = .ok place := by rw [FileStore.step, if_pos (h part List.mem_cons_self)]
    rw [FileStore.walk, hstep]
    exact ih fun part hpart => h part (List.mem_cons_of_mem _ hpart)

/-- The path of a directory can be followed to its end. -/
theorem walk_of_isDirectory {p : Path} {before : List String} {last : String} (hp : p.parts = before ++ [last])
    (hlast : Path.blank last = false) (h : s.isDirectory p = true) :
    ∃ reached, s.walk (s.start p) p.parts = .ok reached := by
  obtain ⟨hempty, hdot⟩ : last ≠ "" ∧ last ≠ "." := by simpa [Path.blank] using hlast
  cases hr : s.resolve p with
  | error fault => simp [isDirectory, find, hr, bind, Except.bind] at h
  | ok t =>
    have hresolve := hr
    rw [resolve_of_takes (takes_of_resolve hr), Path.direction_append hp hempty] at hr
    by_cases hup : last = ".."
    · rw [if_pos (Or.inr hup)] at hr
      obtain ⟨reached, hw, -⟩ := map_eq_ok.mp hr
      exact ⟨reached, hw⟩
    · rw [if_neg (not_or.mpr ⟨hdot, hup⟩)] at hr
      obtain ⟨place, hw, rfl⟩ := map_eq_ok.mp hr
      -- the last part is the name of a directory where the others lead
      cases hc : s.child? place last with
      | error fault => simp [isDirectory, find, hresolve, hc, bind, Except.bind] at h
      | ok e? =>
        have hdir : e? = some .directory := by
          rcases e? with _ | _ | text
          · simp [isDirectory, find, hresolve, hc, bind, Except.bind] at h
          · rfl
          · simp [isDirectory, find, hresolve, hc, bind, Except.bind, pure, Except.pure] at h
        have hstep : s.step place last = .ok (place ++ [last]) := by
          rw [FileStore.step, if_neg (by simp [hlast]), if_neg hup, hc, hdir]
        refine ⟨place ++ [last], ?_⟩
        rw [hp, walk_append, hw]
        show s.walk place [last] = _
        rw [FileStore.walk, hstep]
        rfl

/-- After directories were made, their path can be followed to its end. -/
theorem walk_makeDirs {p : Path} (h : (s.makeDirs p.trim).1 = .ok ()) :
    ∃ reached, (s.makeDirs p.trim).2.walk ((s.makeDirs p.trim).2.start p) p.parts = .ok reached := by
  obtain ⟨tail, hparts, hblank⟩ := p.exists_trim
  have hreached : ∃ reached, (s.makeDirs p.trim).2.walk ((s.makeDirs p.trim).2.start p) p.trim.parts =
      .ok reached := by
    rcases p.trim_cases with hnil | ⟨before, last, hp, hlast⟩
    · rw [hnil]
      exact ⟨_, rfl⟩
    · obtain ⟨above, habove⟩ := Path.ancestors_cons hp hlast
      rw [makeDirs, habove] at h ⊢
      exact walk_of_isDirectory hp hlast (isDirectory_makeFirst h)
  obtain ⟨reached, hw⟩ := hreached
  refine ⟨reached, ?_⟩
  rw [hparts, walk_append, hw]
  exact walk_blank hblank

/-- A path that ends in the name of a file. -/
structure NamesFile (p : Path) (parts : List String) (name : String) : Prop where
  takes : Takes p
  direction : p.direction = .entry parts name false
  short : name.utf8ByteSize ≤ nameLimit

/-- After its directories were made, a path that names a file leads to an entry. -/
theorem resolve_makeDirs {p : Path} {parts : List String} {name : String} (hp : NamesFile p parts name)
    (h : (s.makeDirs p.parent).1 = .ok ()) :
    ∃ place, (s.makeDirs p.parent).2.resolve p = .ok (.entry place name false) := by
  obtain ⟨hparts, hname, -⟩ := Path.parts_of_direction hp.direction
  rw [Path.parent_append hparts hname] at h ⊢
  obtain ⟨place, hw⟩ := walk_makeDirs h
  refine ⟨place, ?_⟩
  rw [resolve_of_takes hp.takes, hp.direction]
  exact map_eq_ok.mpr ⟨place, hw, rfl⟩

/-- A file is written where a path leads to an entry that is no directory. -/
theorem write_of_resolve {p : Path} {place : Place} {name : String} (hr : s.resolve p = .ok (.entry place name false))
    (hshort : name.utf8ByteSize ≤ nameLimit) (hdir : s.isDirectory p = false) (text : String) :
    s.write p text = .ok (s.put (place ++ [name]) (.file text)) := by
  have hc : s.child? place name = .ok (s.get? (place ++ [name])) := child?_eq_ok.mpr ⟨hshort, rfl⟩
  cases hget : s.get? (place ++ [name]) with
  | none => simp [write, hr, hc, hget, bind, Except.bind, pure, Except.pure]
  | some e =>
    cases e with
    | file old => simp [write, hr, hc, hget, bind, Except.bind, pure, Except.pure]
    | directory =>
      rw [hget] at hc
      rw [find_of_resolve hr hc] at hdir
      cases hdir

/-- Whether a file can be written does not depend on what is written. -/
theorem write_error {p : Path} {text : String} {fault : StoreFault} (h : s.write p text = .error fault)
    (other : String) : s.write p other = .error fault := by
  unfold write at h ⊢
  cases hr : s.resolve p with
  | error fault' =>
    rw [hr] at h
    exact h
  | ok t =>
    rw [hr] at h
    cases t with
    | whole place => exact h
    | entry place name slash =>
      cases slash with
      | true => exact h
      | false =>
        cases hc : s.child? place name with
        | error fault' =>
          simp only [bind, Except.bind, hc, Bool.false_eq_true, if_false] at h ⊢
          exact h
        | ok e? =>
          simp only [bind, Except.bind, hc, pure, Except.pure, Bool.false_eq_true, if_false] at h ⊢
          split at h
          · exact h
          · cases h

end FileStore

end Tremor
