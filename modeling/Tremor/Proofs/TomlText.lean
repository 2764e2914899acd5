import Tremor.Proofs.Document
import Tremor.Toml.Writing

/-!
# What is written is read

The lines that are written for some sections are taken as the statements that build their tables, and every section
is written whose counts are below `2 ^ 63`. So the writer and the parser do what the program relies on.

- `Setting.legible`, `parses_lines`, `parses_section`, `parses_sections` : texts are taken as statements
- `isSome_write_iff` : which sections are written
- `parse_write` : the document that is read from them
- `library_lawful` : both of these
-/

namespace Tremor

open Toml

/-! ## Settings -/

namespace Setting

theorem isSome_text?_iff (s : Setting) : s.text?.isSome ↔ s.fits = true := by
  cases s with
  | number x => exact ⟨fun _ => rfl, fun _ => rfl⟩
  | flag b => exact ⟨fun _ => rfl, fun _ => rfl⟩
  | count n =>
    simp only [text?, fits, decide_eq_true_eq]
    split <;> simp_all

/-- The text of a setting is read as this setting. -/
theorem legible {s : Setting} {text : String} (h : s.text? = some text) (hn : s.isNaN = false) :
    Legible text.toList s.node := by
  cases s with
  | number x =>
    cases h
    refine legible_double rfl rfl fun hparts => ?_
    have hnan : x.toModel.unpack.isNaN = true := by
      rw [Number.unpack_eq, hparts]
      rfl
    exact absurd (hn.symm.trans hnan) Bool.false_ne_true
  | count n =>
    simp only [text?] at h
    split at h
    · rename_i hlt
      cases h
      exact legible_count (UInt64.lt_iff_toNat_lt.mp hlt)
    · cases h
  | flag b =>
    cases h
    exact legible_boolean b

end Setting

namespace Toml

/-! ## Sections -/

theorem isSome_mapM_iff {α β : Type} {f : α → Option β} {xs : List α} :
    (xs.mapM f).isSome ↔ ∀ x ∈ xs, (f x).isSome := by
  induction xs with
  | nil => simp
  | cons x xs ih =>
    rw [List.mapM_cons, List.forall_mem_cons, ← ih]
    cases f x with
    | none => simp
    | some y => cases xs.mapM f <;> simp

theorem mapM_cons_eq_some {α β : Type} {f : α → Option β} {x : α} {xs : List α} {ys : List β}
    (h : (x :: xs).mapM f = some ys) : ∃ y rest, f x = some y ∧ xs.mapM f = some rest ∧ ys = y :: rest := by
  rw [List.mapM_cons] at h
  obtain ⟨y, hy, h⟩ := Option.bind_eq_some_iff.mp h
  obtain ⟨rest, hrest, h⟩ := Option.bind_eq_some_iff.mp h
  exact ⟨y, rest, hy, hrest, (Option.some.inj h).symm⟩

/-- The lines of settings are taken as their assignments. -/
theorem parses_lines {settings : List (String × Setting)} (hkeys : ∀ s ∈ settings, Bare s.1)
    (hn : ∀ s ∈ settings, s.2.isNaN = false) {lines : List String}
    (h : (settings.mapM fun (key, s) => Setting.line? key s) = some lines) {r : List Char} {ss : List Statement}
    (hr : Parses r ss) :
    Parses (lines.flatMap String.toList ++ r)
      (((settings.map readEntry).map fun e => .assignment [] e.1 e.2) ++ ss) := by
  induction settings generalizing lines with
  | nil =>
    cases h
    exact hr
  | cons s settings ih =>
    obtain ⟨line, rest, hline, hrest, rfl⟩ := mapM_cons_eq_some h
    obtain ⟨text, htext, rfl⟩ := Option.map_eq_some_iff.mp hline
    have ih := ih (fun s hs => hkeys s (List.mem_cons_of_mem _ hs))
      (fun s hs => hn s (List.mem_cons_of_mem _ hs)) hrest
    have hlegible := Setting.legible htext (hn _ List.mem_cons_self)
    have hparses := parses_assignment (hkeys _ List.mem_cons_self) hlegible ih
    simpa [readEntry] using hparses

/-- The section that written settings are read as. -/
def readSection (s : Section) : String × Entries := (s.1, s.2.map readEntry)

theorem parses_section {s : Section} (hname : Bare s.1) (hkeys : ∀ e ∈ s.2, Bare e.1)
    (hn : ∀ e ∈ s.2, e.2.isNaN = false) {text : String} (h : sectionText? s = some text) {r : List Char}
    {ss : List Statement} (hr : Parses r ss) :
    Parses (text.toList ++ r) (sectionStatements (readSection s) ++ ss) := by
  obtain ⟨lines, hlines, rfl⟩ := Option.map_eq_some_iff.mp h
  have hheader := parses_header hname (parses_lines hkeys hn hlines hr)
  simpa [sectionStatements, readSection] using hheader

/-- The text of sections, with empty lines between them, is taken as their statements. -/
theorem parses_sections {sections : List Section} (hnames : ∀ s ∈ sections, Bare s.1)
    (hkeys : ∀ s ∈ sections, ∀ e ∈ s.2, Bare e.1) (hn : ∀ s ∈ sections, ∀ e ∈ s.2, e.2.isNaN = false)
    {texts : List String} (h : sections.mapM sectionText? = some texts) :
    Parses (String.intercalate "\n" texts).toList ((sections.map readSection).flatMap sectionStatements) := by
  induction sections generalizing texts with
  | nil =>
    cases h
    exact parses_nil
  | cons s sections ih =>
    obtain ⟨text, rest, htext, hrest, rfl⟩ := mapM_cons_eq_some h
    have ih := ih (fun s hs => hnames s (List.mem_cons_of_mem _ hs)) (fun s hs => hkeys s (List.mem_cons_of_mem _ hs))
      (fun s hs => hn s (List.mem_cons_of_mem _ hs)) hrest
    have hsection := fun r ss => @parses_section s (hnames s List.mem_cons_self) (hkeys s List.mem_cons_self)
      (hn s List.mem_cons_self) text htext r ss
    rw [List.map_cons, List.flatMap_cons]
    cases rest with
    | nil =>
      have hnil : sections = [] := by
        cases sections with
        | nil => rfl
        | cons s sections =>
          obtain ⟨_, _, _, _, heq⟩ := mapM_cons_eq_some hrest
          cases heq
      subst hnil
      have hlast := hsection [] [] parses_nil
      rw [List.append_nil] at hlast
      rw [String.intercalate_singleton]
      exact hlast
    | cons next rest =>
      have hmore := hsection _ _ (parses_empty ih)
      rw [String.intercalate_cons_cons, String.toList_append, String.toList_append, List.append_assoc]
      exact hmore

/-! ## Documents -/

/-- Sections are written just when their counts fit. -/
theorem isSome_write_iff {sections : List Section} :
    (write sections).isSome ↔ ∀ s ∈ sections, ∀ e ∈ s.2, e.2.fits = true := by
  rw [write, Option.isSome_map, isSome_mapM_iff]
  refine forall₂_congr fun s _ => ?_
  simp only [sectionText?, Option.isSome_map, isSome_mapM_iff, Setting.line?]
  exact forall₂_congr fun e _ => e.2.isSome_text?_iff

/-- A text of some sections starts with a header. -/
theorem head_sections {s : Section} {sections : List Section} {texts : List String}
    (h : (s :: sections).mapM sectionText? = some texts) :
    ∃ cs, (String.intercalate "\n" texts).toList = '[' :: cs := by
  obtain ⟨text, rest, htext, -, rfl⟩ := mapM_cons_eq_some h
  obtain ⟨lines, -, rfl⟩ := Option.map_eq_some_iff.mp htext
  cases rest with
  | nil => simp
  | cons next rest => simp [String.intercalate_cons_cons]

/-- The document that is read from what was written. -/
theorem parse_write {sections : List Section} {text : String} (hnamed : WellNamed sections)
    (hn : ∀ s ∈ sections, ∀ e ∈ s.2, e.2.isNaN = false) (h : write sections = some text) :
    parse text = some ((sections.map readSection).map sectionEntry) := by
  obtain ⟨texts, htexts, rfl⟩ := Option.map_eq_some_iff.mp h
  have hparses := parses_sections hnamed.names hnamed.keys hn htexts
  have hstatements : statements (String.intercalate "\n" texts).toList =
      some ((sections.map readSection).flatMap sectionStatements) := by
    cases sections with
    | nil =>
      cases htexts
      rfl
    | cons s sections =>
      obtain ⟨cs, hcs⟩ := head_sections htexts
      rw [hcs] at hparses ⊢
      exact statements_eq (by decide) hparses
  have hnames : ((([] : Entries).map Prod.fst) ++ (sections.map readSection).map Prod.fst).Nodup := by
    rw [List.map_nil, List.nil_append, List.map_map]
    exact hnamed.distinct
  have hkeys : ∀ s ∈ sections.map readSection, (s.2.map Prod.fst).Nodup := by
    intro s hs
    obtain ⟨s, hmem, rfl⟩ := List.mem_map.mp hs
    rw [readSection, List.map_map]
    exact hnamed.distinctKeys s hmem
  rw [parse, hstatements, Option.bind_some, build, buildFrom_sections hnames hkeys, List.nil_append]

/-- The table of a section is found by its name. -/
theorem get?_sections {sections : List Section} (hdistinct : (sections.map Prod.fst).Nodup) {s : Section}
    (hs : s ∈ sections) :
    Entries.get? ((sections.map readSection).map sectionEntry) s.1 = some (.table .header (s.2.map readEntry)) := by
  induction sections with
  | nil => cases hs
  | cons first sections ih =>
    obtain ⟨hfirst, hdistinct⟩ := List.nodup_cons.mp hdistinct
    rw [Entries.get?, List.map_cons, List.map_cons, sectionEntry, readSection, List.lookup_cons]
    rcases List.mem_cons.mp hs with rfl | hs
    · rw [beq_self_eq_true]
    · have hne : (s.1 == first.1) = false := by
        rw [beq_eq_false_iff_ne]
        intro he
        exact hfirst (he ▸ List.mem_map_of_mem hs)
      rw [hne]
      exact ih hdistinct hs

/-- The writer and the parser do what the program relies on. -/
theorem library_lawful : library.Lawful where
  writes _ := isSome_write_iff
  reads hnamed hn h := ⟨_, parse_write hnamed hn h, fun _ hs => ⟨.header, get?_sections hnamed.distinct hs⟩⟩

end Toml

end Tremor
