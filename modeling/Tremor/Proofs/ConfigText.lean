import Tremor.Config.Reading
import Tremor.Config.Writing

/-!
# A configuration is read back from its text

A library that does what the program relies on writes a configuration just when its counts are below `2 ^ 63`, and
what was written is read as the same configuration, as far as its numbers are numbers.

- `Config.CountsFit`, `Config.NoNaN` : what a text can hold, and what is the same after reading
- `isSome_write_iff` : which configurations are written
- `read_of_write` : what was written is read back
-/

namespace Tremor.Config

open Toml

variable {lib : Library} {c : Config}

/-! ## Settings -/

/-- The settings of a configuration. -/
def settings (c : Config) : List Setting := c.toSections.flatMap fun s => s.2.map Prod.snd

/-- No count is too great to be written. -/
def CountsFit (c : Config) : Prop := ∀ s ∈ c.settings, s.fits = true

/-- All numbers are numbers. -/
def NoNaN (c : Config) : Prop := ∀ s ∈ c.settings, s.isNaN = false

instance (c : Config) : Decidable c.CountsFit := inferInstanceAs (Decidable (∀ s ∈ c.settings, s.fits = true))

instance (c : Config) : Decidable c.NoNaN := inferInstanceAs (Decidable (∀ s ∈ c.settings, s.isNaN = false))

theorem forall_mem_settings {P : Setting → Prop} :
    (∀ s ∈ c.settings, P s) ↔ ∀ s ∈ c.toSections, ∀ e ∈ s.2, P e.2 := by
  simp only [settings, List.mem_flatMap, List.mem_map]
  constructor
  · intro h s hs e he
    exact h e.2 ⟨s, hs, e, he, rfl⟩
  · rintro h _ ⟨s, hs, e, he, rfl⟩
    exact h s hs e he

/-! ## Names -/

/-- The names of the sections and of their settings. -/
def outline (c : Config) : List (String × List String) := c.toSections.map fun s => (s.1, s.2.map Prod.fst)

/-- All names stand without quotes, and none is used twice. -/
theorem outline_names (c : Config) :
    (c.outline.map Prod.fst).Nodup ∧ ∀ o ∈ c.outline, Bare o.1 ∧ (∀ key ∈ o.2, Bare key) ∧ o.2.Nodup := by
  have hsame : c.outline = outline {} := rfl
  rw [hsame]
  decide +kernel

theorem wellNamed_toSections (c : Config) : WellNamed c.toSections := by
  obtain ⟨hdistinct, hnames⟩ := c.outline_names
  have hnames : ∀ s ∈ c.toSections, Bare s.1 ∧ (∀ key ∈ s.2.map Prod.fst, Bare key) ∧ (s.2.map Prod.fst).Nodup :=
    fun s hs => hnames (s.1, s.2.map Prod.fst) (List.mem_map_of_mem hs)
  refine ⟨fun s hs => (hnames s hs).1, ?_, fun s hs e he => (hnames s hs).2.1 e.1 (List.mem_map_of_mem he),
    fun s hs => (hnames s hs).2.2⟩
  rw [outline, List.map_map] at hdistinct
  exact hdistinct

/-! ## Writing and reading -/

/-- A configuration is written just when its counts fit. -/
theorem isSome_write_iff (hlib : lib.Lawful) : (c.write lib).isSome ↔ c.CountsFit := by
  rw [write, hlib.writes c.wellNamed_toSections, CountsFit, forall_mem_settings]

theorem write_eq_none (hlib : lib.Lawful) (h : ¬ c.CountsFit) : c.write lib = none := by
  rw [← isSome_write_iff hlib, Option.not_isSome_iff_eq_none] at h
  exact h

theorem readNumber_node (x : Float) : readNumber (Setting.number x).node = some x := rfl

theorem readCount_node (n : UInt64) : readCount (Setting.count n).node = some n := by
  simp [readCount, Setting.node]

theorem readFlag_node (b : Bool) : readFlag (Setting.flag b).node = some b := rfl

/-- A setting that is there is read. -/
theorem field_named {α : Type} {read : Node → Option α} {default : α} {entries : Entries} {name : String} {place : Nat}
    {node : Node} (h : entries.get? name = some node) :
    (Settings.named entries).field read default name place = read node := by
  simp only [Settings.field, Settings.get?, h]

/-- A document that has the tables of a configuration stands for it. -/
theorem ofEntries_eq_some {document : Entries}
    (h : ∀ s ∈ c.toSections, ∃ kind, document.get? s.1 = some (.table kind (s.2.map readEntry))) :
    ofEntries document = some c := by
  simp only [toSections, List.forall_mem_cons] at h
  obtain ⟨⟨_, hbuffer⟩, ⟨_, hfinder⟩, ⟨_, hanalysis⟩, ⟨_, hplayground⟩, -⟩ := h
  simp only [ofEntries, field_named hbuffer, field_named hfinder, field_named hanalysis, field_named hplayground]
  simp [readEntry, readBuffer, readFinder, readAnalysis, readPlayground, Settings.ofNode, Settings.field,
    Settings.get?, Entries.get?, List.lookup_cons, readNumber_node, readCount_node, readFlag_node]

/-- What was written is read back. -/
theorem read_of_write (hlib : lib.Lawful) {text : String} (h : c.write lib = some text) (hn : c.NoNaN) :
    read lib text = some c := by
  obtain ⟨document, hread, htables⟩ := hlib.reads c.wellNamed_toSections (forall_mem_settings.mp hn) h
  rw [read, hread, Option.bind_some, ofEntries_eq_some htables]

end Tremor.Config
