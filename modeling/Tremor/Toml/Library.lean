import Tremor.Toml.Lexical
import Tremor.Toml.Node

/-!
# A library for TOML

The program writes tables of settings and reads documents through a library that is given to it.

- `Setting` : a value that the program writes
- `Library` : what writes and reads
- `Library.Lawful` : what the program relies on
-/

namespace Tremor

inductive Setting where
  | number (x : Float)
  | count (n : UInt64)
  | flag (b : Bool)

namespace Setting

/-- Whether a setting can be written: an integer of a document has 64 bits with a sign. -/
def fits : Setting → Bool
  | count n => decide (n < 0x8000000000000000)
  | _ => true

def isNaN : Setting → Bool
  | number x => x.isNaN
  | _ => false

/-- The node that a setting is read as. -/
def node : Setting → Toml.Node
  | number x => .float x
  | count n => .integer n.toNat
  | flag b => .boolean b

end Setting

namespace Toml

/-- Characters of a key without quotes. -/
def isBare (c : Char) : Bool := c.isAlphanum || c = '-' || c = '_'

/-- A name that stands without quotes. -/
structure Bare (name : String) : Prop where
  ne_nil : name.toList ≠ []
  all : ∀ c ∈ name.toList, isBare c = true

instance (name : String) : Decidable (Bare name) :=
  decidable_of_iff (name.toList ≠ [] ∧ name.toList.all isBare = true)
    ⟨fun h => ⟨h.1, List.all_eq_true.mp h.2⟩, fun h => ⟨h.ne_nil, List.all_eq_true.mpr h.all⟩⟩

/-- A table to write: its name and its settings, in order. -/
abbrev Section := String × List (String × Setting)

/-- What writes tables as a text and reads a text as a document. -/
structure Library where
  write : List Section → Option String
  read : String → Option Entries

/-- The entry that a named setting is read as. -/
def readEntry (s : String × Setting) : String × Node := (s.1, s.2.node)

/-- Sections whose names and keys stand without quotes, none of them used twice in one place. -/
structure WellNamed (sections : List Section) : Prop where
  names : ∀ s ∈ sections, Bare s.1
  distinct : (sections.map Prod.fst).Nodup
  keys : ∀ s ∈ sections, ∀ e ∈ s.2, Bare e.1
  distinctKeys : ∀ s ∈ sections, (s.2.map Prod.fst).Nodup

/-- Sections are written unless a count does not fit, and what was written is read as the same tables. -/
structure Library.Lawful (lib : Library) : Prop where
  writes : ∀ {sections : List Section}, WellNamed sections →
    ((lib.write sections).isSome ↔ ∀ s ∈ sections, ∀ e ∈ s.2, e.2.fits = true)
  reads : ∀ {sections : List Section} {text : String}, WellNamed sections →
    (∀ s ∈ sections, ∀ e ∈ s.2, e.2.isNaN = false) → lib.write sections = some text →
    ∃ document, lib.read text = some document ∧
      ∀ s ∈ sections, ∃ kind, document.get? s.1 = some (.table kind (s.2.map readEntry))

end Toml

end Tremor
