import Tremor.Toml.Node

/-!
# Building the tree of a document

Headers and assignments say where an entry stands. A table has one header at most; a dotted key adds only to tables
that came from dotted keys or from longer headers; a key is assigned once.

- `within` : changes the table at the end of a path
- `assign`, `openTable`, `openElement` : what an assignment and the two kinds of headers do
- `build` : the tree of a sequence of statements
-/

namespace Tremor.Toml

/-- A line of a document. -/
inductive Statement where
  /-- The header of a table; the path is not empty. -/
  | table (path : List String) (key : String)
  /-- The header of the next table of an array. -/
  | element (path : List String) (key : String)
  | assignment (path : List String) (key : String) (value : Node)

/-- Changes the table at the end of a path. Tables that are missing on the way are made. A dotted key does not pass
through a table with a header; of an array of tables the last one is meant. -/
def within (dotted : Bool) (change : TableKind → Entries → Option Entries) :
    (path : List String) → TableKind → Entries → Option Entries
  | [], kind, es => change kind es
  | key :: path, _, es =>
    match es.get? key with
    | none =>
      let kind := if dotted then .dotted else .implied
      (within dotted change path kind []).map fun inner => es ++ [(key, .table kind inner)]
    | some (.table kind inner) =>
      if kind = .inline ∨ (dotted ∧ kind = .header) then none
      else (within dotted change path kind inner).map fun inner => es.replace key (.table kind inner)
    | some (.tables elements) => do
      let last ← elements.getLast?
      let inner ← within dotted change path .header last
      return es.replace key (.tables (elements.dropLast ++ [inner]))
    | some _ => none

def addEntry (key : String) (value : Node) (es : Entries) : Option Entries :=
  if (es.get? key).isSome then none else some (es ++ [(key, value)])

/-- Adds an entry under a dotted key; its table must have come from a dotted key too. -/
def assign (path : List String) (key : String) (value : Node) (es : Entries) : Option Entries :=
  within true (fun kind es => if path.isEmpty ∨ kind = .dotted then addEntry key value es else none) path .header es

/-- Gives a table its header. -/
def openTable (key : String) (es : Entries) : Option Entries :=
  match es.get? key with
  | none => some (es ++ [(key, .table .header [])])
  | some (.table .implied inner) => some (es.replace key (.table .header inner))
  | some _ => none

/-- Adds a table to an array of tables. -/
def openElement (key : String) (es : Entries) : Option Entries :=
  match es.get? key with
  | none => some (es ++ [(key, .tables [[]])])
  | some (.tables elements) => some (es.replace key (.tables (elements ++ [[]])))
  | some _ => none

/-- Carries out one statement; `current` is the path of the last header. -/
def apply (root : Entries) (current : List String) : Statement → Option (Entries × List String)
  | .table path key => (within false (fun _ => openTable key) path .header root).map (·, path ++ [key])
  | .element path key => (within false (fun _ => openElement key) path .header root).map (·, path ++ [key])
  | .assignment path key value =>
    (within false (fun _ => assign path key value) current .header root).map (·, current)

/-- Carries out statements from a tree on. -/
def buildFrom (root : Entries) (current : List String) : List Statement → Option Entries
  | [] => some root
  | s :: rest =>
    match apply root current s with
    | none => none
    | some (root, current) => buildFrom root current rest

/-- The tree of a sequence of statements. -/
def build (statements : List Statement) : Option Entries := buildFrom [] [] statements

end Tremor.Toml
