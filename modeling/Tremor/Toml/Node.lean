/-!
# TOML documents as trees

- `Node` : a value, a table or an array of tables
- `Entries` : the entries of a table, in order
-/

namespace Tremor.Toml

/-- How a table came to be, which decides what may still be added to it. -/
inductive TableKind where
  /-- By a header of its own, or as the document itself. -/
  | header
  /-- As a part of the path of a header. -/
  | implied
  /-- As a part of a dotted key. -/
  | dotted
  /-- Written in braces. -/
  | inline
  deriving DecidableEq, Repr

inductive Node where
  | text (s : String)
  | integer (i : Int)
  | float (x : Float)
  | boolean (b : Bool)
  /-- A date, a time, or both. -/
  | moment
  | array (items : List Node)
  | table (kind : TableKind) (entries : List (String × Node))
  /-- Tables written under headers in double brackets. -/
  | tables (elements : List (List (String × Node)))

abbrev Entries := List (String × Node)

def Entries.get? (es : Entries) (key : String) : Option Node := es.lookup key

/-- Puts a node in the place of the one with its key. -/
def Entries.replace (es : Entries) (key : String) (node : Node) : Entries :=
  es.map fun (k, n) => if k = key then (k, node) else (k, n)

end Tremor.Toml
