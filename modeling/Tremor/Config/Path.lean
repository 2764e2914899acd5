/-!
# Paths

A path is a text of parts between slashes. An empty part or a single dot stays where it is, a double dot goes up, and
any other part is the name of what to go to. The text is kept part by part, so that its length is known and a slash or
a dot at its end is not lost.

- `Path.ofString`, `Path.toString` : a path and its text
- `Path.parent` : the path of the directory that a path lies in
- `Path.ancestors` : a path with all the paths above it
- `Path.direction` : what the last part asks for
-/

namespace Tremor

/-- A path by its parts. A path that starts with a slash is rooted, and its parts are those after this slash. -/
structure Path where
  rooted : Bool := false
  parts : List String := []
  deriving DecidableEq, Repr

/-- What the last part of a path asks for. -/
inductive Direction where
  /-- The path has no text. -/
  | nowhere
  /-- The directory that these parts lead to, and no entry of it. -/
  | stay (parts : List String)
  /-- An entry of the directory that these parts lead to; a slash after its name asks for a directory. -/
  | entry (parts : List String) (name : String) (slash : Bool)

namespace Path

/-- The parts of a text between slashes: at least one, which may be empty. -/
def split : List Char → List (List Char)
  | [] => [[]]
  | c :: cs =>
    if c = '/' then [] :: split cs
    else match split cs with
      | [] => [[c]]
      | part :: parts => (c :: part) :: parts

def join : List (List Char) → List Char
  | [] => []
  | [part] => part
  | part :: parts => part ++ '/' :: join parts

def ofString (s : String) : Path :=
  match s.toList with
  | '/' :: cs => { rooted := true, parts := (split cs).map String.ofList }
  | cs => { parts := (split cs).map String.ofList }

def toString (p : Path) : String :=
  let text := join (p.parts.map String.toList)
  String.ofList (if p.rooted then '/' :: text else text)

/-- Whether a part stays where it is. -/
def blank (part : String) : Bool := part = "" || part = "."

/-- Leaves out the blank parts at the end. -/
def trim (p : Path) : Path := { p with parts := (p.parts.reverse.dropWhile blank).reverse }

/-- The path of the directory that a path lies in. A double dot at the end is left out like a name. -/
def parent (p : Path) : Path := { p with parts := p.trim.parts.dropLast }.trim

/-- A path with all the paths above it, the longest first and the root left out. -/
def ancestors (p : Path) : List Path :=
  (List.range p.parts.length).reverse.filterMap fun n =>
    if (p.parts[n]?).all blank then none else some { p with parts := p.parts.take (n + 1) }

/-- What the last part of a path asks for. -/
def direction (p : Path) : Direction :=
  match p.parts.reverse.dropWhile (· = "") with
  | [] => if p.rooted then .stay [] else .nowhere
  | last :: before =>
    if last = "." ∨ last = ".." then .stay (before.reverse ++ [last])
    else .entry before.reverse last (p.parts.getLast? = some "")

end Path

end Tremor
