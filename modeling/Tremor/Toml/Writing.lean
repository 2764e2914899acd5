import Tremor.Number.Shortest
import Tremor.Toml.Grammar
import Tremor.Toml.Library

/-!
# Writing TOML

Each section is a table under a header, with one setting on a line, and an empty line stands between sections. Numbers
have the fewest digits that read back, without an exponent, and a mark even when they are whole.

- `write` : the text of some sections
- `library` : this writer with the parser
-/

namespace Tremor

namespace Setting

def style : Number.DoubleStyle := { wholeMark := ".0", nan := "nan", infinity := "inf", tie := .up }

/-- The text of a setting; a count must be below `2 ^ 63`. -/
def text? : Setting → Option String
  | number x => some (Number.shortestText style x)
  | count n => if n < 0x8000000000000000 then some (toString n.toNat) else none
  | flag b => some (if b then "true" else "false")

def line? (name : String) (s : Setting) : Option String := s.text?.map fun text => name ++ " = " ++ text ++ "\n"

end Setting

namespace Toml

def sectionText? (s : Section) : Option String :=
  (s.2.mapM fun (key, value) => Setting.line? key value).map fun lines => "[" ++ s.1 ++ "]\n" ++ String.join lines

/-- The text of some sections, or nothing when a count is too great. -/
def write (sections : List Section) : Option String :=
  (sections.mapM sectionText?).map (String.intercalate "\n")

def library : Library := { write, read := parse }

end Toml

end Tremor
