/-!
# Characters of a TOML text

- `skipBlank`, `skipSpace` : what may stand between the parts of a line, and between the items of an array
- `lineEnd` : the end of a line, with an optional comment
- `Scan` : the shape of all readers: a value and the rest of the text, or nothing
-/

namespace Tremor.Toml

/-- A reader takes a value from the front of a text. -/
abbrev Scan (α : Type) := List Char → Option (α × List Char)

def isBlank (c : Char) : Bool := c = ' ' || c = '\t'

/-- Characters of a comment or a text: a tab, and everything but the control characters of ASCII. -/
def isPrintable (c : Char) : Bool := c = '\t' || (decide (0x20 ≤ c.toNat) && c.toNat != 0x7F)

def skipBlank (cs : List Char) : List Char := cs.dropWhile isBlank

def newline? : List Char → Option (List Char)
  | '\n' :: r => some r
  | '\r' :: '\n' :: r => some r
  | _ => none

def skipComment : List Char → List Char
  | '#' :: r => r.dropWhile isPrintable
  | cs => cs

/-- Takes blanks, a comment and a line break, or the end of the text. -/
def lineEnd (cs : List Char) : Option (List Char) :=
  match skipComment (skipBlank cs) with
  | [] => some []
  | rest => newline? rest

/-- Drops blanks, line breaks and comments; `comment` tells whether a comment has begun. -/
def skipSpaceFrom : (comment : Bool) → List Char → List Char
  | _, [] => []
  | _, '\n' :: r => skipSpaceFrom false r
  | _, '\r' :: '\n' :: r => skipSpaceFrom false r
  | true, c :: r => if isPrintable c then skipSpaceFrom true r else c :: r
  | false, '#' :: r => skipSpaceFrom true r
  | false, c :: r => if isBlank c then skipSpaceFrom false r else c :: r

/-- Drops blanks, line breaks and comments. -/
def skipSpace (cs : List Char) : List Char := skipSpaceFrom false cs

end Tremor.Toml
