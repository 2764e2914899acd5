import Tremor.Toml.Lexical

/-!
# Quoted texts

A text stands in double quotes, with escapes, or in single quotes, without. Three quotes open a text of several lines;
up to two quotes may then stand before the three that close it.

- `quoted` : a text on one line
- `quotedLines` : a text of several lines
-/

namespace Tremor.Toml

def hexValue? (c : Char) : Option Nat :=
  if c.isDigit then some (c.toNat - '0'.toNat)
  else if 'a' ≤ c ∧ c ≤ 'f' then some (c.toNat - 'a'.toNat + 10)
  else if 'A' ≤ c ∧ c ≤ 'F' then some (c.toNat - 'A'.toNat + 10)
  else none

/-- The character with a code point given by hexadecimal digits, if there is one. -/
def codePoint? (digits : List Char) : Option Char := do
  let n ← digits.foldlM (fun n c => (hexValue? c).map (n * 16 + ·)) 0
  if n.isValidChar then some (Char.ofNat n) else none

/-- The character that a letter after a backslash stands for. -/
def escaped? : Char → Option Char
  | 'b' => some '\x08'
  | 't' => some '\t'
  | 'n' => some '\n'
  | 'f' => some '\x0c'
  | 'r' => some '\r'
  | '"' => some '"'
  | '\\' => some '\\'
  | _ => none

/-- Takes what follows a backslash. -/
def escape : Scan Char
  | 'u' :: a :: b :: c :: d :: r => (codePoint? [a, b, c, d]).map (·, r)
  | 'U' :: a :: b :: c :: d :: e :: f :: g :: h :: r => (codePoint? [a, b, c, d, e, f, g, h]).map (·, r)
  | c :: r => (escaped? c).map (·, r)
  | [] => none

/-- Puts a character before the text that a reader takes. -/
def andThen (c : Char) (rest : Option (List Char × List Char)) : Option (List Char × List Char) :=
  rest.map fun (s, r) => (c :: s, r)

/-- Takes a text up to the double quote that closes it, in so many steps at most. -/
def basicBody : Nat → Scan (List Char)
  | 0, _ => none
  | _ + 1, [] => none
  | _ + 1, '"' :: r => some ([], r)
  | fuel + 1, '\\' :: r => do
    let (c, r) ← escape r
    andThen c (basicBody fuel r)
  | fuel + 1, c :: r => if isPrintable c then andThen c (basicBody fuel r) else none

/-- Takes a text up to the single quote that closes it. -/
def literalBody : Scan (List Char)
  | [] => none
  | '\'' :: r => some ([], r)
  | c :: r => if isPrintable c then andThen c (literalBody r) else none

def quoted : Scan String
  | '"' :: r => (basicBody (r.length + 1) r).map fun (s, r) => (String.ofList s, r)
  | '\'' :: r => (literalBody r).map fun (s, r) => (String.ofList s, r)
  | _ => none

/-- Drops blanks and line breaks. -/
def skipLines : List Char → List Char
  | [] => []
  | '\n' :: r => skipLines r
  | '\r' :: '\n' :: r => skipLines r
  | c :: r => if isBlank c then skipLines r else c :: r

/-- Takes a line break after a backslash, with the blanks and line breaks around it. -/
def continuation? (cs : List Char) : Option (List Char) := (newline? (skipBlank cs)).map skipLines

/-- Takes the quotes that close a text of several lines: three, with up to two before them that belong to it. -/
def closing? (quote : Char) (cs : List Char) : Option (List Char × List Char) :=
  let run := (cs.takeWhile (· = quote)).length
  if run < 3 then none
  else
    let taken := min run 5
    some (List.replicate (taken - 3) quote, cs.drop taken)

/-- Takes a text of several lines up to the quotes that close it, in so many steps at most. -/
def linesBody (quote : Char) : Nat → Scan (List Char)
  | 0, _ => none
  | fuel + 1, cs =>
    match closing? quote cs with
    | some closed => some closed
    | none =>
      match newline? cs with
      | some r => andThen '\n' (linesBody quote fuel r)
      | none =>
        match cs with
        | [] => none
        | c :: r =>
          if c = '\\' ∧ quote = '"' then
            match continuation? r with
            | some r => linesBody quote fuel r
            | none => (escape r).bind fun (c, r) => andThen c (linesBody quote fuel r)
          else if isPrintable c then andThen c (linesBody quote fuel r)
          else none

/-- Takes a text of several lines; a line break right after the opening quotes does not count. -/
def quotedLines : Scan String
  | '"' :: '"' :: '"' :: r => body '"' r
  | '\'' :: '\'' :: '\'' :: r => body '\'' r
  | _ => none
where
  body (quote : Char) (r : List Char) : Option (String × List Char) :=
    (linesBody quote (r.length + 1) ((newline? r).getD r)).map fun (s, r) => (String.ofList s, r)

end Tremor.Toml
