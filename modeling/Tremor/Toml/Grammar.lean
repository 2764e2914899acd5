import Tremor.Toml.Library
import Tremor.Toml.Number
import Tremor.Toml.Table
import Tremor.Toml.Text

/-!
# The grammar of TOML

- `keyPath` : a dotted key
- `value` : a value; arrays and inline tables may be nested up to a limit
- `statements` : the lines of a document
- `parse` : the tree of a document
-/

namespace Tremor.Toml

/-! ## Keys -/

def keyPart (cs : List Char) : Option (String × List Char) :=
  let bare := cs.takeWhile isBare
  if bare.isEmpty then quoted cs else some (String.ofList bare, cs.dropWhile isBare)

/-- A dotted key has fewer parts than this, and arrays and inline tables are nested less deeply. -/
def nestingLimit : Nat := 80

/-- Takes a dotted key of at most `n` parts; blanks may stand around each. -/
def keyPathWithin : (n : Nat) → Scan (List String)
  | 0, _ => none
  | n + 1, cs => do
    let (part, r) ← keyPart (skipBlank cs)
    match skipBlank r with
    | '.' :: r => (keyPathWithin n r).map fun (path, r) => (part :: path, r)
    | r => return ([part], r)

/-- Takes a dotted key: the path to its table and its last part. -/
def keyPath (cs : List Char) : Option ((List String × String) × List Char) := do
  let (parts, r) ← keyPathWithin (nestingLimit - 1) cs
  let key ← parts.getLast?
  return ((parts.dropLast, key), r)

/-! ## Values -/

mutual

/-- Takes a value, in so many steps at most; `depth` more arrays or inline tables may be nested in it. -/
def value : (fuel depth : Nat) → Scan Node
  | 0, _, _ => none
  | fuel + 1, depth, cs =>
    match cs with
    | '[' :: r => if depth = 0 then none else (items fuel (depth - 1) [] r).map fun (ns, r) => (.array ns, r)
    | '{' :: r =>
      if depth = 0 then none
      else match skipBlank r with
        | '}' :: r => some (.table .inline [], r)
        | r => (pairs fuel (depth - 1) [] r).map fun (es, r) => (.table .inline es, r)
    | 't' :: 'r' :: 'u' :: 'e' :: r => some (.boolean true, r)
    | 'f' :: 'a' :: 'l' :: 's' :: 'e' :: r => some (.boolean false, r)
    | cs =>
      match cs.head? with
      | some '"' => textValue cs
      | some '\'' => textValue cs
      | _ =>
        match moment cs with
        | some r => some (.moment, r)
        | none => number cs

/-- Takes the items of an array and the bracket that closes it. -/
def items : (fuel depth : Nat) → (done : List Node) → Scan (List Node)
  | 0, _, _, _ => none
  | fuel + 1, depth, done, cs =>
    match skipSpace cs with
    | ']' :: r => some (done.reverse, r)
    | cs => do
      let (n, r) ← value fuel depth cs
      match skipSpace r with
      | ',' :: r => items fuel depth (n :: done) r
      | ']' :: r => some ((n :: done).reverse, r)
      | _ => none

/-- Takes the entries of an inline table and the brace that closes it. -/
def pairs : (fuel depth : Nat) → (done : Entries) → Scan Entries
  | 0, _, _, _ => none
  | fuel + 1, depth, done, cs => do
    let ((path, key), r) ← keyPath cs
    let (n, r) ← value fuel depth (skipBlank (← expect '=' r))
    let done ← assign path key n done
    match skipBlank r with
    | ',' :: r => pairs fuel depth done r
    | '}' :: r => some (done, r)
    | _ => none

def textValue (cs : List Char) : Option (Node × List Char) :=
  ((quotedLines cs).or (quoted cs)).map fun (s, r) => (.text s, r)

end

/-! ## Lines -/

/-- Takes a header with the bracket that closes it. -/
def header (closing : List Char → Option (List Char)) (make : List String → String → Statement) (cs : List Char) :
    Option (Statement × List Char) := do
  let ((path, key), r) ← keyPath cs
  let r ← lineEnd (← closing r)
  return (make path key, r)

def assignment (cs : List Char) : Option (Statement × List Char) := do
  let ((path, key), r) ← keyPath cs
  let r := skipBlank (← expect '=' r)
  let (n, r) ← value (r.length + 1) (nestingLimit - 1) r
  return (.assignment path key n, ← lineEnd r)

/-- Takes a line that is not empty. -/
def statement : Scan Statement
  | '[' :: '[' :: r => header (fun r => (expect ']' r).bind (expect ']')) .element r
  | '[' :: r => header (expect ']') .table r
  | cs => assignment cs

/-- Takes all lines, in so many steps at most. -/
def statementsWithin : Nat → List Char → Option (List Statement)
  | 0, _ => none
  | fuel + 1, cs =>
    match skipBlank cs with
    | [] => some []
    | cs =>
      match lineEnd cs with
      | some r => statementsWithin fuel r
      | none =>
        match statement cs with
        | none => none
        | some (s, r) => (statementsWithin fuel r).map (s :: ·)

/-- The lines of a text; a mark of the byte order at its start does not count. -/
def statements (cs : List Char) : Option (List Statement) :=
  let cs := match cs with
    | '\ufeff' :: r => r
    | cs => cs
  statementsWithin (cs.length + 1) cs

/-- The tree of a document. -/
def parse (text : String) : Option Entries := (statements text.toList).bind build

end Tremor.Toml
