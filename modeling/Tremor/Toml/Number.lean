import Tremor.Number.Reading
import Tremor.Toml.Lexical
import Tremor.Toml.Node

/-!
# Numbers, dates and times

- `number` : an integer or a float
- `moment` : a date, a time, or both
-/

namespace Tremor.Toml

/-! ## Digits -/

/-- Takes further digits; an underscore may stand before a digit. -/
def moreDigits (isDigit : Char → Bool) : List Char → List Char × List Char
  | [] => ([], [])
  | '_' :: c :: r =>
    if isDigit c then
      let (ds, r) := moreDigits isDigit r
      (c :: ds, r)
    else ([], '_' :: c :: r)
  | c :: r =>
    if isDigit c then
      let (ds, r) := moreDigits isDigit r
      (c :: ds, r)
    else ([], c :: r)

/-- Takes one digit or more. -/
def digits (isDigit : Char → Bool) : Scan (List Char)
  | c :: r =>
    if isDigit c then
      let (ds, r) := moreDigits isDigit r
      some (c :: ds, r)
    else none
  | [] => none

def whole : Scan (List Char)
  | '0' :: r => some (['0'], r)
  | cs => digits Char.isDigit cs

/-- The value of digits in a base up to sixteen. -/
def valueOf (base : Nat) (ds : List Char) : Nat :=
  ds.foldl (fun n c =>
    let d := if c.isDigit then c.toNat - '0'.toNat
      else if 'a' ≤ c then c.toNat - 'a'.toNat + 10 else c.toNat - 'A'.toNat + 10
    n * base + d) 0

def sign : List Char → Bool × List Char
  | '-' :: r => (true, r)
  | '+' :: r => (false, r)
  | r => (false, r)

/-! ## Integers and floats -/

/-- An integer, unless it is out of the range of 64 bits. -/
def integer? (i : Int) : Option Node :=
  if Int64.minValue.toInt ≤ i ∧ i ≤ Int64.maxValue.toInt then some (.integer i) else none

def fraction : Scan (List Char)
  | '.' :: r => digits Char.isDigit r
  | _ => none

def exponent : Scan Int
  | c :: r =>
    if c = 'e' ∨ c = 'E' then
      let (negative, r) := sign r
      (digits Char.isDigit r).map fun (ds, r) =>
        let n : Int := valueOf 10 ds
        (if negative then -n else n, r)
    else none
  | [] => none

/-- The float with the given digits before and after the mark, unless it is greater than all of them. -/
def float? (negative : Bool) (before after : List Char) (exp : Int) : Option Node :=
  let x := Number.nearest negative ⟨valueOf 10 (before ++ after), exp - after.length⟩
  if x == 1.0 / 0.0 then none else some (.float x)

/-- Takes a decimal number after its sign: a float when it has a fraction or an exponent. -/
def decimal (negative : Bool) (cs : List Char) : Option (Node × List Char) := do
  let (before, r) ← whole cs
  match fraction r, exponent r with
  | some (after, r), _ =>
    let (exp, r) := (exponent r).getD (0, r)
    (float? negative before after exp).map (·, r)
  | none, some (exp, r) => (float? negative before [] exp).map (·, r)
  | none, none =>
    let n : Int := valueOf 10 before
    (integer? (if negative then -n else n)).map (·, r)

/-- Takes an integer in another base, after its mark. -/
def based (base : Nat) (isDigit : Char → Bool) (cs : List Char) : Option (Node × List Char) := do
  let (ds, r) ← digits isDigit cs
  (integer? (valueOf base ds)).map (·, r)

def isHexDigit (c : Char) : Bool :=
  c.isDigit || (decide ('a' ≤ c) && decide (c ≤ 'f')) || (decide ('A' ≤ c) && decide (c ≤ 'F'))

/-- Takes a number after its sign. -/
def unsigned (negative : Bool) : Scan Node
  | 'i' :: 'n' :: 'f' :: r => some (.float (if negative then -1.0 / 0.0 else 1.0 / 0.0), r)
  | 'n' :: 'a' :: 'n' :: r => some (.float (0.0 / 0.0), r)
  | cs => decimal negative cs

/-- Takes a number. A mark for another base stands only where there is no sign. -/
def number : Scan Node
  | '0' :: 'x' :: r => based 16 isHexDigit r
  | '0' :: 'o' :: r => based 8 (fun c => decide ('0' ≤ c) && decide (c ≤ '7')) r
  | '0' :: 'b' :: r => based 2 (fun c => c = '0' || c = '1') r
  | cs => let (negative, r) := sign cs; unsigned negative r

/-! ## Dates and times -/

/-- Takes exactly `n` digits with a value within bounds. -/
def field (n low high : Nat) (cs : List Char) : Option (Nat × List Char) :=
  let ds := cs.take n
  let value := valueOf 10 ds
  if ds.length = n ∧ ds.all Char.isDigit ∧ low ≤ value ∧ value ≤ high then some (value, cs.drop n) else none

def expect (c : Char) : List Char → Option (List Char)
  | d :: r => if c = d then some r else none
  | [] => none

def daysIn (year month : Nat) : Nat :=
  if month = 2 then
    if year % 4 = 0 ∧ (year % 100 ≠ 0 ∨ year % 400 = 0) then 29 else 28
  else if month = 4 ∨ month = 6 ∨ month = 9 ∨ month = 11 then 30
  else 31

def date (cs : List Char) : Option (List Char) := do
  let (year, r) ← field 4 0 9999 cs
  let (month, r) ← field 2 1 12 (← expect '-' r)
  let (_, r) ← field 2 1 (daysIn year month) (← expect '-' r)
  return r

/-- Takes the fraction of a second, if there is one. -/
def secondFraction : List Char → List Char
  | '.' :: c :: r => if c.isDigit then r.dropWhile Char.isDigit else '.' :: c :: r
  | r => r

/-- Takes a time of day; a leap second counts. -/
def time (cs : List Char) : Option (List Char) := do
  let (_, r) ← field 2 0 23 cs
  let (_, r) ← field 2 0 59 (← expect ':' r)
  let (_, r) ← field 2 0 60 (← expect ':' r)
  return secondFraction r

/-- Takes the offset from universal time. -/
def offset : List Char → Option (List Char)
  | c :: r =>
    if c = 'Z' ∨ c = 'z' then some r
    else if c = '+' ∨ c = '-' then do
      let (_, r) ← field 2 0 23 r
      let (_, r) ← field 2 0 59 (← expect ':' r)
      return r
    else none
  | [] => none

/-- Takes a time of day with an optional offset, after the mark that separates it from a date. -/
def timeAfterDate : List Char → Option (List Char)
  | c :: r =>
    if c = 'T' ∨ c = 't' ∨ c = ' ' then (time r).map fun r => (offset r).getD r else none
  | [] => none

/-- Takes a date, a time, or both. -/
def moment (cs : List Char) : Option (List Char) :=
  match date cs with
  | some r => some ((timeAfterDate r).getD r)
  | none => time cs

end Tremor.Toml
