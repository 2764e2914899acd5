import Tremor.Proofs.Numerals
import Tremor.Toml.Grammar

/-!
# Documents are read line by line

A document that is written in sections has a line for each header and each setting, and empty lines between. Each of
these lines is taken as one statement, and the statements build one table for each section, with its settings in order.

- `Legible` : a text that is read as a node wherever a line ends after it
- `Parses` : all lines of a text are taken as statements
- `parses_header`, `parses_assignment`, `parses_empty` : one line each
- `buildFrom_sections` : the tables of a document in sections
-/

namespace Tremor.Toml

open Number

/-! ## Values -/

/-- A text is read as a node wherever a line ends after it. -/
structure Legible (text : List Char) (node : Node) : Prop where
  head : ∀ rest, skipBlank (text ++ '\n' :: rest) = text ++ '\n' :: rest
  read : ∀ (fuel depth : ℕ) (rest : List Char),
    value (fuel + 1) depth (text ++ '\n' :: rest) = some (node, '\n' :: rest)

theorem legible_boolean (b : Bool) : Legible (if b then "true" else "false").toList (.boolean b) := by
  cases b with
  | false => exact ⟨fun _ => rfl, fun _ _ _ => rfl⟩
  | true => exact ⟨fun _ => rfl, fun _ _ _ => rfl⟩

theorem ne_of_isDigit {c d : Char} (hc : c.isDigit = true) (hd : d.isDigit = false) : c ≠ d := by
  rintro rfl
  rw [hc] at hd
  cases hd

/-- What starts with a digit, a sign or the word for infinity, and is no date or time, is read as a number. -/
theorem value_number {fuel depth : ℕ} {c : Char} {cs : List Char} (hc : c.isDigit = true ∨ c = '-' ∨ c = 'i')
    (hm : moment (c :: cs) = none) : value (fuel + 1) depth (c :: cs) = number (c :: cs) := by
  have hother : ∀ d : Char, d.isDigit = false → d ≠ '-' → d ≠ 'i' → c ≠ d := by
    rintro d hd hminus hi rfl
    rcases hc with h | h | h
    · exact ne_of_isDigit h hd rfl
    · exact hminus h
    · exact hi h
  rw [value]
  · split
    · rename_i heq
      exact absurd (Option.some.inj heq) (hother '"' rfl (by decide) (by decide))
    · rename_i heq
      exact absurd (Option.some.inj heq) (hother '\'' rfl (by decide) (by decide))
    · rw [hm]
  · intro r heq
    exact hother '[' rfl (by decide) (by decide) (List.cons.inj heq).1
  · intro r heq
    exact hother '{' rfl (by decide) (by decide) (List.cons.inj heq).1
  · intro r heq
    exact hother 't' rfl (by decide) (by decide) (List.cons.inj heq).1
  · intro r heq
    exact hother 'f' rfl (by decide) (by decide) (List.cons.inj heq).1

/-- After its sign, a number that starts with a digit is a decimal. -/
theorem unsigned_digit (negative : Bool) {d : Char} {cs : List Char} (hd : d.isDigit = true) :
    unsigned negative (d :: cs) = decimal negative (d :: cs) := by
  rw [unsigned]
  · intro r heq
    exact ne_of_isDigit hd (show 'i'.isDigit = false by decide) (List.cons.inj heq).1
  · intro r heq
    exact ne_of_isDigit hd (show 'n'.isDigit = false by decide) (List.cons.inj heq).1

/-- The digits of a number have no mark of another base, and no sign. -/
theorem number_decimalDigits (n : ℕ) {c : Char} {r : List Char} (hc : c = '.' ∨ c = '\n') :
    number (decimalDigits n ++ c :: r) = decimal false (decimalDigits n ++ c :: r) := by
  rcases Nat.eq_zero_or_pos n with rfl | hn
  · rcases hc with rfl | rfl <;> rfl
  · obtain ⟨d, ds, hds, hd⟩ := decimalDigits_eq_cons n
    have hzero : d ≠ '0' := by
      have hhead := head?_decimalDigits_ne hn
      rw [hds, List.head?_cons, ne_eq, Option.some.injEq] at hhead
      exact hhead
    rw [hds, List.cons_append, number]
    · have hsign : sign (d :: (ds ++ c :: r)) = (false, d :: (ds ++ c :: r)) := by
        rw [sign]
        · intro r heq
          exact ne_of_isDigit hd (show '-'.isDigit = false by decide) (List.cons.inj heq).1
        · intro r heq
          exact ne_of_isDigit hd (show '+'.isDigit = false by decide) (List.cons.inj heq).1
      simp only [hsign]
      exact unsigned_digit false hd
    all_goals
      intro r heq
      exact hzero (List.cons.inj heq).1

/-- Nothing is skipped before a character that is not blank. -/
theorem skipBlank_cons {c : Char} {cs : List Char} (hc : isBlank c = false) : skipBlank (c :: cs) = c :: cs := by
  rw [skipBlank, List.dropWhile_cons, hc]
  rfl

theorem isBlank_of_isDigit {c : Char} (hc : c.isDigit = true) : isBlank c = false := by
  have hspace := ne_of_isDigit hc (show ' '.isDigit = false by decide)
  have htab := ne_of_isDigit hc (show '\t'.isDigit = false by decide)
  simp [isBlank, hspace, htab]

/-- A text that starts with the digits of a number is read as this number is. -/
theorem legible_digits {n : ℕ} {c : Char} {r : List Char} (hc : c = '.' ∨ c = '\n') :
    skipBlank (decimalDigits n ++ c :: r) = decimalDigits n ++ c :: r ∧
      ∀ fuel depth : ℕ, value (fuel + 1) depth (decimalDigits n ++ c :: r) =
        decimal false (decimalDigits n ++ c :: r) := by
  have hdigit : c.isDigit = false := by rcases hc with rfl | rfl <;> rfl
  have hmarks : c ≠ '-' ∧ c ≠ ':' := by rcases hc with rfl | rfl <;> decide
  have hm := moment_eq_none (r := r) (fun _ => @isDigit_of_mem_decimalDigits n _) hdigit (Or.inr hmarks)
  have hnumber := number_decimalDigits n (r := r) hc
  obtain ⟨d, ds, hds, hd⟩ := decimalDigits_eq_cons n
  rw [hds, List.cons_append] at hm hnumber ⊢
  exact ⟨skipBlank_cons (isBlank_of_isDigit hd), fun _ _ => (value_number (Or.inl hd) hm).trans hnumber⟩

/-- A count is read back. -/
theorem legible_count {n : ℕ} (hn : n < 0x8000000000000000) : Legible (toString n).toList (.integer n) := by
  have htext : (toString n).toList = decimalDigits n := Nat.toList_repr
  rw [htext]
  refine ⟨fun rest => (legible_digits (Or.inr rfl)).1, fun fuel depth rest => ?_⟩
  rw [(legible_digits (Or.inr rfl)).2]
  exact decimal_whole hn

/-- Digits before and after a mark are read back, with or without a minus sign. -/
theorem value_point (negative : Bool) {n : ℕ} {after : List Char} (hne : after ≠ [])
    (hafter : ∀ c ∈ after, c.isDigit = true) (fuel depth : ℕ) (rest : List Char) :
    value (fuel + 1) depth ((if negative then ['-'] else []) ++ decimalDigits n ++ '.' :: after ++ '\n' :: rest) =
      (float? negative (decimalDigits n) after 0).map (·, '\n' :: rest) := by
  rw [List.append_assoc, List.append_assoc, List.cons_append, ← decimal_point negative n hne hafter]
  cases negative with
  | false => exact (legible_digits (Or.inl rfl)).2 fuel depth
  | true =>
    obtain ⟨d, ds, hds, hd⟩ := decimalDigits_eq_cons n
    have hm := moment_no_digit (c := '-') (r := decimalDigits n ++ '.' :: (after ++ '\n' :: rest)) rfl
    rw [if_pos rfl, List.singleton_append, value_number (Or.inr (Or.inl rfl)) hm, hds]
    exact unsigned_digit true hd

/-- The words for the infinities are read back. -/
theorem legible_infinity (negative : Bool) :
    Legible (if negative then '-' :: "inf".toList else "inf".toList)
      (.float (if negative then -1.0 / 0.0 else 1.0 / 0.0)) := by
  cases negative with
  | false => exact ⟨fun _ => rfl, fun _ _ _ => value_number (Or.inr (Or.inr rfl)) (moment_no_digit rfl)⟩
  | true => exact ⟨fun _ => rfl, fun _ _ _ => value_number (Or.inr (Or.inl rfl)) (moment_no_digit rfl)⟩

/-- A double is read back. -/
theorem legible_double {style : DoubleStyle} (hmark : style.wholeMark = ".0") (hword : style.infinity = "inf")
    {x : Float} (hx : Binary64.ofFloat x ≠ .nan) : Legible (shortestText style x).toList (.float x) := by
  cases hparts : Binary64.ofFloat x with
  | nan => exact absurd hparts hx
  | infinite negative =>
    have hinf : (if negative then -1.0 / 0.0 else 1.0 / 0.0) = x := by
      have hplus : Binary64.ofFloat (1.0 / 0.0) = .infinite false := by decide +kernel
      have hminus : Binary64.ofFloat (-1.0 / 0.0) = .infinite true := by decide +kernel
      refine (ofFloat_inj ?_).symm
      cases negative with
      | false => exact hparts.trans hplus.symm
      | true => exact hparts.trans hminus.symm
    have htext : (shortestText style x).toList = if negative then '-' :: "inf".toList else "inf".toList := by
      simp only [shortestText, hparts, hword]
      cases negative <;> rfl
    rw [htext, ← hinf]
    exact legible_infinity negative
  | finite negative significand exponent =>
    obtain ⟨n, after, hne, hafter, htext, hnearest⟩ := exists_digits hmark hparts
    rw [htext]
    refine ⟨fun rest => ?_, fun fuel depth rest => ?_⟩
    · cases negative with
      | false =>
        rw [if_neg Bool.false_ne_true, List.nil_append, List.append_assoc]
        exact (legible_digits (Or.inl rfl)).1
      | true => exact skipBlank_cons rfl
    · have hfloat : float? negative (decimalDigits n) after 0 = some (.float x) := by
        simp only [float?, hnearest, beq_infinity_eq_false hparts]
        rfl
      rw [value_point negative hne hafter, hfloat]
      rfl

/-! ## Lines -/

/-- All lines of a text are taken as statements. -/
def Parses (cs : List Char) (ss : List Statement) : Prop :=
  ∀ fuel, cs.length < fuel → statementsWithin fuel cs = some ss

theorem parses_of_succ {cs : List Char} {ss : List Statement}
    (h : ∀ fuel, cs.length ≤ fuel → statementsWithin (fuel + 1) cs = some ss) : Parses cs ss := by
  intro fuel hf
  obtain ⟨k, rfl⟩ : ∃ k, fuel = k + 1 := ⟨fuel - 1, by omega⟩
  exact h k (by omega)

theorem parses_nil : Parses [] [] := parses_of_succ fun _ _ => rfl

theorem parses_empty {r : List Char} {ss : List Statement} (h : Parses r ss) : Parses ('\n' :: r) ss :=
  parses_of_succ fun fuel hf => h fuel (Nat.lt_of_succ_le hf)

theorem lineEnd_newline (r : List Char) : lineEnd ('\n' :: r) = some r := rfl

/-- A line that does not end at its first character is taken as a statement. -/
theorem parses_statement {c : Char} {cs r : List Char} {s : Statement} {ss : List Statement}
    (hblank : isBlank c = false) (hcomment : c ≠ '#') (hend : c ≠ '\n' ∧ c ≠ '\r')
    (hs : statement (c :: cs) = some (s, r)) (hlen : r.length ≤ cs.length) (h : Parses r ss) :
    Parses (c :: cs) (s :: ss) := by
  refine parses_of_succ fun fuel hf => ?_
  rw [List.length_cons] at hf
  have hskip : skipComment (c :: cs) = c :: cs := by
    rw [skipComment]
    intro r heq
    exact hcomment (List.cons.inj heq).1
  have hline : lineEnd (c :: cs) = none := by
    simp only [lineEnd, skipBlank_cons hblank, hskip]
    rw [newline?]
    · intro r heq
      exact hend.1 (List.cons.inj heq).1
    · intro r heq
      exact hend.2 (List.cons.inj heq).1
  simp only [statementsWithin, skipBlank_cons hblank, hline, hs, h fuel (by omega), Option.map_some]

theorem Bare.eq_cons {name : String} (h : Bare name) : ∃ d ds, name.toList = d :: ds ∧ isBare d = true := by
  obtain ⟨d, ds, hds⟩ := List.exists_cons_of_ne_nil h.ne_nil
  exact ⟨d, ds, hds, h.all d (hds ▸ List.mem_cons_self)⟩

theorem ne_of_isBare {c d : Char} (hc : isBare c = true) (hd : isBare d = false) : c ≠ d := by
  rintro rfl
  rw [hc] at hd
  cases hd

theorem isBlank_of_isBare {c : Char} (hc : isBare c = true) : isBlank c = false := by
  have hspace := ne_of_isBare hc (show isBare ' ' = false by decide)
  have htab := ne_of_isBare hc (show isBare '\t' = false by decide)
  simp [isBlank, hspace, htab]

/-- A name is taken as a key up to what cannot stand in it. -/
theorem keyPath_bare {name : String} (hname : Bare name) {b c : Char} {rest r : List Char} (hb : isBare b = false)
    (hskip : skipBlank (b :: rest) = c :: r) (hc : c ≠ '.') :
    keyPath (name.toList ++ b :: rest) = some (([], name), c :: r) := by
  have htake : (name.toList ++ b :: rest).takeWhile isBare = name.toList := by
    rw [List.takeWhile_append_of_pos hname.all, List.takeWhile_cons_of_neg (by simp [hb]), List.append_nil]
  have hdrop : (name.toList ++ b :: rest).dropWhile isBare = b :: rest := by
    rw [List.dropWhile_append_of_pos hname.all, List.dropWhile_cons_of_neg (by simp [hb])]
  have hfront : skipBlank (name.toList ++ b :: rest) = name.toList ++ b :: rest := by
    obtain ⟨d, ds, hds, hd⟩ := hname.eq_cons
    rw [hds, List.cons_append]
    exact skipBlank_cons (isBlank_of_isBare hd)
  have hpart : keyPart (name.toList ++ b :: rest) = some (name, b :: rest) := by
    simp only [keyPart, htake, hdrop, String.ofList_toList]
    rw [if_neg (by simpa using hname.ne_nil)]
  have hpath : ∀ n, keyPathWithin (n + 1) (name.toList ++ b :: rest) = some ([name], c :: r) := by
    intro n
    simp [keyPathWithin, hfront, hpart, hskip, hc]
  have hlimit : keyPathWithin (nestingLimit - 1) (name.toList ++ b :: rest) = some ([name], c :: r) := hpath 78
  simp [keyPath, hlimit]

/-- A line with a header is taken as the statement that opens its table. -/
theorem parses_header {name : String} (hname : Bare name) {r : List Char} {ss : List Statement} (h : Parses r ss) :
    Parses ('[' :: (name.toList ++ ']' :: '\n' :: r)) (.table [] name :: ss) := by
  have hkey := keyPath_bare hname (by decide) (show skipBlank (']' :: '\n' :: r) = ']' :: '\n' :: r from rfl)
    (by decide)
  refine parses_statement rfl (by decide) (by decide) (r := r) ?_ ?_ h
  · rw [statement]
    · simp [header, hkey, expect, lineEnd_newline]
    · intro r' heq
      obtain ⟨d, ds, hds, hd⟩ := hname.eq_cons
      rw [hds, List.cons_append] at heq
      exact ne_of_isBare hd (show isBare '[' = false by decide) (List.cons.inj heq).1
  · simp only [List.length_append, List.length_cons]
    omega

/-- A line with a setting is taken as the statement that assigns its value. -/
theorem parses_assignment {key : String} (hkey : Bare key) {text r : List Char} {node : Node}
    (htext : Legible text node) {ss : List Statement} (h : Parses r ss) :
    Parses (key.toList ++ ' ' :: '=' :: ' ' :: (text ++ '\n' :: r)) (.assignment [] key node :: ss) := by
  have hskip : skipBlank (' ' :: '=' :: ' ' :: (text ++ '\n' :: r)) = '=' :: ' ' :: (text ++ '\n' :: r) := rfl
  have hpath := keyPath_bare hkey (by decide) hskip (by decide)
  have hvalue : skipBlank (' ' :: (text ++ '\n' :: r)) = text ++ '\n' :: r := htext.head r
  have hassign : assignment (key.toList ++ ' ' :: '=' :: ' ' :: (text ++ '\n' :: r)) =
      some (.assignment [] key node, r) := by
    simp [assignment, hpath, expect, hvalue, htext.read, lineEnd_newline]
  obtain ⟨d, ds, hds, hd⟩ := hkey.eq_cons
  rw [hds, List.cons_append] at hassign ⊢
  refine parses_statement (isBlank_of_isBare hd) (ne_of_isBare hd (by decide))
    ⟨ne_of_isBare hd (by decide), ne_of_isBare hd (by decide)⟩ (r := r) ?_ ?_ h
  · rw [statement]
    · exact hassign
    · intro r' heq
      exact ne_of_isBare hd (show isBare '[' = false by decide) (List.cons.inj heq).1
    · intro r' heq
      exact ne_of_isBare hd (show isBare '[' = false by decide) (List.cons.inj heq).1
  · simp only [List.length_append, List.length_cons]
    omega

/-- The lines of a text that does not start with the mark of the byte order. -/
theorem statements_eq {c : Char} {cs : List Char} {ss : List Statement} (hc : c ≠ '\ufeff') (h : Parses (c :: cs) ss) :
    statements (c :: cs) = some ss := by
  unfold statements
  split
  · rename_i heq
    exact absurd (List.cons.inj heq).1 hc
  · exact h _ (Nat.lt_succ_self _)

/-! ## Tables -/

/-- The statements of a section: its header and its settings. -/
def sectionStatements (s : String × Entries) : List Statement :=
  .table [] s.1 :: s.2.map fun e => .assignment [] e.1 e.2

/-- The entry that a section makes in its document. -/
def sectionEntry (s : String × Entries) : String × Node := (s.1, .table .header s.2)

theorem get?_eq_none {es : Entries} {key : String} (h : key ∉ es.map Prod.fst) : es.get? key = none := by
  rw [Entries.get?, List.lookup_eq_none_iff]
  intro e he
  rw [bne_iff_ne]
  rintro rfl
  exact h (List.mem_map_of_mem he)

theorem get?_last {es : Entries} {key : String} (h : key ∉ es.map Prod.fst) (node : Node) :
    Entries.get? (es ++ [(key, node)]) key = some node := by
  have hnone : List.lookup key es = none := get?_eq_none h
  rw [Entries.get?, List.lookup_append, hnone, Option.none_or, List.lookup_cons, beq_self_eq_true]

theorem replace_eq_self {es : Entries} {key : String} (h : key ∉ es.map Prod.fst) (node : Node) :
    es.replace key node = es := by
  induction es with
  | nil => rfl
  | cons e es ih =>
    rw [List.map_cons, List.mem_cons, not_or] at h
    exact congrArg₂ List.cons (if_neg (Ne.symm h.1)) (ih h.2)

theorem replace_last {es : Entries} {key : String} (h : key ∉ es.map Prod.fst) (node node' : Node) :
    Entries.replace (es ++ [(key, node)]) key node' = es ++ [(key, node')] := by
  have happend : Entries.replace (es ++ [(key, node)]) key node' =
      es.replace key node' ++ Entries.replace [(key, node)] key node' := List.map_append
  rw [happend, replace_eq_self h]
  simp [Entries.replace]

/-- Settings are added to the table of the last header. -/
theorem buildFrom_assignments {done : Entries} {name : String} (hname : name ∉ done.map Prod.fst)
    {entries inner : Entries} (hkeys : ((inner ++ entries).map Prod.fst).Nodup) (rest : List Statement) :
    buildFrom (done ++ [(name, .table .header inner)]) [name]
        ((entries.map fun e => .assignment [] e.1 e.2) ++ rest) =
      buildFrom (done ++ [(name, .table .header (inner ++ entries))]) [name] rest := by
  induction entries generalizing inner with
  | nil => rw [List.append_nil]; rfl
  | cons e entries ih =>
    obtain ⟨key, node⟩ := e
    have hkey : key ∉ inner.map Prod.fst := by
      intro hmem
      rw [List.map_append, List.map_cons] at hkeys
      exact (List.nodup_append.mp hkeys).2.2 key hmem key List.mem_cons_self rfl
    have hstep : apply (done ++ [(name, .table .header inner)]) [name] (.assignment [] key node) =
        some (done ++ [(name, .table .header (inner ++ [(key, node)]))], [name]) := by
      simp [apply, within, get?_last hname, replace_last hname, assign, addEntry, get?_eq_none hkey]
    rw [List.append_cons inner (key, node)] at hkeys ⊢
    rw [List.map_cons, List.cons_append, buildFrom, hstep]
    exact ih hkeys

/-- Each section makes a table. -/
theorem buildFrom_sections {done : Entries} {sections : List (String × Entries)}
    (hnames : ((done.map Prod.fst) ++ sections.map Prod.fst).Nodup)
    (hkeys : ∀ s ∈ sections, (s.2.map Prod.fst).Nodup) (current : List String) :
    buildFrom done current (sections.flatMap sectionStatements) = some (done ++ sections.map sectionEntry) := by
  induction sections generalizing done current with
  | nil => rw [List.map_nil, List.append_nil]; rfl
  | cons s sections ih =>
    obtain ⟨name, entries⟩ := s
    have hname : name ∉ done.map Prod.fst := by
      intro hmem
      rw [List.map_cons] at hnames
      exact (List.nodup_append.mp hnames).2.2 name hmem name List.mem_cons_self rfl
    have hstep : apply done current (.table [] name) =
        some (done ++ [(name, .table .header [])], [name]) := by
      simp [apply, within, openTable, get?_eq_none hname]
    rw [List.flatMap_cons, sectionStatements, List.cons_append, buildFrom, hstep]
    simp only
    have hentries : (([] ++ entries).map Prod.fst).Nodup := hkeys _ List.mem_cons_self
    rw [buildFrom_assignments hname hentries, ih]
    · rw [List.nil_append, List.map_cons, List.append_assoc, List.singleton_append]
      rfl
    · rw [List.map_append, List.append_assoc]
      exact hnames
    · exact fun s hs => hkeys s (List.mem_cons_of_mem _ hs)

end Tremor.Toml
