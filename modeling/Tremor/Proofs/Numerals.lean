import Tremor.Proofs.ShortestDigits
import Tremor.Toml.Number

/-!
# Numerals are read back

A count is written with its decimal digits, and a double with digits before and after a mark. Both end where a line
ends, so neither is taken for a date or a time, and what is read has the value that was written.

- `moment_eq_none` : digits are no date and no time
- `decimal_whole` : a count is read back
- `decimal_point` : so are digits before and after a mark
- `exists_numeral` : the text of a decimal has such digits, with the same value
-/

namespace Tremor.Toml

open Number

variable {ds after r : List Char} {c : Char}

/-! ## Digits -/

theorem isDigit_of_mem_decimalDigits {n : ℕ} {d : Char} (h : d ∈ decimalDigits n) : d.isDigit = true :=
  Nat.isDigit_of_mem_toDigits (by decide) (by decide) h

theorem decimalDigits_eq_cons (n : ℕ) : ∃ d ds, decimalDigits n = d :: ds ∧ d.isDigit = true := by
  obtain ⟨d, ds, hds⟩ := List.exists_cons_of_ne_nil (show decimalDigits n ≠ [] from Nat.toDigits_ne_nil)
  exact ⟨d, ds, hds, isDigit_of_mem_decimalDigits (hds ▸ List.mem_cons_self)⟩

/-- Digits are taken up to what is no digit. -/
theorem moreDigits_append (hds : ∀ d ∈ ds, d.isDigit = true) (hc : c.isDigit = false) (hu : c ≠ '_') :
    moreDigits Char.isDigit (ds ++ c :: r) = (ds, c :: r) := by
  induction ds with
  | nil =>
    rw [List.nil_append]
    unfold moreDigits
    split
    · rename_i heq
      cases heq
    · rename_i heq
      cases heq
      exact absurd rfl hu
    · rename_i heq
      cases heq
      rw [hc]
      rfl
  | cons d ds ih =>
    have hd := hds d List.mem_cons_self
    have ih := ih fun d' h => hds d' (List.mem_cons_of_mem d h)
    rw [List.cons_append]
    unfold moreDigits
    split
    · rename_i heq
      cases heq
    · rename_i heq
      rw [List.cons.injEq] at heq
      rw [heq.1] at hd
      cases hd
    · rename_i heq
      rw [List.cons.injEq] at heq
      rw [← heq.1, ← heq.2, hd, if_pos rfl, ih]

theorem digits_append (hne : ds ≠ []) (hds : ∀ d ∈ ds, d.isDigit = true) (hc : c.isDigit = false) (hu : c ≠ '_') :
    digits Char.isDigit (ds ++ c :: r) = some (ds, c :: r) := by
  cases ds with
  | nil => exact absurd rfl hne
  | cons d ds =>
    have hd := hds d List.mem_cons_self
    have hmore := moreDigits_append (r := r) (fun d' h => hds d' (List.mem_cons_of_mem d h)) hc hu
    simp only [List.cons_append, digits, hd, if_true, hmore]

/-- No number but zero starts with a zero. -/
theorem head?_decimalDigits_ne {n : ℕ} (hn : 0 < n) : (decimalDigits n).head? ≠ some '0' := by
  induction n using Nat.strong_induction_on with
  | _ n ih =>
    rw [decimalDigits, Nat.toDigits_eq_if (by decide)]
    split
    · rw [List.head?_cons, ne_eq, Option.some.injEq, Nat.digitChar_eq_zero]
      omega
    · rw [List.head?_append_of_ne_nil _ Nat.toDigits_ne_nil]
      exact ih (n / 10) (by omega) (by omega)

/-- The digits of a number are taken as the whole part of a number. -/
theorem whole_decimalDigits (n : ℕ) (hc : c.isDigit = false) (hu : c ≠ '_') :
    whole (decimalDigits n ++ c :: r) = some (decimalDigits n, c :: r) := by
  have hdigits := digits_append (r := r) Nat.toDigits_ne_nil
    (fun _ => @isDigit_of_mem_decimalDigits n _) hc hu
  rcases Nat.eq_zero_or_pos n with rfl | hn
  · rfl
  · have hhead := head?_decimalDigits_ne hn
    unfold whole
    split
    · rename_i heq
      rw [List.append_eq_cons_iff] at heq
      rcases heq with ⟨h, -⟩ | ⟨_, h, -⟩
      · exact absurd h Nat.toDigits_ne_nil
      · rw [h] at hhead
        exact absurd rfl hhead
    · exact hdigits

theorem valueOf_eq (hds : ∀ d ∈ ds, d.isDigit = true) : valueOf 10 ds = Nat.ofDigitChars 10 ds 0 := by
  have hfold : ∀ k, ds.foldl (fun n c =>
      let d := if c.isDigit then c.toNat - '0'.toNat
        else if 'a' ≤ c then c.toNat - 'a'.toNat + 10 else c.toNat - 'A'.toNat + 10
      n * 10 + d) k = Nat.ofDigitChars 10 ds k := by
    induction ds with
    | nil => intro k; rfl
    | cons d ds ih =>
      intro k
      rw [List.foldl_cons, ih fun d' h => hds d' (List.mem_cons_of_mem d h), Nat.ofDigitChars_cons]
      simp only [hds d List.mem_cons_self, if_true]
      rw [Nat.mul_comm]
  exact hfold 0

theorem valueOf_decimalDigits (n : ℕ) : valueOf 10 (decimalDigits n) = n := by
  rw [valueOf_eq fun _ => isDigit_of_mem_decimalDigits, decimalDigits, Nat.ofDigitChars_ten_toDigits]

/-- The value of digits before and after a mark. -/
theorem valueOf_append (n : ℕ) (hafter : ∀ d ∈ after, d.isDigit = true) :
    valueOf 10 (decimalDigits n ++ after) = n * 10 ^ after.length + valueOf 10 after := by
  have hall : ∀ d ∈ decimalDigits n ++ after, d.isDigit = true := by
    intro d hd
    rcases List.mem_append.mp hd with h | h
    · exact isDigit_of_mem_decimalDigits h
    · exact hafter d h
  rw [valueOf_eq hall, valueOf_eq hafter, Nat.ofDigitChars_append, decimalDigits, Nat.ofDigitChars_ten_toDigits,
    Nat.ofDigitChars_eq_ofDigitChars_zero, Nat.mul_comm]

/-! ## No dates and no times -/

/-- A field is taken from the digits in front. -/
theorem field_append {n low high v : ℕ} {rest : List Char} (hc : c.isDigit = false)
    (h : field n low high (ds ++ c :: r) = some (v, rest)) : n ≤ ds.length ∧ rest = ds.drop n ++ c :: r := by
  simp only [field] at h
  split at h
  · rename_i hfield
    obtain ⟨-, hall, -⟩ := hfield
    have hle : n ≤ ds.length := by
      by_contra hlt
      have hmem : c ∈ (ds ++ c :: r).take n := by
        rw [List.take_append, List.mem_append]
        right
        obtain ⟨k, hk⟩ : ∃ k, n - ds.length = k + 1 := ⟨n - ds.length - 1, by omega⟩
        rw [hk, List.take_succ_cons]
        exact List.mem_cons_self
      have hdigit := List.all_eq_true.mp hall c hmem
      rw [hc] at hdigit
      cases hdigit
    refine ⟨hle, ?_⟩
    simp only [Option.some.injEq, Prod.mk.injEq] at h
    rw [← h.2, List.drop_append_of_le_length hle]
  · cases h

/-- After a field there is no mark but the one that ends the digits. -/
theorem expect_after_field {n low high v : ℕ} {mark : Char} {rest : List Char} (hn : 0 < n)
    (hds : ∀ d ∈ ds, d.isDigit = true) (hc : c.isDigit = false) (hmark : mark.isDigit = false)
    (h : ds = [] ∨ c ≠ mark) (hfield : field n low high (ds ++ c :: r) = some (v, rest)) :
    expect mark rest = none := by
  obtain ⟨hle, rfl⟩ := field_append hc hfield
  have hne : c ≠ mark := by
    rcases h with rfl | h
    · rw [List.length_nil] at hle
      omega
    · exact h
  cases hdrop : ds.drop n with
  | nil => rw [List.nil_append, expect, if_neg hne.symm]
  | cons d rest =>
    have hd : d.isDigit = true := hds d (List.mem_of_mem_drop (hdrop ▸ List.mem_cons_self))
    rw [List.cons_append, expect, if_neg]
    rintro rfl
    rw [hd] at hmark
    cases hmark

/-- Digits are no date and no time when no mark of one follows. -/
theorem moment_eq_none (hds : ∀ d ∈ ds, d.isDigit = true) (hc : c.isDigit = false)
    (h : ds = [] ∨ c ≠ '-' ∧ c ≠ ':') : moment (ds ++ c :: r) = none := by
  have hdate : date (ds ++ c :: r) = none := by
    cases hyear : field 4 0 9999 (ds ++ c :: r) with
    | none => simp [date, hyear]
    | some taken =>
      have hmark := expect_after_field (by decide) hds hc rfl (h.imp id And.left) hyear
      simp [date, hyear, hmark]
  have htime : time (ds ++ c :: r) = none := by
    cases hhour : field 2 0 23 (ds ++ c :: r) with
    | none => simp [time, hhour]
    | some taken =>
      have hmark := expect_after_field (by decide) hds hc rfl (h.imp id And.right) hhour
      simp [time, hhour, hmark]
  rw [moment, hdate, htime]

/-- Nothing but a digit starts a date or a time. -/
theorem moment_no_digit (hc : c.isDigit = false) : moment (c :: r) = none :=
  moment_eq_none (List.forall_mem_nil _) hc (Or.inl rfl)

/-! ## Whole numbers and digits after a mark -/

/-- A number that ends with its line is read as a count. -/
theorem decimal_whole {n : ℕ} (hn : n < 0x8000000000000000) :
    decimal false (decimalDigits n ++ '\n' :: r) = some (.integer n, '\n' :: r) := by
  have hrange : Int64.minValue.toInt ≤ (n : Int) ∧ (n : Int) ≤ Int64.maxValue.toInt := by
    constructor
    · show -9223372036854775808 ≤ (n : Int)
      omega
    · show (n : Int) ≤ 9223372036854775807
      omega
  have hwhole := whole_decimalDigits (r := r) n (show '\n'.isDigit = false by decide) (by decide)
  simp [decimal, hwhole, fraction, exponent, valueOf_decimalDigits, integer?, hrange]

/-- A number with digits after a mark is read as a float. -/
theorem decimal_point (negative : Bool) (n : ℕ) (hne : after ≠ []) (hafter : ∀ d ∈ after, d.isDigit = true) :
    decimal negative (decimalDigits n ++ '.' :: (after ++ '\n' :: r)) =
      (float? negative (decimalDigits n) after 0).map (·, '\n' :: r) := by
  have hwhole := whole_decimalDigits (r := after ++ '\n' :: r) n (show '.'.isDigit = false by decide) (by decide)
  have hfraction := digits_append (r := r) hne hafter (show '\n'.isDigit = false by decide) (by decide)
  simp [decimal, hwhole, fraction, hfraction, exponent]

/-! ## Texts of decimals -/

/-- Zeros behind the digits of a number multiply it. -/
theorem decimalDigits_mul_pow {n : ℕ} (hn : 0 < n) (k : ℕ) :
    decimalDigits (n * 10 ^ k) = decimalDigits n ++ List.replicate k '0' := by
  induction k with
  | zero => simp
  | succ k ih =>
    have hpos : 0 < n * 10 ^ k := Nat.mul_pos hn (Nat.pow_pos (by decide))
    have hstep := Nat.toDigits_append_toDigits (b := 10) (d := 0) (by decide) hpos (by decide)
    have hpow : n * 10 ^ (k + 1) = 10 * (n * 10 ^ k) + 0 := by
      rw [Nat.pow_succ]
      ring
    rw [hpow, decimalDigits, ← hstep]
    change decimalDigits (n * 10 ^ k) ++ _ = _
    rw [ih, Nat.toDigits_zero, List.append_assoc, ← List.replicate_succ']

/-- The places after a mark, filled up with zeros in front. -/
theorem places_spec {places n : ℕ} (hplaces : 0 < places) (hn : n < 10 ^ places) :
    (List.replicate (places - (decimalDigits n).length) '0' ++ decimalDigits n).length = places ∧
      (∀ d ∈ List.replicate (places - (decimalDigits n).length) '0' ++ decimalDigits n, d.isDigit = true) ∧
      valueOf 10 (List.replicate (places - (decimalDigits n).length) '0' ++ decimalDigits n) = n := by
  have hlen : (decimalDigits n).length ≤ places := (Nat.length_toDigits_le_iff (by decide) hplaces).mpr hn
  have hall : ∀ d ∈ List.replicate (places - (decimalDigits n).length) '0' ++ decimalDigits n,
      d.isDigit = true := by
    intro d hd
    rcases List.mem_append.mp hd with h | h
    · rw [List.eq_of_mem_replicate h]
      rfl
    · exact isDigit_of_mem_decimalDigits h
  refine ⟨?_, hall, ?_⟩
  · rw [List.length_append, List.length_replicate]
    omega
  · rw [valueOf_eq hall, Nat.ofDigitChars_append, Nat.ofDigitChars_replicate_zero, Nat.mul_zero, decimalDigits,
      Nat.ofDigitChars_ten_toDigits]

/-- The text of a decimal, with the mark of a whole number, has digits before and after a mark, and they have its
value. -/
theorem exists_numeral {d : Decimal} (hd : 0 < d.digits ∨ d.exponent = 0) :
    ∃ (n : ℕ) (after : List Char), after ≠ [] ∧ (∀ c ∈ after, c.isDigit = true) ∧
      plainText d ++ (if 0 ≤ d.exponent then ".0".toList else []) = decimalDigits n ++ '.' :: after ∧
      Decimal.value ⟨valueOf 10 (decimalDigits n ++ after), 0 - after.length⟩ = d.value := by
  unfold plainText
  split
  · rename_i he
    have hdigit : ∀ c ∈ ['0'], c.isDigit = true := List.forall_mem_singleton.mpr rfl
    refine ⟨d.digits * 10 ^ d.exponent.toNat, ['0'], List.cons_ne_nil _ _, hdigit, ?_, ?_⟩
    · have hzeros : decimalDigits (d.digits * 10 ^ d.exponent.toNat) =
          decimalDigits d.digits ++ List.replicate d.exponent.toNat '0' := by
        rcases hd with h | h
        · exact decimalDigits_mul_pow h _
        · simp [h]
      rw [hzeros]
      rfl
    · rw [valueOf_append _ hdigit, Decimal.value, Decimal.value]
      have hzero : valueOf 10 ['0'] = 0 := rfl
      have hten : (10 : ℚ) ^ d.exponent = 10 ^ d.exponent.toNat := by
        rw [← zpow_natCast]
        congr 1
        omega
      rw [hzero, hten]
      push_cast
      norm_num
      ring
  · rename_i he
    have hplaces : 0 < (-d.exponent).toNat := by omega
    obtain ⟨hlen, hall, hvalue⟩ := places_spec hplaces (Nat.mod_lt d.digits (Nat.pow_pos (by decide)))
    refine ⟨d.digits / 10 ^ (-d.exponent).toNat, _, ?_, hall, ?_, ?_⟩
    · intro hnil
      rw [hnil, List.length_nil] at hlen
      omega
    · rw [placeMark, if_neg (by omega), List.append_nil]
      rfl
    · have hexponent : (0 : Int) - ((-d.exponent).toNat : ℕ) = d.exponent := by omega
      rw [valueOf_append _ hall, hlen, hvalue, Nat.div_add_mod', hexponent]

/-! ## Doubles -/

/-- A decimal of the same value as the text of a double is read as that double. -/
theorem nearest_text {style : DoubleStyle} {x : Float} {negative : Bool} {significand : ℕ} {exponent : Int}
    {d : Decimal} (hx : Binary64.ofFloat x = .finite negative significand exponent)
    (hd : d.value = (if significand = 0 then ⟨0, 0⟩ else shortest style.tie significand exponent).value) :
    nearest negative d = x := by
  rcases Nat.eq_zero_or_pos significand with rfl | hpos
  · have hzero : d.digits = 0 := by
      rw [if_pos rfl, Decimal.value, Decimal.value, Nat.cast_zero, zero_mul, mul_eq_zero] at hd
      rcases hd with h | h
      · exact_mod_cast h
      · exact absurd h (zpow_pos (by norm_num) _).ne'
    have hleast : exponent = -1074 := by
      rcases (fits_ofFloat hx).normal with h | h
      · exact h
      · omega
    have hplus : Binary64.ofFloat 0 = .finite false 0 (-1074) := by decide +kernel
    have hminus : Binary64.ofFloat (-0) = .finite true 0 (-1074) := by decide +kernel
    subst hleast
    refine (ofFloat_inj ?_).symm
    simp only [nearest, hzero, true_or, if_true]
    cases negative with
    | false => exact hx.trans hplus.symm
    | true => exact hx.trans hminus.symm
  · refine nearest_eq hx hpos ?_
    rw [hd, if_neg hpos.ne']
    exact rounds_shortest style.tie (fits_ofFloat hx) hpos

/-- The text of a finite double has digits before and after a mark, and they are read as this double. -/
theorem exists_digits {style : DoubleStyle} (hmark : style.wholeMark = ".0") {x : Float} {negative : Bool}
    {significand : ℕ} {exponent : Int} (hx : Binary64.ofFloat x = .finite negative significand exponent) :
    ∃ (n : ℕ) (after : List Char), after ≠ [] ∧ (∀ c ∈ after, c.isDigit = true) ∧
      (shortestText style x).toList = (if negative then ['-'] else []) ++ decimalDigits n ++ '.' :: after ∧
      nearest negative ⟨valueOf 10 (decimalDigits n ++ after), 0 - after.length⟩ = x := by
  generalize hd : (if significand = 0 then ⟨0, 0⟩ else shortest style.tie significand exponent : Decimal) = d
  have hwritable : 0 < d.digits ∨ d.exponent = 0 := by
    rw [← hd]
    split
    · exact Or.inr rfl
    · rename_i hne
      have hpos := Nat.pos_of_ne_zero hne
      have hf := fits_ofFloat hx
      exact Or.inl (Nat.pos_of_ne_zero ((rounds_shortest style.tie hf hpos).size_bounds hf hpos).1)
  obtain ⟨n, after, hne, hall, htext, hvalue⟩ := exists_numeral hwritable
  refine ⟨n, after, hne, hall, ?_, nearest_text hx (hd ▸ hvalue)⟩
  have hbody : (if 0 ≤ d.exponent then String.ofList (plainText d) ++ ".0" else String.ofList (plainText d)).toList =
      plainText d ++ (if 0 ≤ d.exponent then ".0".toList else []) := by
    split
    · rw [String.toList_append, String.toList_ofList]
    · rw [String.toList_ofList, List.append_nil]
  rw [List.append_assoc, ← htext]
  simp only [shortestText, hx, hd, hmark]
  cases negative with
  | false => exact hbody
  | true =>
    rw [if_pos rfl, String.toList_append, hbody]
    rfl

/-- No finite double is infinity. -/
theorem beq_infinity_eq_false {x : Float} {negative : Bool} {significand : ℕ} {exponent : Int}
    (hx : Binary64.ofFloat x = .finite negative significand exponent) : (x == 1.0 / 0.0) = false := by
  have hinf : (1.0 / 0.0 : Float).toModel.unpack = .infinity .positive := by
    rw [unpack_eq]
    have hparts : Binary64.ofFloat (1.0 / 0.0) = .infinite false := by decide +kernel
    rw [hparts]
    rfl
  show (x.toModel.unpack.compare (1.0 / 0.0 : Float).toModel.unpack == some .eq) = false
  rw [hinf, unpack_eq, hx, Binary64.unpacked]
  by_cases hpos : 0 < significand
  · rw [dif_pos hpos]
    cases negative <;> rfl
  · rw [dif_neg hpos]
    cases negative <;> rfl

end Tremor.Toml
