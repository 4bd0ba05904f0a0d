import ClassScript.Number.Text
import ClassScript.Proofs.Number.Shortest
import ClassScript.Proofs.Source.Lexeme

/-!
# Numerals of numbers

The text of a finite number is its sign and a numeral that denotes its magnitude
(`display_spells`), whether it is written as an integer or with its shortest decimal, and
wherever the point stands.
-/

namespace ClassScript.Number

open Source

/-- The text is a numeral that denotes the magnitude. -/
structure Spells (numeral : List Char) (m : Nat) : Prop where
  lexeme : Lexeme .number numeral
  value : ofNumeral numeral = ofMagnitude m

/-! ## Digits -/

theorem digitsValue_eq (start : Nat) (digits : List Char) :
    digitsValue start digits = Nat.ofDigitChars 10 digits start := rfl

theorem digitsValue_append (start : Nat) (digits more : List Char) :
    digitsValue start (digits ++ more) = digitsValue (digitsValue start digits) more :=
  List.foldl_append

theorem digitsValue_zeros (start count : Nat) :
    digitsValue start (List.replicate count '0') = start * Nat.pow 10 count := by
  rw [digitsValue_eq, Nat.ofDigitChars_replicate_zero, Nat.mul_comm]
  rfl

theorem digitsValue_toDigits (n : Nat) : digitsValue 0 (Nat.toDigits 10 n) = n :=
  Nat.ofDigitChars_ten_toDigits

theorem isDigit_toDigits {n : Nat} : ∀ c ∈ Nat.toDigits 10 n, c.isDigit := fun _ inside =>
  Nat.isDigit_of_mem_toDigits (by decide) (by decide) inside

theorem isDigit_zeros {count : Nat} : ∀ c ∈ List.replicate count '0', c.isDigit := by
  intro c inside
  rw [(List.mem_replicate.mp inside).2]
  rfl

theorem ne_point {c : Char} (digit : c.isDigit) : decide (c ≠ '.') := by
  rw [decide_eq_true_iff]
  rintro rfl
  cases digit

/-! ## Numerals -/

section Spelling

variable {whole fraction : List Char} {m : Nat}

/-- Digits whose value is nearest to a magnitude are a numeral of it. -/
theorem spells_integer (digits : ∀ c ∈ whole, c.isDigit) (some : whole ≠ [])
    (value : nearest (digitsValue 0 whole) 1 = m) : Spells whole m := by
  have plain : ∀ c ∈ whole, decide (c ≠ '.') := fun c inside => ne_point (digits c inside)
  refine ⟨?_, ?_⟩
  · obtain ⟨first, rest, rfl⟩ := List.exists_cons_of_ne_nil some
    exact .integer digits
  · unfold ofNumeral
    simp only [takeWhile_whole plain, dropWhile_whole plain]
    rw [← value]
    rfl

/-- Digits around a point, whose value is nearest to a magnitude, are a numeral of it. -/
theorem spells_decimal (before : ∀ c ∈ whole, c.isDigit) (behind : ∀ c ∈ fraction, c.isDigit)
    (some : whole ≠ []) (some' : fraction ≠ [])
    (value : nearest (digitsValue 0 (whole ++ fraction)) (Nat.pow 10 fraction.length) = m) :
    Spells (whole ++ '.' :: fraction) m := by
  have plain : ∀ c ∈ whole, decide (c ≠ '.') := fun c inside => ne_point (before c inside)
  have point : ∀ c ∈ ('.' :: fraction).head?, ¬ decide (c ≠ '.') := by
    rintro _ ⟨⟩
    decide
  refine ⟨?_, ?_⟩
  · obtain ⟨first, rest, rfl⟩ := List.exists_cons_of_ne_nil some
    obtain ⟨next, more, rfl⟩ := List.exists_cons_of_ne_nil some'
    exact .decimal before behind
  · unfold ofNumeral
    simp only [takeWhile_row plain point, dropWhile_row plain point, List.drop_succ_cons,
      List.drop_zero]
    rw [← digitsValue_append, value]

end Spelling

/-- The numeral of a decimal denotes what the decimal reads back as. -/
theorem spells_setPoint (d : Decimal) :
    let digits := Nat.toDigits 10 d.digits
    Spells (setPoint .plain digits (digits.length + d.exponent)).toList d.nearest := by
  obtain ⟨value, exponent⟩ := d
  intro digits
  have some : digits ≠ [] := Nat.toDigits_ne_nil
  have read : digitsValue 0 digits = value := digitsValue_toDigits value
  have all : ∀ c ∈ digits, c.isDigit := isDigit_toDigits
  generalize place : (digits.length : Int) + exponent = point
  unfold setPoint Decimal.nearest Decimal.num Decimal.den
  dsimp only
  split
  · next front =>
    -- the point stands in front of the digits, with zeros between
    have length : (-point).toNat + digits.length = (-exponent).toNat := by omega
    have up : exponent.toNat = 0 := by omega
    have shape : ("0." ++ zeros (-point).toNat ++ String.ofList digits).toList =
        ['0'] ++ '.' :: (List.replicate (-point).toNat '0' ++ digits) := by
      simp [zeros]
    rw [shape]
    have anyDigits := List.append_ne_nil_of_right_ne_nil (List.replicate (-point).toNat '0') some
    refine spells_decimal ?_ ?_ (List.cons_ne_nil _ _) anyDigits ?_
    · rintro _ ⟨⟩
      · rfl
      · contradiction
    · exact fun c inside => (List.mem_append.mp inside).elim (isDigit_zeros c) (all c)
    · rw [List.length_append, List.length_replicate, length, digitsValue_append,
        digitsValue_append, digitsValue_zeros, show digitsValue 0 ['0'] = 0 from rfl,
        Nat.zero_mul, read, up, show Nat.pow 10 0 = 1 from rfl, Nat.mul_one]
  · split
    · next integral =>
      -- the point would stand behind the digits and zeros, and is left out
      have length : point.toNat - digits.length = exponent.toNat := by omega
      have down : (-exponent).toNat = 0 := by omega
      have shape : (String.ofList digits ++ zeros (point.toNat - digits.length) ++
          (if Layout.plain.pointZero = true then ".0" else "")).toList =
          digits ++ List.replicate exponent.toNat '0' := by
        rw [length]
        simp [zeros, Layout.plain]
      rw [shape, down]
      refine spells_integer ?_ (List.append_ne_nil_of_left_ne_nil some _) ?_
      · exact fun c inside => (List.mem_append.mp inside).elim (all c) (isDigit_zeros c)
      · rw [digitsValue_append, read, digitsValue_zeros]
    · next inside =>
      have up : exponent.toNat = 0 := by omega
      have length : digits.length - point.toNat = (-exponent).toNat := by omega
      have shape : (String.ofList (digits.take point.toNat) ++ "." ++
          String.ofList (digits.drop point.toNat)).toList =
          digits.take point.toNat ++ '.' :: digits.drop point.toNat := by
        simp
      rw [shape]
      refine spells_decimal (fun c among => all c (List.mem_of_mem_take among))
        (fun c among => all c (List.mem_of_mem_drop among)) ?_ ?_ ?_
      · exact fun none => (List.take_eq_nil_iff.mp none).elim (by omega) some
      · rw [Ne, List.drop_eq_nil_iff]
        omega
      · rw [List.take_append_drop, List.length_drop, read, length, up,
          show Nat.pow 10 0 = 1 from rfl, Nat.mul_one]

theorem write_plain (d : Decimal) : d.write .plain =
    setPoint .plain (Nat.toDigits 10 d.digits)
      ((Nat.toDigits 10 d.digits).length + d.exponent) := by
  have always (leading : Int) : Layout.plain.positional leading = true := rfl
  unfold Decimal.write
  dsimp only
  rw [if_pos (always _), Int.sub_add_cancel]

/-! ## The text of a number -/

/-- The sign of a number in its text. -/
def signText (n : Float) : List Char := if isNegative n then ['-'] else []

theorem toList_sign (n : Float) : (if isNegative n then "-" else "").toList = signText n := by
  unfold signText
  split <;> rfl

/-- An integer is the numeral of its digits. -/
theorem spells_toString {m integer : Nat} (finite : m < infinity)
    (same : units m = integer * unitsPerOne) : Spells (toString integer).toList m := by
  have value : nearest integer 1 = m := by
    rw [← nearest_mul integer 1 unitsPerOne_pos, ← same, Nat.one_mul, nearest_units finite]
  rw [Nat.toString_eq_ofList_toDigits, String.toList_ofList]
  exact spells_integer isDigit_toDigits Nat.toDigits_ne_nil (by rwa [digitsValue_toDigits])

/-- A finite number is written as its sign and a numeral of its magnitude. -/
theorem spells_write {n : Float} (finite : IsFinite n) : ∃ numeral,
    (write .plain n).toList = signText n ++ numeral ∧ Spells numeral (magnitude n) := by
  unfold write
  dsimp only
  rw [if_neg (Nat.lt_asymm finite), if_neg (Nat.ne_of_lt finite)]
  split
  · next zero =>
    refine ⟨(toString 0).toList, ?_, ?_⟩
    · rw [String.toList_append, toList_sign]
      rfl
    · exact spells_toString finite (by rw [zero, units_zero, Nat.zero_mul])
  · refine ⟨_, by rw [String.toList_append, toList_sign], ?_⟩
    have spells := spells_setPoint (Decimal.shortest (magnitude n))
    rw [Decimal.nearest_shortest finite] at spells
    rwa [write_plain]

/-- The text of a finite number is its sign and a numeral that denotes its magnitude, also
where it is written as an integer. -/
theorem spells_display {n : Float} (finite : IsFinite n) : ∃ numeral,
    (display n).toList = signText n ++ numeral ∧ Spells numeral (magnitude n) := by
  unfold display
  cases small : smallInteger? (magnitude n) with
  | none => exact spells_write finite
  | some integer =>
    cases integer with
    | zero => exact spells_write finite
    -- a small integer is written digit by digit; everything else by its shortest decimal
    | succ integer =>
      refine ⟨(toString (integer + 1)).toList, ?_, ?_⟩
      · show ((if isNegative n then "-" else "") ++ toString (integer + 1)).toList = _
        rw [String.toList_append, toList_sign]
      · unfold smallInteger? at small
        dsimp only at small
        split at small
        · next integral =>
          have whole := (Bool.and_eq_true_iff.mp integral).1
          have same := Nat.div_mul_cancel (Nat.dvd_of_mod_eq_zero (of_decide_eq_true whole))
          rw [Option.some.inj small] at same
          exact spells_toString finite same.symm
        · cases small

end ClassScript.Number
