import ClassScript.Machine.Evaluate
import ClassScript.Proofs.Number.Numerals
import ClassScript.Proofs.Parsing.Recognition
import ClassScript.Proofs.Parsing.Written
import ClassScript.Proofs.Source.Layout

/-!
# Printed numbers as program text

The text of a finite number is an expression that evaluates to the number (`printed_reads_back`):
a numeral, with a minus in front of it if the sign bit is set. So numbers with the same text
have the same bits.
-/

namespace ClassScript.Machine

open Source Syntax Parsing Object Number

/-- A numeral as the only token of a line, or behind a minus. -/
def signedTokens (n : Float) (numeral : String) : Tokens :=
  let number : Token := ⟨.number, numeral, 1⟩
  ⟨if isNegative n then [⟨.minus, "-", 1⟩, number] else [number], 1⟩

/-- The text is read as an optional minus and a numeral, which are one expression, and this
expression evaluates to the number, wherever it is evaluated. -/
def ReadsBack (text : String) (n : Float) : Prop :=
  ∃ numeral e, tokens text = .ok (signedTokens n numeral) ∧
    (∀ id, singleExpression (signedTokens n numeral) id = (.ok e, id)) ∧
    ∀ (fuel : Nat) (m : State), evaluate (fuel + 2) e m = .ok (.number n) m

/-- A text that is read as a number determines it. -/
theorem ReadsBack.unique {text : String} {n n' : Float} (reads : ReadsBack text n)
    (reads' : ReadsBack text n') : n = n' := by
  obtain ⟨numeral, e, scanned, parsed, evaluated⟩ := reads
  obtain ⟨numeral', e', scanned', parsed', evaluated'⟩ := reads'
  have sameTokens : signedTokens n numeral = signedTokens n' numeral' :=
    Except.ok.inj (scanned.symm.trans scanned')
  have sameTree := (parsed 0).symm.trans (sameTokens ▸ parsed' 0)
  obtain rfl : e = e' := Except.ok.inj (Prod.mk.inj sameTree).1
  let m := State.start (fun _ => n) ⟨.empty, none⟩
  have sameValue := (evaluated 0 m).symm.trans (evaluated' 0 m)
  cases sameValue
  rfl

/-! ## Tokens of a signed numeral -/

/-- What a number is written as is scanned as its sign, if it has one, and a numeral. -/
theorem tokens_signed {text : String} {n : Float} {numeral : List Char}
    (shape : text.toList = signText n ++ numeral) (lexeme : Lexeme .number numeral) :
    tokens text = .ok (signedTokens n (String.ofList numeral)) := by
  have item := items_lexeme lexeme 1
  have line := lexeme.newlines_eq_zero (by decide)
  rw [line] at item
  rw [tokens_iff, shape]
  unfold signText signedTokens
  split
  · have minus : pieces ('-' :: numeral) = .token .minus ['-'] :: pieces numeral := pieces_cons ..
    refine ⟨?_, ?_⟩
    · show itemsFrom 1 (pieces ('-' :: numeral)) = _
      rw [minus, itemsFrom]
      exact congrArg (Except.ok _ :: ·) item
    · rw [newlines_append, line]
      rfl
  · exact ⟨item, by rw [List.nil_append, line]⟩

/-! ## The expression of a signed numeral -/

/-- What a signed numeral is read as. -/
def signedLiteral (n value : Float) : Expr :=
  if isNegative n then .unary .negate 1 (.literal (.number value)) else .literal (.number value)

/-- A numeral with its sign is read as a negation of the literal, or the literal. -/
theorem parses_signed {n : Float} {numeral : List Char} (id : NodeId) :
    singleExpression (signedTokens n (String.ofList numeral)) id =
      (.ok (signedLiteral n (ofNumeral numeral)), id) := by
  rw [singleExpression_iff]
  have constant : Parsing.Tree id [⟨.number, String.ofList numeral, 1⟩]
      (.primary (.literal (.number (ofNumeral numeral)))) id := by
    have value : Token.value ⟨.number, String.ofList numeral, 1⟩ = ofNumeral numeral :=
      congrArg ofNumeral String.toList_ofList
    exact value ▸ .literal (.number rfl)
  have call : Parsing.Tree id _ (.madeBy 8 _) id := constant.of_primary
  unfold signedTokens signedLiteral
  split
  · have operand : Parsing.Tree id _ (.madeBy 7 _) id := call.madeBy_le (by decide)
    have sign : Token.kind ⟨.minus, "-", 1⟩ = UnaryOp.kind .negate := rfl
    have negation : Parsing.Tree id _ (.madeBy 7 _) id := .operated sign operand
    exact negation.madeBy_le (Nat.zero_le 7)
  · exact call.madeBy_le (Nat.zero_le 8)

/-- Evaluated, the literal with its sign is the number that was written. -/
theorem evaluate_signed {n value : Float} (same : n = if isNegative n then -value else value)
    (fuel : Nat) (m : State) :
    evaluate (fuel + 2) (signedLiteral n value) m = .ok (.number n) m := by
  unfold signedLiteral
  split
  · next negative =>
    rw [if_pos negative] at same
    conv => rhs; rw [same]
    rfl
  · next positive =>
    rw [if_neg positive] at same
    conv => rhs; rw [same]
    rfl

/-- A finite number has the same bits wherever it is read from its sign and a numeral of its
magnitude. -/
theorem ReadsBack.of_spells {text : String} {n : Float} (finite : IsFinite n)
    (shape : ∃ numeral, text.toList = signText n ++ numeral ∧ Spells numeral (magnitude n)) :
    ReadsBack text n := by
  obtain ⟨numeral, characters, spells⟩ := shape
  refine ⟨_, _, tokens_signed characters spells.lexeme, parses_signed, evaluate_signed ?_⟩
  rw [spells.value]
  exact eq_signed finite

/-! ## The round trip -/

/-- The text of a finite number is read back as a number with the same bits, whatever the
bits are, also where it is not written as an integer. So the texts of different numbers
differ. -/
theorem printed_reads_back (bits : UInt64) (finite : bits.toNat % 2 ^ 63 < infinity) :
    (Float.ofBits bits).toBits = bits ∧
      ReadsBack (display (Float.ofBits bits)) (Float.ofBits bits) ∧
      ReadsBack (write .plain (Float.ofBits bits)) (Float.ofBits bits) ∧
      ∀ other : UInt64, other.toNat % 2 ^ 63 < infinity →
        display (Float.ofBits bits) = display (Float.ofBits other) → bits = other := by
  have isFinite {bits : UInt64} (finite : bits.toNat % 2 ^ 63 < infinity) :
      IsFinite (Float.ofBits bits) := by
    unfold IsFinite magnitude
    rw [toBits_ofBits finite]
    exact finite
  -- whatever is displayed spells the number
  have reads {bits : UInt64} (finite : bits.toNat % 2 ^ 63 < infinity) :
      ReadsBack (display (Float.ofBits bits)) (Float.ofBits bits) :=
    .of_spells (isFinite finite) (spells_display (isFinite finite))
  refine ⟨toBits_ofBits finite, reads finite,
    .of_spells (isFinite finite) (spells_write (isFinite finite)), ?_⟩
  intro other otherFinite same
  have sameNumber := (reads finite).unique (same ▸ reads otherFinite)
  rw [← toBits_ofBits finite, sameNumber, toBits_ofBits otherFinite]

/-- Negative zero keeps its sign. -/
theorem negative_zero_reads_back :
    (0x8000000000000000 : UInt64).toNat % 2 ^ 63 < infinity ∧
      ReadsBack (display (Float.ofBits 0x8000000000000000)) (Float.ofBits 0x8000000000000000) :=
  have finite : (0x8000000000000000 : UInt64).toNat % 2 ^ 63 < infinity := by decide
  ⟨finite, (printed_reads_back _ finite).2.1⟩

end ClassScript.Machine
