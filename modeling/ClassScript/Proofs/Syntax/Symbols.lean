import ClassScript.Proofs.Parsing.Tokens
import ClassScript.Proofs.Source.Lines
import ClassScript.Syntax.Tree

/-!
# Expressions as rows of symbols

A symbol is what a token says, whatever line it is on. `Expr.symbols` writes an expression
as the symbols of the tokens that it stands for. All tokens of a kind of operators or
keywords have the same symbol (`wellSpelled_tokens`, `Token.symbol_of_fixed`), so a row of
tokens says what a row of symbols says if it has these symbols.
-/

namespace ClassScript.Source

/-- The kind and the text of a token, or the value that a constant denotes. -/
inductive Symbol where
  | plain (kind : Kind) (text : String)
  | number (value : Float)
  | string (contents : String)

def Token.symbol (t : Token) : Symbol :=
  match t.kind with
  | .number => .number t.value
  | .string => .string t.contents
  | kind => .plain kind t.lexeme

/-- The kinds of tokens that are not all written alike. -/
def isFree : Kind → Bool
  | .identifier | .number | .string => true
  | _ => false

/-- The text of the operator or keyword that a kind is. -/
def Kind.letters (kind : Kind) : List Char :=
  (((operators ++ keywords).find? fun entry => entry.2 = kind).map Prod.fst).getD []

/-- The symbol of an operator or a keyword. -/
def Kind.symbol (kind : Kind) : Symbol := .plain kind (String.ofList kind.letters)

/-- The text of the token is one that its kind can have. -/
def Token.WellSpelled (t : Token) : Prop := Lexeme t.kind t.lexeme.toList

/-- The tokens of a text are well spelled. -/
theorem wellSpelled_tokens {text : String} {found : Tokens} (scanned : tokens text = .ok found) :
    ∀ t ∈ found.list, t.WellSpelled := fun _ => lexeme_of_tokens scanned

theorem letters_of_listed : ∀ entry ∈ operators ++ keywords, entry.2.letters = entry.1 := by
  decide

/-- An operator or a keyword is written in one way only. -/
theorem Lexeme.eq_letters {kind : Kind} {text : List Char} (lexeme : Lexeme kind text)
    (bound : isFree kind = false) : text = kind.letters := by
  cases lexeme with
  | operator listed => exact (letters_of_listed _ (List.mem_append_left _ listed)).symm
  | keyword listed => exact (letters_of_listed _ (List.mem_append_right _ listed)).symm
  | _ => cases bound

theorem Token.symbol_of_bound {t : Token} (bound : isFree t.kind = false) :
    t.symbol = .plain t.kind t.lexeme := by
  unfold Token.symbol
  split
  · next same => rw [same] at bound; cases bound
  · next same => rw [same] at bound; cases bound
  · rfl

/-- What an operator or a keyword says is known from its kind. -/
theorem Token.WellSpelled.symbol {t : Token} {kind : Kind} (spelled : t.WellSpelled)
    (same : t.kind = kind) (bound : isFree kind = false) : t.symbol = kind.symbol := by
  subst same
  rw [Token.symbol_of_bound bound, Kind.symbol, ← spelled.eq_letters bound,
    String.ofList_toList]

/-- A token that says what a kind or a name says is of that kind, and has that text. -/
theorem Token.of_symbol_plain {t : Token} {kind : Kind} {text : String}
    (same : t.symbol = .plain kind text) : t.kind = kind ∧ t.lexeme = text := by
  unfold Token.symbol at same
  split at same <;> cases same
  exact ⟨rfl, rfl⟩

/-! ## Tokens for symbols -/

/-- A number that programs can name. -/
def IsNumeral (value : Float) : Prop :=
  ∃ numeral, Lexeme .number numeral ∧ Number.ofNumeral numeral = value

/-- A symbol that some token has, if numbers have numerals. -/
def Symbol.IsPlain : Symbol → Prop
  | .plain kind _ => kind ≠ .number ∧ kind ≠ .string
  | .number _ | .string _ => True

theorem Symbol.isPlain_kind {kind : Kind} (bound : isFree kind = false) :
    kind.symbol.IsPlain := by
  constructor <;> (rintro rfl; cases bound)

/-- A symbol has a token. -/
theorem exists_token {s : Symbol} (plain : s.IsPlain)
    (numeral : ∀ value, s = .number value → IsNumeral value) : ∃ t : Token, t.symbol = s := by
  cases s with
  | plain kind text =>
    refine ⟨⟨kind, text, 0⟩, ?_⟩
    unfold Token.symbol
    split
    · next number => exact absurd number plain.1
    · next string => exact absurd string plain.2
    · rfl
  | number value =>
    obtain ⟨digits, -, rfl⟩ := numeral value rfl
    refine ⟨⟨.number, String.ofList digits, 0⟩, ?_⟩
    simp only [Token.symbol, Token.value, String.toList_ofList]
  | string contents =>
    refine ⟨⟨.string, String.ofList ('"' :: contents.toList ++ ['"']), 0⟩, ?_⟩
    simp [Token.symbol, Token.contents]

end ClassScript.Source

namespace ClassScript.Syntax

open Source

def Literal.symbol : Literal → Symbol
  | .number n => .number n
  | .string s => .string s
  | .bool true => Kind.true.symbol
  | .bool false => Kind.false.symbol
  | .nil => Kind.nil.symbol

def Name.symbol (name : Name) : Symbol := .plain .identifier name.text

mutual

/-- What the tokens of an expression say, from left to right. -/
def Expr.symbols : Expr → List Symbol
  | .literal value => [value.symbol]
  | .group inner => Kind.leftParen.symbol :: inner.symbols ++ [Kind.rightParen.symbol]
  | .unary op _ operand => op.kind.symbol :: operand.symbols
  | .binary op _ left right => left.symbols ++ op.kind.symbol :: right.symbols
  | .logical op left right => left.symbols ++ op.kind.symbol :: right.symbols
  | .variable o => [o.name.symbol]
  | .assign target value => target.name.symbol :: Kind.equal.symbol :: value.symbols
  | .call callee _ arguments =>
    callee.symbols ++ Kind.leftParen.symbol :: Expr.listed arguments ++
      [Kind.rightParen.symbol]
  | .get object name => object.symbols ++ [Kind.dot.symbol, name.symbol]
  | .set object name value =>
    object.symbols ++ Kind.dot.symbol :: name.symbol :: Kind.equal.symbol :: value.symbols
  | .this _ _ => [Kind.this.symbol]
  | .super _ _ method => [Kind.super.symbol, Kind.dot.symbol, method.symbol]

/-- Expressions with commas between them. -/
def Expr.listed : List Expr → List Symbol
  | [] => []
  | e :: more => e.symbols ++ Expr.listedBehind more

/-- Expressions with a comma before each of them. -/
def Expr.listedBehind : List Expr → List Symbol
  | [] => []
  | e :: more => Kind.comma.symbol :: e.symbols ++ Expr.listedBehind more

end

theorem isPlain_literal (value : Literal) : value.symbol.IsPlain := by
  rcases value with n | s | (_ | _) | _ <;> trivial

theorem isPlain_listedBehind {arguments : List Expr}
    (each : ∀ e ∈ arguments, ∀ s ∈ e.symbols, s.IsPlain) :
    ∀ s ∈ Expr.listedBehind arguments, s.IsPlain := by
  induction arguments with
  | nil => nofun
  | cons e more ih =>
    rw [List.forall_mem_cons] at each
    rw [Expr.listedBehind, List.cons_append, List.forall_mem_cons, List.forall_mem_append]
    exact ⟨Symbol.isPlain_kind rfl, each.1, ih each.2⟩

theorem isPlain_listed {arguments : List Expr}
    (each : ∀ e ∈ arguments, ∀ s ∈ e.symbols, s.IsPlain) :
    ∀ s ∈ Expr.listed arguments, s.IsPlain := by
  cases arguments with
  | nil => nofun
  | cons e more =>
    rw [List.forall_mem_cons] at each
    rw [Expr.listed, List.forall_mem_append]
    exact ⟨each.1, isPlain_listedBehind each.2⟩

end ClassScript.Syntax
