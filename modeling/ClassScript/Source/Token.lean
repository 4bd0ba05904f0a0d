import ClassScript.Number.Text
import ClassScript.Source.Piece

/-!
# Tokens and their lines

Scanning a text gives its tokens and lexical errors in order, each with the line
on which its piece ends: one more than the newlines up to there. `tokens` keeps the
tokens if there is no error.
-/

namespace ClassScript.Source

/-- A token: its kind, its exact text, and the line on which it ends. -/
structure Token where
  kind : Kind
  lexeme : String
  line : Nat
deriving Repr, DecidableEq

/-- The contents of a string token: its text without the quotes. -/
def Token.contents (token : Token) : String :=
  String.ofList (token.lexeme.toList.drop 1).dropLast

/-- The number that a numeral token denotes. -/
def Token.value (token : Token) : Float :=
  Number.ofNumeral token.lexeme.toList

inductive LexicalCause where
  /-- A character that begins no token. -/
  | unexpected (c : Char)
  /-- A string without closing quote. -/
  | unterminated
deriving Repr, DecidableEq

/-- A fault of the text below the level of tokens. -/
structure LexicalError where
  line : Nat
  cause : LexicalCause
deriving Repr, DecidableEq

def LexicalCause.message : LexicalCause → String
  | .unexpected c => "Unexpected character: " ++ String.singleton c
  | .unterminated => "Unterminated string."

/-- What a scan has found so far, and the line it has reached. -/
structure Scan where
  line : Nat
  items : Array (Except LexicalError Token)

def Scan.start : Scan := ⟨1, #[]⟩

/-- Count a piece's lines, then note the token or the error that it is. -/
def Scan.add (scan : Scan) (piece : Piece) : Scan :=
  let line := scan.line + newlines piece.text
  match piece with
  | .token kind text => ⟨line, scan.items.push (.ok ⟨kind, String.ofList text, line⟩)⟩
  | .blank _ | .comment _ => ⟨line, scan.items⟩
  | .stray c => ⟨line, scan.items.push (.error ⟨line, .unexpected c⟩)⟩
  | .unclosed _ => ⟨line, scan.items.push (.error ⟨line, .unterminated⟩)⟩

/-- The scan of a whole text. Its line is the line on which the text ends. -/
def scan (text : String) : Scan :=
  (pieces text.toList).foldl Scan.add .start

/-- The tokens of a text, and the line on which it ends. -/
structure Tokens where
  list : List Token
  endLine : Nat
deriving Repr, DecidableEq

/-- The lexical errors of a scan. -/
def Scan.errors (scan : Scan) : List LexicalError :=
  scan.items.toList.filterMap fun
    | .ok _ => none
    | .error error => some error

/-- The tokens of a scan. -/
def Scan.tokenList (scan : Scan) : List Token :=
  scan.items.toList.filterMap fun
    | .ok token => some token
    | .error _ => none

/-- The tokens of a text, or every lexical error in it. -/
def tokens (text : String) : Except (List LexicalError) Tokens :=
  let found := scan text
  match found.errors with
  | [] => .ok ⟨found.tokenList, found.line⟩
  | errors => .error errors

end ClassScript.Source
