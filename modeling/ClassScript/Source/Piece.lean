/-!
# Pieces of program text

Text is cut from left to right into pieces: the longest token that stands there, a
blank, a comment, a character that begins nothing, or a string that is never
closed. Nothing is dropped, so the pieces in order are the text, and every question
about lines is a question about the newlines of the pieces before.
-/

namespace ClassScript.Source

/-- The kinds of tokens. The end of the text is no token. -/
inductive Kind where
  | leftParen | rightParen | leftBrace | rightBrace
  | comma | dot | minus | plus | semicolon | slash | star
  | bang | bangEqual | equal | equalEqual
  | greater | greaterEqual | less | lessEqual
  | identifier | string | number
  | and | break | classWord | continue | else | false | fun | for | if | nil
  | or | print | return | super | this | true | var | while
deriving Repr, DecidableEq

/-- The words that are no identifiers. -/
def keywords : List (List Char × Kind) :=
  [("and", .and), ("break", .break), ("class", .classWord), ("continue", .continue),
   ("else", .else), ("false", .false), ("fun", .fun), ("for", .for), ("if", .if),
   ("nil", .nil), ("or", .or), ("print", .print), ("return", .return),
   ("super", .super), ("this", .this), ("true", .true), ("var", .var),
   ("while", .while)].map fun (word, kind) => (word.toList, kind)

/-- The kind of a word: a keyword only if the whole word is one. -/
def wordKind (word : List Char) : Kind :=
  (keywords.lookup word).getD .identifier

/-- Characters that are a token on their own, whatever follows. -/
def singleKind? : Char → Option Kind
  | '(' => some .leftParen
  | ')' => some .rightParen
  | '{' => some .leftBrace
  | '}' => some .rightBrace
  | ',' => some .comma
  | '.' => some .dot
  | '-' => some .minus
  | '+' => some .plus
  | ';' => some .semicolon
  | '*' => some .star
  | _ => none

/-- Characters that are a token on their own and another one with an equals sign
behind them: the kind alone, and the kind of the pair. -/
def comparisonKinds? : Char → Option (Kind × Kind)
  | '!' => some (.bang, .bangEqual)
  | '=' => some (.equal, .equalEqual)
  | '<' => some (.less, .lessEqual)
  | '>' => some (.greater, .greaterEqual)
  | _ => none

/-- White space between tokens. -/
def isBlank (c : Char) : Bool :=
  c == ' ' || c == '\t' || c == '\r' || c == '\n'

/-- The first character of an identifier: an ASCII letter or an underscore. -/
def isWordStart (c : Char) : Bool := c.isAlpha || c == '_'

/-- The further characters of an identifier. -/
def isWordRest (c : Char) : Bool := isWordStart c || c.isDigit

inductive Piece where
  | token (kind : Kind) (text : List Char)
  | blank (c : Char)
  /-- Two slashes and what follows on the line. -/
  | comment (text : List Char)
  /-- A character that begins no token. -/
  | stray (c : Char)
  /-- A quote with no quote after it, and all that follows. -/
  | unclosed (text : List Char)
deriving Repr, DecidableEq

/-- The stretch of text that a piece is. -/
def Piece.text : Piece → List Char
  | .token _ text => text
  | .blank c => [c]
  | .comment text => text
  | .stray c => [c]
  | .unclosed text => text

/-- The number of line ends in a stretch of text. -/
def newlines (text : List Char) : Nat := text.count '\n'

/-- A piece and the text behind it. -/
abbrev Cut := Piece × List Char

/-- A numeral: digits, and a point with digits if a digit follows the point. -/
def cutNumber (first : Char) (rest : List Char) : Cut :=
  let whole := first :: rest.takeWhile Char.isDigit
  match rest.dropWhile Char.isDigit with
  | '.' :: d :: after =>
    if d.isDigit then
      (.token .number (whole ++ '.' :: d :: after.takeWhile Char.isDigit),
        after.dropWhile Char.isDigit)
    else (.token .number whole, '.' :: d :: after)
  | after => (.token .number whole, after)

def cutWord (first : Char) (rest : List Char) : Cut :=
  let word := first :: rest.takeWhile isWordRest
  (.token (wordKind word) word, rest.dropWhile isWordRest)

/-- A string up to the next quote, after the opening one. -/
def cutString (rest : List Char) : Cut :=
  match rest.dropWhile (· ≠ '"') with
  | [] => (.unclosed ('"' :: rest), [])
  | quote :: after => (.token .string ('"' :: rest.takeWhile (· ≠ '"') ++ [quote]), after)

/-- A comment, or the slash alone. -/
def cutSlash (rest : List Char) : Cut :=
  match rest with
  | '/' :: _ => (.comment ('/' :: rest.takeWhile (· ≠ '\n')), rest.dropWhile (· ≠ '\n'))
  | _ => (.token .slash ['/'], rest)

/-- The first piece of a text that begins with the given character. -/
def cut (first : Char) (rest : List Char) : Cut :=
  match singleKind? first, comparisonKinds? first with
  | some kind, _ => (.token kind [first], rest)
  | none, some (alone, withEqual) =>
    match rest with
    | '=' :: after => (.token withEqual [first, '='], after)
    | _ => (.token alone [first], rest)
  | none, none =>
    if first = '/' then cutSlash rest
    else if isBlank first then (.blank first, rest)
    else if first = '"' then cutString rest
    else if first.isDigit then cutNumber first rest
    else if isWordStart first then cutWord first rest
    else (.stray first, rest)

/-- The pieces of a text behind those already cut, newest first. The fuel bounds the
number of pieces. -/
def cutOnto : Nat → List Char → List Piece → List Piece
  | fuel + 1, first :: rest, done =>
    let (piece, after) := cut first rest
    cutOnto fuel after (piece :: done)
  | _, _, done => done

/-- The pieces of a text. No piece is empty, so the length of the text is fuel
enough. -/
def pieces (text : List Char) : List Piece :=
  (cutOnto text.length text []).reverse

/-- What a cut takes and what it leaves are the text. -/
theorem text_cutNumber (first : Char) (rest : List Char) :
    (cutNumber first rest).1.text ++ (cutNumber first rest).2 = first :: rest := by
  have whole := List.takeWhile_append_dropWhile (p := Char.isDigit) (l := rest)
  unfold cutNumber
  split
  · rename_i d after point
    rw [point] at whole
    split <;>
      simp only [Piece.text, List.cons_append, List.append_assoc,
        List.takeWhile_append_dropWhile, whole]
  · simp only [Piece.text, List.cons_append, List.takeWhile_append_dropWhile]

theorem text_cutWord (first : Char) (rest : List Char) :
    (cutWord first rest).1.text ++ (cutWord first rest).2 = first :: rest := by
  simp [cutWord, Piece.text]

theorem text_cutString (rest : List Char) :
    (cutString rest).1.text ++ (cutString rest).2 = '"' :: rest := by
  have whole := List.takeWhile_append_dropWhile (p := (· ≠ '"')) (l := rest)
  unfold cutString
  split
  · simp [Piece.text]
  · rename_i after
    rw [after] at whole
    simpa [Piece.text] using whole

theorem text_cutSlash (rest : List Char) :
    (cutSlash rest).1.text ++ (cutSlash rest).2 = '/' :: rest := by
  unfold cutSlash
  split
  · simp only [Piece.text, List.cons_append, List.takeWhile_append_dropWhile]
  · simp [Piece.text]

theorem text_cut (first : Char) (rest : List Char) :
    (cut first rest).1.text ++ (cut first rest).2 = first :: rest := by
  unfold cut
  split
  · simp [Piece.text]
  · split <;> simp [Piece.text]
  · split
    · rename_i slash; rw [slash]; exact text_cutSlash rest
    · split
      · simp [Piece.text]
      · split
        · rename_i quote; rw [quote]; exact text_cutString rest
        · split
          · exact text_cutNumber first rest
          · split
            · exact text_cutWord first rest
            · simp [Piece.text]

end ClassScript.Source
