import ClassScript.Source.Token
import ClassScript.Syntax.Tree

/-!
# The state of a parser and its errors

A parser consumes tokens from the front, draws identities for occurrences, and
collects errors. An error may stop the construct at hand, or only be recorded while
parsing goes on.
-/

namespace ClassScript.Parsing

open Source Syntax

/-- What a declaration with parameters and a body declares. -/
inductive Declared where
  | function | method
deriving Repr, DecidableEq

def Declared.word : Declared → String
  | .function => "function"
  | .method => "method"

/-- A jump out of or to the head of a loop. -/
inductive Jump where
  | break | continue
deriving Repr, DecidableEq

def Jump.word : Jump → String
  | .break => "break"
  | .continue => "continue"

/-- What a parser found missing or out of place. -/
inductive SyntaxCause where
  | className | superclassName | classOpen | classClose
  | declaredName (declared : Declared)
  | parametersOpen (declared : Declared)
  | parameterName | parametersClose
  | bodyOpen (declared : Declared)
  | variableName | variableEnd
  | jumpEnd (jump : Jump)
  | forOpen | loopConditionEnd | forClose
  | ifOpen | whileOpen | conditionClose
  | printEnd | expressionEnd | returnEnd | blockClose
  | propertyName | argumentsClose | superDot | superMethod | groupClose
  | expression | endOfExpression
  /-- Something other than a variable or a property left of `=`. -/
  | assignmentTarget
  | tooManyParameters | tooManyArguments
  /-- The fuel of the parser ran out. -/
  | nestingTooDeep
deriving Repr, DecidableEq

def SyntaxCause.message : SyntaxCause → String
  | .className => "Expected class name"
  | .superclassName => "Expected superclass name"
  | .classOpen => "Expected '\x7b' before class body"
  | .classClose => "Expected '\x7d' after class body"
  | .declaredName declared => "Expected " ++ declared.word ++ " name"
  | .parametersOpen declared => "Expected '(' after " ++ declared.word ++ " name"
  | .parameterName => "Expected parameter name"
  | .parametersClose => "Expected ')' after parameters"
  | .bodyOpen declared => "Expected '\x7b' before " ++ declared.word ++ " body"
  | .variableName => "Expected variable name"
  | .variableEnd => "Expected ';' after variable declaration"
  | .jumpEnd jump => "Expected ';' after '" ++ jump.word ++ "'"
  | .forOpen => "Expected '(' after 'for'"
  | .loopConditionEnd => "Expected ';' after loop condition"
  | .forClose => "Expected ')' after for clauses"
  | .ifOpen => "Expected '(' after 'if'"
  | .whileOpen => "Expected '(' after 'while'"
  | .conditionClose => "Expected ')' after condition"
  | .printEnd => "Expected ';' after value"
  | .expressionEnd => "Expected ';' after expression"
  | .returnEnd => "Expected ';' after return value"
  | .blockClose => "Expected '\x7d' after block"
  | .propertyName => "Expected property name after '.'"
  | .argumentsClose => "Expected ')' after arguments"
  | .superDot => "Expected '.' after 'super'"
  | .superMethod => "Expected superclass method name"
  | .groupClose => "Expected ')' after expression"
  | .expression => "Expected expression"
  | .endOfExpression => "Expected end of expression"
  | .assignmentTarget => "Invalid assignment target"
  | .tooManyParameters => "Can't have more than 255 parameters"
  | .tooManyArguments => "Can't have more than 255 arguments"
  | .nestingTooDeep => "Nesting too deep"

/-- The causes that are recorded without stopping the construct at hand. -/
def SyntaxCause.isSoft : SyntaxCause → Bool
  | .assignmentTarget | .tooManyParameters | .tooManyArguments => true
  | _ => false

/-- An error at a token, or at the end of the text if there is no token. -/
structure SyntaxError where
  line : Nat
  lexeme : Option String
  cause : SyntaxCause
deriving Repr, DecidableEq

/-- Where an error or a token is, as reports say it: at a token, or at the end. -/
def location : Option String → String
  | some lexeme => " at '" ++ lexeme ++ "'"
  | none => " at end"

structure State where
  /-- The tokens not consumed yet. -/
  rest : List Token
  /-- The line on which the text ends. -/
  endLine : Nat
  /-- The errors recorded so far, in order. -/
  errors : List SyntaxError
  /-- The identity of the next occurrence. -/
  nextId : NodeId
deriving Repr

/-- An error at the token that comes next. -/
def State.errorHere (s : State) (cause : SyntaxCause) : SyntaxError :=
  match s.rest with
  | token :: _ => ⟨token.line, some token.lexeme, cause⟩
  | [] => ⟨s.endLine, none, cause⟩

def State.record (s : State) (error : SyntaxError) : State :=
  { s with errors := s.errors ++ [error] }

/-- A parser stops at an error and keeps what it had consumed and recorded. -/
abbrev Parser (α : Type) := EStateM SyntaxError State α

/-- Stop with an error at the token that comes next. -/
def fail {α : Type} (cause : SyntaxCause) : Parser α := fun s =>
  .error (s.errorHere cause) s

/-- Record an error at the token that comes next, and go on. -/
def report (cause : SyntaxCause) : Parser Unit := fun s =>
  .ok () (s.record (s.errorHere cause))

/-- Record an error at a token that was consumed before, and go on. -/
def reportAt (token : Token) (cause : SyntaxCause) : Parser Unit := fun s =>
  .ok () (s.record ⟨token.line, some token.lexeme, cause⟩)

/-- Whether the next token is of the given kind. It is not at the end. -/
def next (kind : Kind) : Parser Bool := fun s =>
  match s.rest with
  | token :: _ => .ok (token.kind == kind) s
  | [] => .ok false s

def atEnd : Parser Bool := fun s => .ok s.rest.isEmpty s

/-- Consume the next token if it is of the given kind. -/
def accept? (kind : Kind) : Parser (Option Token) := fun s =>
  match s.rest with
  | token :: rest =>
    if token.kind = kind then .ok (some token) { s with rest } else .ok none s
  | [] => .ok none s

/-- Consume a token of the given kind, or stop. -/
def expect (kind : Kind) (cause : SyntaxCause) : Parser Token := fun s =>
  match s.rest with
  | token :: rest =>
    if token.kind = kind then .ok token { s with rest } else .error (s.errorHere cause) s
  | [] => .error (s.errorHere cause) s

def nameOf (token : Token) : Name := ⟨token.lexeme, token.line⟩

/-- Consume an identifier, or stop. -/
def expectName (cause : SyntaxCause) : Parser Name := do
  return nameOf (← expect .identifier cause)

/-- Draw the identity of a new occurrence. -/
def freshId : Parser NodeId := fun s =>
  .ok s.nextId { s with nextId := s.nextId + 1 }

/-- A new occurrence of a name. -/
def occurrence (name : Name) : Parser Occurrence := do
  return ⟨← freshId, name⟩

/-- The most parameters or arguments that a list may have. -/
def listLimit : Nat := 255

end ClassScript.Parsing
