import ClassScript.Parsing.Expression

/-!
# Statements and declarations

A declaration that fails is recorded as an error, and parsing goes on at what looks
like the beginning of the next statement. So blocks and programs report every error
that stands behind another one.
-/

namespace ClassScript.Parsing

open Source Syntax

/-- Tokens that begin a statement wherever they stand. -/
def beginsStatement : Kind → Bool
  | .classWord | .fun | .var | .for | .if | .while | .print | .return => true
  | _ => false

/-- The tokens from the next statement on, where the given token was the last one
skipped: behind a semicolon, or where a token begins a statement. -/
def statementBoundary : Token → List Token → List Token
  | _, [] => []
  | last, token :: rest =>
    if last.kind = .semicolon || beginsStatement token.kind then token :: rest
    else statementBoundary token rest

/-- Skip the token at which an error was found, and all up to the next statement. -/
def State.synchronize (s : State) : State :=
  match s.rest with
  | [] => s
  | token :: rest => { s with rest := statementBoundary token rest }

/-- A parser that records its error, goes on at the next statement and gives nothing,
where the given one would stop. -/
def recovering {α : Type} (p : Parser α) : Parser (Option α) := fun s =>
  match p s with
  | .ok a s => .ok (some a) s
  | .error error s => .ok none (s.record error).synchronize

/-- An expression, unless the given token comes next. -/
def expressionUnless (fuel : Nat) (kind : Kind) : Parser (Option Expr) := do
  if ← next kind then return none else return some (← expression fuel)

/-- A variable declaration behind `var`. -/
def variableDeclaration (fuel : Nat) : Parser Stmt := do
  let name ← expectName .variableName
  let initializer ←
    match ← accept? .equal with
    | some _ => do pure (some (← expression fuel))
    | none => pure none
  let _ ← expect .semicolon .variableEnd
  return .var name initializer

def expressionStatement (fuel : Nat) : Parser Stmt := do
  let e ← expression fuel
  let _ ← expect .semicolon .expressionEnd
  return .expression e

/-- A print statement behind `print`. -/
def printStatement (fuel : Nat) : Parser Stmt := do
  let e ← expression fuel
  let _ ← expect .semicolon .printEnd
  return .print e

/-- A return statement behind `return`. -/
def returnStatement (fuel : Nat) (keyword : Token) : Parser Stmt := do
  let value ← expressionUnless fuel .semicolon
  let _ ← expect .semicolon .returnEnd
  return .return keyword.line value

/-- A jump behind its keyword. -/
def jumpStatement (jump : Jump) (keyword : Token) : Parser Stmt := do
  let _ ← expect .semicolon (.jumpEnd jump)
  match jump with
  | .break => return .break keyword.line
  | .continue => return .continue keyword.line

/-- What runs before a counting loop, up to its semicolon. -/
def loopInitializer (fuel : Nat) : Parser (Option Stmt) := do
  match ← accept? .semicolon with
  | some _ => return none
  | none =>
  match ← accept? .var with
  | some _ => return some (← variableDeclaration fuel)
  | none => return some (← expressionStatement fuel)

/-- The clauses of a counting loop between its parentheses. A condition that is left
out is true. -/
def loopClauses (fuel : Nat) : Parser (Option Stmt × Expr × Option Expr) := do
  let _ ← expect .leftParen .forOpen
  let initializer ← loopInitializer fuel
  let condition ← expressionUnless fuel .semicolon
  let _ ← expect .semicolon .loopConditionEnd
  let increment ← expressionUnless fuel .rightParen
  let _ ← expect .rightParen .forClose
  return (initializer, condition.getD (.literal (.bool true)), increment)

/-- A counting loop is a loop with an increment, in a block of its own with its
initializer if it has one. -/
def countingLoop (initializer : Option Stmt) (condition : Expr) (body : Stmt)
    (increment : Option Expr) : Stmt :=
  let loop := .loop condition body increment
  match initializer with
  | some first => .block [first, loop]
  | none => loop

/-- An expression in parentheses in front of a branch or a body. -/
def parenthesizedCondition (fuel : Nat) (opening : SyntaxCause) : Parser Expr := do
  let _ ← expect .leftParen opening
  let condition ← expression fuel
  let _ ← expect .rightParen .conditionClose
  return condition

/-- The parameters behind those already parsed, newest first. -/
def parameters : Nat → List Name → Parser (List Name)
  | 0, _ => fail .nestingTooDeep
  | fuel + 1, done => do
    if done.length ≥ listLimit then report .tooManyParameters
    let name ← expectName .parameterName
    match ← accept? .comma with
    | some _ => parameters fuel (name :: done)
    | none => return (name :: done).reverse

/-- The parameters of a declaration between its parentheses. -/
def parameterList (fuel : Nat) : Parser (List Name) := do
  if ← next .rightParen then return [] else parameters fuel []

/-- A class's superclass, if one is named. -/
def superclass? : Parser (Option Occurrence) := do
  match ← accept? .less with
  | some _ => return some (← occurrence (← expectName .superclassName))
  | none => return none

mutual

def declaration : Nat → Parser Stmt
  | 0 => fail .nestingTooDeep
  | fuel + 1 => do
    match ← accept? .classWord with
    | some _ => classDeclaration fuel
    | none =>
    match ← accept? .fun with
    | some _ => return .function (← function fuel .function)
    | none =>
    match ← accept? .var with
    | some _ => variableDeclaration fuel
    | none => statement fuel

/-- The declarations behind those already parsed, newest first, up to a closing
brace or the end. -/
def declarations : Nat → List Stmt → Parser (List Stmt)
  | 0, _ => fail .nestingTooDeep
  | fuel + 1, done => do
    if (← next .rightBrace) || (← atEnd) then return done.reverse
    match ← recovering (declaration fuel) with
    | some stmt => declarations fuel (stmt :: done)
    | none => declarations fuel done

/-- A block behind its opening brace. -/
def block : Nat → Parser (List Stmt)
  | 0 => fail .nestingTooDeep
  | fuel + 1 => do
    let body ← declarations fuel []
    let _ ← expect .rightBrace .blockClose
    return body

/-- A function or method from its name on. -/
def function : Nat → Declared → Parser FunctionDecl
  | 0, _ => fail .nestingTooDeep
  | fuel + 1, declared => do
    let name ← expectName (.declaredName declared)
    let _ ← expect .leftParen (.parametersOpen declared)
    let parameters ← parameterList fuel
    let _ ← expect .rightParen .parametersClose
    let _ ← expect .leftBrace (.bodyOpen declared)
    return ⟨name, parameters, ← block fuel⟩

/-- The methods behind those already parsed, newest first, up to a closing brace or
the end. -/
def methods : Nat → List FunctionDecl → Parser (List FunctionDecl)
  | 0, _ => fail .nestingTooDeep
  | fuel + 1, done => do
    if (← next .rightBrace) || (← atEnd) then return done.reverse
    methods fuel ((← function fuel .method) :: done)

/-- A class behind `class`. -/
def classDeclaration : Nat → Parser Stmt
  | 0 => fail .nestingTooDeep
  | fuel + 1 => do
    let name ← expectName .className
    let superclass ← superclass?
    let _ ← expect .leftBrace .classOpen
    let body ← methods fuel []
    let _ ← expect .rightBrace .classClose
    return .classDecl name superclass body

def statement : Nat → Parser Stmt
  | 0 => fail .nestingTooDeep
  | fuel + 1 => do
    match ← accept? .for with
    | some _ =>
      let (initializer, condition, increment) ← loopClauses fuel
      return countingLoop initializer condition (← statement fuel) increment
    | none =>
    match ← accept? .if with
    | some _ =>
      let condition ← parenthesizedCondition fuel .ifOpen
      let yes ← statement fuel
      match ← accept? .else with
      | some _ => return .branch condition yes (some (← statement fuel))
      | none => return .branch condition yes none
    | none =>
    match ← accept? .while with
    | some _ =>
      let condition ← parenthesizedCondition fuel .whileOpen
      return .loop condition (← statement fuel) none
    | none =>
    match ← accept? .return with
    | some keyword => returnStatement fuel keyword
    | none =>
    match ← accept? .break with
    | some keyword => jumpStatement .break keyword
    | none =>
    match ← accept? .continue with
    | some keyword => jumpStatement .continue keyword
    | none =>
    match ← accept? .leftBrace with
    | some _ => return .block (← block fuel)
    | none =>
    match ← accept? .print with
    | some _ => printStatement fuel
    | none => expressionStatement fuel

end

end ClassScript.Parsing
