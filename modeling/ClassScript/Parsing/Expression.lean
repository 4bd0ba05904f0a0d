import ClassScript.Parsing.Basic

/-!
# Expressions

An assignment binds loosest and to the right. The infix operators follow in six
levels, each associating to the left, then the prefix operators, then calls and
property accesses. Every function takes fuel that bounds how deep it may call;
`allowance` is enough for a given number of tokens.
-/

namespace ClassScript.Parsing

open Source Syntax

/-- The levels of infix operators, loosest first. -/
inductive Level where
  | or | and | equality | comparison | term | factor
deriving Repr, DecidableEq

/-- The level of the operands of a level, if it is a level of infix operators. -/
def Level.tighter? : Level → Option Level
  | .or => some .and
  | .and => some .equality
  | .equality => some .comparison
  | .comparison => some .term
  | .term => some .factor
  | .factor => none

/-- What an infix operator builds. -/
inductive InfixOp where
  | logical (op : LogicalOp)
  | binary (op : BinaryOp)
deriving Repr, DecidableEq

/-- The infix operators: the level and the operation of each kind of token. -/
def infixOp? : Kind → Option (Level × InfixOp)
  | .or => some (.or, .logical .or)
  | .and => some (.and, .logical .and)
  | .bangEqual => some (.equality, .binary .notEqual)
  | .equalEqual => some (.equality, .binary .equal)
  | .greater => some (.comparison, .binary .greater)
  | .greaterEqual => some (.comparison, .binary .greaterEqual)
  | .less => some (.comparison, .binary .less)
  | .lessEqual => some (.comparison, .binary .lessEqual)
  | .minus => some (.term, .binary .subtract)
  | .plus => some (.term, .binary .add)
  | .slash => some (.factor, .binary .divide)
  | .star => some (.factor, .binary .multiply)
  | _ => none

/-- The expression that an operator on the given line joins two operands to. -/
def InfixOp.join (op : InfixOp) (line : Nat) (left right : Expr) : Expr :=
  match op with
  | .logical op => .logical op left right
  | .binary op => .binary op line left right

def prefixOp? : Kind → Option UnaryOp
  | .bang => some .not
  | .minus => some .negate
  | _ => none

/-- Consume an infix operator of the given level, if one comes next. -/
def acceptInfix? (level : Level) : Parser (Option (InfixOp × Token)) := fun s =>
  match s.rest with
  | token :: rest =>
    match infixOp? token.kind with
    | some (own, op) =>
      if own = level then .ok (some (op, token)) { s with rest } else .ok none s
    | none => .ok none s
  | [] => .ok none s

/-- Consume a prefix operator, if one comes next. -/
def acceptPrefix? : Parser (Option (UnaryOp × Token)) := fun s =>
  match s.rest with
  | token :: rest =>
    match prefixOp? token.kind with
    | some op => .ok (some (op, token)) { s with rest }
    | none => .ok none s
  | [] => .ok none s

/-- A constant that is one token. -/
def literal? (token : Token) : Option Literal :=
  match token.kind with
  | .false => some (.bool false)
  | .true => some (.bool true)
  | .nil => some .nil
  | .number => some (.number token.value)
  | .string => some (.string token.contents)
  | _ => none

/-- Consume a constant, if one comes next. -/
def acceptLiteral? : Parser (Option Literal) := fun s =>
  match s.rest with
  | token :: rest =>
    match literal? token with
    | some value => .ok (some value) { s with rest }
    | none => .ok none s
  | [] => .ok none s

/-- What follows `super`: the name of a method. -/
def superAccess (keyword : Token) : Parser Expr := do
  let _ ← expect .dot .superDot
  let method ← expectName .superMethod
  return .super (← freshId) keyword.line method

/-- Make an assignment to what stands left of `=`. If nothing can be assigned to it,
that is recorded and it is kept in place of the assignment. -/
def assignTo (target : Expr) (equals : Token) (value : Expr) : Parser Expr :=
  match target with
  | .variable old => do return .assign (← occurrence old.name) value
  | .get object name => return .set object name value
  | other => do
    reportAt equals .assignmentTarget
    return other

mutual

def assignment : Nat → Parser Expr
  | 0 => fail .nestingTooDeep
  | fuel + 1 => do
    let target ← infixChain fuel .or
    match ← accept? .equal with
    | none => return target
    | some equals => assignTo target equals (← assignment fuel)

/-- Operands of a level joined by its operators. -/
def infixChain : Nat → Level → Parser Expr
  | 0, _ => fail .nestingTooDeep
  | fuel + 1, level => do
    infixRest fuel level (← operand fuel level)

/-- The operators and operands behind what has been joined so far. -/
def infixRest : Nat → Level → Expr → Parser Expr
  | 0, _, _ => fail .nestingTooDeep
  | fuel + 1, level, left => do
    match ← acceptInfix? level with
    | none => return left
    | some (op, token) =>
      let right ← operand fuel level
      infixRest fuel level (op.join token.line left right)

/-- An operand of a level: a chain of the next tighter level. -/
def operand : Nat → Level → Parser Expr
  | 0, _ => fail .nestingTooDeep
  | fuel + 1, level =>
    match level.tighter? with
    | some tighter => infixChain fuel tighter
    | none => unary fuel

def unary : Nat → Parser Expr
  | 0 => fail .nestingTooDeep
  | fuel + 1 => do
    match ← acceptPrefix? with
    | some (op, token) => return .unary op token.line (← unary fuel)
    | none => accessRest fuel (← primary fuel)

/-- The calls and property accesses behind an expression. -/
def accessRest : Nat → Expr → Parser Expr
  | 0, _ => fail .nestingTooDeep
  | fuel + 1, subject => do
    match ← accept? .leftParen with
    | some _ =>
      let arguments ← argumentList fuel
      let close ← expect .rightParen .argumentsClose
      accessRest fuel (.call subject close.line arguments)
    | none =>
      match ← accept? .dot with
      | some _ => accessRest fuel (.get subject (← expectName .propertyName))
      | none => return subject

/-- The arguments of a call up to the closing parenthesis. -/
def argumentList : Nat → Parser (List Expr)
  | 0 => fail .nestingTooDeep
  | fuel + 1 => do
    if ← next .rightParen then return [] else arguments fuel []

/-- The arguments of a call behind those already parsed, newest first. -/
def arguments : Nat → List Expr → Parser (List Expr)
  | 0, _ => fail .nestingTooDeep
  | fuel + 1, done => do
    if done.length ≥ listLimit then report .tooManyArguments
    let argument ← assignment fuel
    match ← accept? .comma with
    | some _ => arguments fuel (argument :: done)
    | none => return (argument :: done).reverse

def primary : Nat → Parser Expr
  | 0 => fail .nestingTooDeep
  | fuel + 1 => do
    match ← acceptLiteral? with
    | some value => return .literal value
    | none =>
    match ← accept? .this with
    | some token => return .this (← freshId) token.line
    | none =>
    match ← accept? .super with
    | some token => superAccess token
    | none =>
    match ← accept? .identifier with
    | some token => return .variable (← occurrence (nameOf token))
    | none =>
    match ← accept? .leftParen with
    | some _ =>
      let inner ← assignment fuel
      let _ ← expect .rightParen .groupClose
      return .group inner
    | none => fail .expression

end

/-- Fuel for a number of tokens: no construct calls deeper than this before it has
consumed a token. -/
def allowance (tokens : Nat) : Nat := 32 * (tokens + 1)

/-- An expression. -/
def expression (fuel : Nat) : Parser Expr := assignment fuel

end ClassScript.Parsing
