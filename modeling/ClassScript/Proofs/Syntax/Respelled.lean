import ClassScript.Binding.Locals
import ClassScript.Proofs.Syntax.Plain

/-!
# Local names that are spelled otherwise

Some scopes of a program may spell the names that they declare in another way. What has to
be written otherwise then are the declarations of their variables and parameters, and the
occurrences that the table leads to these scopes; fields, methods, globals and the names of
functions and classes stay (`Stmt.respell`). Which scopes are meant is said by their places
in the tree (`Stmt.openedAt`).
-/

namespace ClassScript.Syntax

open Binding

/-- Which of the scopes around a piece of program are respelled, innermost first. -/
abbrev Flags := List Bool

/-- Which of the scopes that a piece of program opens are respelled. The place of a scope
is the way to it, by the number of the part that is gone to at each step. -/
abbrev Scheme := List Nat → Bool

/-- What a scheme says of a part. -/
def Scheme.part (scheme : Scheme) (number : Nat) : Scheme := fun place => scheme (number :: place)

/-- Whether the scope a number of scopes up is respelled. The globals never are. -/
def Flags.has (flags : Flags) : Option Nat → Bool
  | some depth => flags.getD depth false
  | none => false

section Definitions

variable (σ : String → String)

/-- How a scope spells a name. -/
def spelled (isRespelled : Bool) (text : String) : String :=
  if isRespelled then σ text else text

def Name.respell (isRespelled : Bool) (name : Name) : Name :=
  { name with text := spelled σ isRespelled name.text }

variable (table : Locals)

/-- An occurrence is spelled as the scope does that the table leads to. -/
def Occurrence.respell (flags : Flags) (o : Occurrence) : Occurrence :=
  { o with name := o.name.respell σ (flags.has (table.depth? o.id)) }

mutual

def Expr.respell (flags : Flags) : Expr → Expr
  | .literal value => .literal value
  | .group inner => .group (inner.respell flags)
  | .unary op line operand => .unary op line (operand.respell flags)
  | .binary op line left right => .binary op line (left.respell flags) (right.respell flags)
  | .logical op left right => .logical op (left.respell flags) (right.respell flags)
  | .variable occurrence => .variable (occurrence.respell σ table flags)
  | .assign target value => .assign (target.respell σ table flags) (value.respell flags)
  | .call callee line arguments =>
    .call (callee.respell flags) line (Expr.respellAll flags arguments)
  | .get object name => .get (object.respell flags) name
  | .set object name value => .set (object.respell flags) name (value.respell flags)
  | .this id line => .this id line
  | .super id line method => .super id line method

def Expr.respellAll (flags : Flags) : List Expr → List Expr
  | [] => []
  | e :: rest => e.respell flags :: Expr.respellAll flags rest

end

mutual

/-- A statement whose scopes are respelled as the scheme says, among scopes that are
respelled as the flags say. -/
def Stmt.respell (flags : Flags) (scheme : Scheme) : Stmt → Stmt
  | .expression e => .expression (e.respell σ table flags)
  | .print e => .print (e.respell σ table flags)
  | .var name initializer =>
    .var (name.respell σ (flags.headD false)) (initializer.map (Expr.respell σ table flags))
  | .block body => .block (Stmt.respellAll (scheme [] :: flags) (scheme.part 0) body)
  | .branch condition yes none =>
    .branch (condition.respell σ table flags) (yes.respell flags (scheme.part 0)) none
  | .branch condition yes (some no) =>
    .branch (condition.respell σ table flags) (yes.respell flags (scheme.part 0))
      (some (no.respell flags (scheme.part 1)))
  | .loop condition body increment =>
    .loop (condition.respell σ table flags) (body.respell flags (scheme.part 0))
      (increment.map (Expr.respell σ table flags))
  | .function declaration => .function (declaration.respell flags scheme)
  | .return line value => .return line (value.map (Expr.respell σ table flags))
  | .break line => .break line
  | .continue line => .continue line
  | .classDecl name none methods =>
    .classDecl name none (FunctionDecl.respellAll (false :: flags) scheme methods)
  | .classDecl name (some superclass) methods =>
    .classDecl name (some (superclass.respell σ table flags))
      (FunctionDecl.respellAll (false :: false :: flags) scheme methods)

def Stmt.respellAll (flags : Flags) (scheme : Scheme) : List Stmt → List Stmt
  | [] => []
  | s :: rest => s.respell flags (scheme.part 0) :: Stmt.respellAll flags (scheme.part 1) rest

/-- Parameters are spelled as the scope does that they share with the body. -/
def FunctionDecl.respell (flags : Flags) (scheme : Scheme) : FunctionDecl → FunctionDecl
  | ⟨name, parameters, body⟩ =>
    ⟨name, parameters.map (Name.respell σ (scheme [])),
      Stmt.respellAll (scheme [] :: flags) (scheme.part 0) body⟩

def FunctionDecl.respellAll (flags : Flags) (scheme : Scheme) :
    List FunctionDecl → List FunctionDecl
  | [] => []
  | d :: rest =>
    d.respell flags (scheme.part 0) :: FunctionDecl.respellAll flags (scheme.part 1) rest

end

end Definitions

/-! ## The scopes of a program -/

/-- A scope that a program opens: its parameters, if it is that of a function, and the
statements in it. -/
structure Opened where
  parameters : List Name
  body : List Stmt

/-- The name that a statement declares as a variable. -/
def Stmt.variable? : Stmt → Option String
  | .var name _ => some name.text
  | _ => none

/-- The names that are declared in the scope as parameters or variables. -/
def Opened.variables (opened : Opened) : List String :=
  opened.parameters.map Name.text ++ opened.body.filterMap Stmt.variable?

mutual

/-- The scope that a statement opens at a place. -/
def Stmt.openedAt : Stmt → List Nat → Option Opened
  | .block body, [] => some ⟨[], body⟩
  | .block body, 0 :: place => Stmt.openedAmong body place
  | .branch _ yes none, 0 :: place => yes.openedAt place
  | .branch _ yes (some _), 0 :: place => yes.openedAt place
  | .branch _ _ (some no), 1 :: place => no.openedAt place
  | .loop _ body _, 0 :: place => body.openedAt place
  | .function declaration, place => declaration.openedAt place
  | .classDecl _ _ methods, place => FunctionDecl.openedAmong methods place
  | _, _ => none

def Stmt.openedAmong : List Stmt → List Nat → Option Opened
  | s :: _, 0 :: place => s.openedAt place
  | _ :: rest, 1 :: place => Stmt.openedAmong rest place
  | _, _ => none

def FunctionDecl.openedAt : FunctionDecl → List Nat → Option Opened
  | ⟨_, parameters, body⟩, [] => some ⟨parameters, body⟩
  | ⟨_, _, body⟩, 0 :: place => Stmt.openedAmong body place
  | _, _ => none

def FunctionDecl.openedAmong : List FunctionDecl → List Nat → Option Opened
  | d :: _, 0 :: place => d.openedAt place
  | _ :: rest, 1 :: place => FunctionDecl.openedAmong rest place
  | _, _ => none

end

mutual

/-- The functions and classes that a statement declares in the scope that it stands in.
They show their names to a program, so these are never respelled. -/
def Stmt.titles : Stmt → List String
  | .function declaration => [declaration.name.text]
  | .classDecl name _ _ => [name.text]
  | .branch _ yes none => yes.titles
  | .branch _ yes (some no) => yes.titles ++ no.titles
  | .loop _ body _ => body.titles
  | _ => []

end

def Stmt.titlesOfAll (ss : List Stmt) : List String := ss.flatMap Stmt.titles

/-- A scope that is respelled, or not, spells some titles as they are. -/
def Keeps (σ : String → String) (isRespelled : Bool) (titles : List String) : Prop :=
  ∀ title ∈ titles, spelled σ isRespelled title = title

/-- The scopes that a piece of program opens spell their titles as they are. -/
def Spares (σ : String → String) (scheme : Scheme) (openedAt : List Nat → Option Opened) : Prop :=
  ∀ place opened, openedAt place = some opened →
    Keeps σ (scheme place) (Stmt.titlesOfAll opened.body)

/-! ## The names in a program -/

mutual

/-- The names of the variables in an expression. -/
def Expr.names : Expr → List String
  | .literal _ | .this _ _ | .super _ _ _ => []
  | .group inner => inner.names
  | .unary _ _ operand => operand.names
  | .binary _ _ left right => left.names ++ right.names
  | .logical _ left right => left.names ++ right.names
  | .variable occurrence => [occurrence.name.text]
  | .assign target value => target.name.text :: value.names
  | .call callee _ arguments => callee.names ++ Expr.namesOfAll arguments
  | .get object _ => object.names
  | .set object _ value => object.names ++ value.names

def Expr.namesOfAll : List Expr → List String
  | [] => []
  | e :: rest => e.names ++ Expr.namesOfAll rest

end

def Expr.namesOf? (e : Option Expr) : List String := (e.map Expr.names).getD []

mutual

/-- The names that a statement declares or refers to. -/
def Stmt.names : Stmt → List String
  | .expression e => e.names
  | .print e => e.names
  | .var name initializer => name.text :: Expr.namesOf? initializer
  | .block body => Stmt.namesOfAll body
  | .branch condition yes none => condition.names ++ yes.names
  | .branch condition yes (some no) => condition.names ++ (yes.names ++ no.names)
  | .loop condition body increment => condition.names ++ (body.names ++ Expr.namesOf? increment)
  | .function declaration => declaration.names
  | .return _ value => Expr.namesOf? value
  | .break _ | .continue _ => []
  | .classDecl name none methods => name.text :: FunctionDecl.namesOfAll methods
  | .classDecl name (some superclass) methods =>
    name.text :: superclass.name.text :: FunctionDecl.namesOfAll methods

def Stmt.namesOfAll : List Stmt → List String
  | [] => []
  | s :: rest => s.names ++ Stmt.namesOfAll rest

def FunctionDecl.names : FunctionDecl → List String
  | ⟨name, parameters, body⟩ => name.text :: (parameters.map Name.text ++ Stmt.namesOfAll body)

def FunctionDecl.namesOfAll : List FunctionDecl → List String
  | [] => []
  | d :: rest => d.names ++ FunctionDecl.namesOfAll rest

end

/-- The names in a scope, with those of its parameters. -/
def Opened.names (opened : Opened) : List String :=
  opened.parameters.map Name.text ++ Stmt.namesOfAll opened.body

end ClassScript.Syntax
