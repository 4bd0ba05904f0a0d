/-!
# Syntax trees

Expressions, statements and function declarations. A node that refers to a binding
(a variable, an assignment, `this`, `super`) carries an identity, the key under
which later passes note facts about that one occurrence. Lines are those of the
tokens that errors cite.
-/

namespace ClassScript.Syntax

/-- The identity of an occurrence. -/
abbrev NodeId := Nat

/-- An identifier in the text, and its line. -/
structure Name where
  text : String
  line : Nat
deriving Repr, DecidableEq

/-- A use of a name that refers to a binding. -/
structure Occurrence where
  id : NodeId
  name : Name
deriving Repr, DecidableEq

inductive Literal where
  | number (n : Float)
  | string (s : String)
  | bool (b : Bool)
  | nil
deriving Repr

inductive UnaryOp where
  | negate | not
deriving Repr, DecidableEq

inductive BinaryOp where
  | add | subtract | multiply | divide
  | greater | greaterEqual | less | lessEqual
  | equal | notEqual
deriving Repr, DecidableEq

inductive LogicalOp where
  | and | or
deriving Repr, DecidableEq

inductive Expr where
  | literal (value : Literal)
  /-- An expression in parentheses. -/
  | group (inner : Expr)
  | unary (op : UnaryOp) (line : Nat) (operand : Expr)
  | binary (op : BinaryOp) (line : Nat) (left right : Expr)
  /-- An operator that may leave its right operand unevaluated. -/
  | logical (op : LogicalOp) (left right : Expr)
  | variable (occurrence : Occurrence)
  | assign (target : Occurrence) (value : Expr)
  /-- The line is that of the closing parenthesis. -/
  | call (callee : Expr) (line : Nat) (arguments : List Expr)
  | get (object : Expr) (name : Name)
  | set (object : Expr) (name : Name) (value : Expr)
  | this (id : NodeId) (line : Nat)
  /-- The line is that of `super`, which may differ from the method's. -/
  | super (id : NodeId) (line : Nat) (method : Name)
deriving Repr

mutual

inductive Stmt where
  | expression (e : Expr)
  | print (e : Expr)
  | var (name : Name) (initializer : Option Expr)
  | block (body : List Stmt)
  | branch (condition : Expr) (yes : Stmt) (no : Option Stmt)
  /-- A loop. The increment runs after every round, also after one that `continue`
  cuts short. -/
  | loop (condition : Expr) (body : Stmt) (increment : Option Expr)
  | function (declaration : FunctionDecl)
  | return (line : Nat) (value : Option Expr)
  | break (line : Nat)
  | continue (line : Nat)
  | classDecl (name : Name) (superclass : Option Occurrence) (methods : List FunctionDecl)

/-- The declaration of a function or a method. -/
structure FunctionDecl where
  name : Name
  parameters : List Name
  body : List Stmt

end

instance : Inhabited Expr := ⟨.literal .nil⟩

instance : Inhabited Stmt := ⟨.block []⟩

/-- A program is a list of statements. -/
abbrev Program := List Stmt

/-- The line that an error about the value of an expression cites. Literals have
none and cite line 0. -/
def Expr.line : Expr → Nat
  | .literal _ => 0
  | .group inner => inner.line
  | .unary _ line _ | .binary _ line _ _ => line
  | .logical _ left _ => left.line
  | .variable occurrence => occurrence.name.line
  | .assign target _ => target.name.line
  | .call _ line _ => line
  | .get _ name | .set _ name _ => name.line
  | .this _ line | .super _ line _ => line

/-- The name of the method that runs when an object of its class is made. -/
def initializerName : String := "init"

end ClassScript.Syntax
