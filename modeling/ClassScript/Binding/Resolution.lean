import ClassScript.Binding.Locals

/-!
# Resolution of names

One walk over a program follows its scopes as they are opened and closed. It finds
names and jumps that are used where they must not be, and notes for every occurrence
of a local name the number of scopes up to its binding. The walk goes on behind an
error, so all of them are found.
-/

namespace ClassScript.Binding

open Syntax

inductive BindingCause where
  | redeclared
  | ownInitializer
  | returnAtTop
  | returnFromInitializer
  | breakOutside
  | continueOutside
  | thisOutside
  | superOutside
  | superWithoutSuperclass
  | inheritsItself
deriving Repr, DecidableEq

def BindingCause.message : BindingCause → String
  | .redeclared => "Already a variable with this name in this scope."
  | .ownInitializer => "Can't read local variable in its own initializer."
  | .returnAtTop => "Can't return from top-level code."
  | .returnFromInitializer => "Can't return a value from an initializer."
  | .breakOutside => "Can't use 'break' outside of a loop."
  | .continueOutside => "Can't use 'continue' outside of a loop."
  | .thisOutside => "Can't use 'this' outside of a class."
  | .superOutside => "Can't use 'super' outside of a class."
  | .superWithoutSuperclass => "Can't use 'super' in a class with no superclass."
  | .inheritsItself => "A class can't inherit from itself."

/-- An error at a word of the program. -/
structure BindingError where
  line : Nat
  lexeme : String
  cause : BindingCause
deriving Repr, DecidableEq

/-- The innermost function around a piece of program. -/
inductive FunctionContext where
  | none | function | method | initializer
deriving Repr, DecidableEq

/-- The innermost class around a piece of program. -/
inductive ClassContext where
  | none | plain | derived
deriving Repr, DecidableEq

/-- What surrounds a piece of program. -/
structure Context where
  function : FunctionContext
  enclosing : ClassContext
  /-- Whether there is a loop around it, inside the innermost function. -/
  inLoop : Bool
deriving Repr, DecidableEq

def Context.top : Context := ⟨.none, .none, false⟩

/-- The context of a function's body. -/
def Context.inFunction (context : Context) (kind : FunctionContext) : Context :=
  { context with function := kind, inLoop := false }

/-- The names of a scope. A name is declared before its initializer and defined
(`true`) after it. -/
abbrev Names := Std.ExtTreeMap String Bool

/-- A walk in progress. -/
structure Walk where
  /-- The local scopes, innermost first. Globals are not followed. -/
  scopes : List Names
  locals : Locals
  errors : List BindingError

namespace Walk

def start : Walk := ⟨[], .empty, []⟩

def error (w : Walk) (line : Nat) (lexeme : String) (cause : BindingCause) : Walk :=
  { w with errors := w.errors ++ [⟨line, lexeme, cause⟩] }

/-- Note an error where something does not hold. -/
def require (w : Walk) (holds : Bool) (line : Nat) (lexeme : String)
    (cause : BindingCause) : Walk :=
  if holds then w else w.error line lexeme cause

def enter (w : Walk) : Walk := { w with scopes := ∅ :: w.scopes }

def leave (w : Walk) : Walk := { w with scopes := w.scopes.tail }

/-- Set the state of a name in the innermost scope. There is none at top level. -/
def mark (w : Walk) (text : String) (isDefined : Bool) : Walk :=
  match w.scopes with
  | [] => w
  | names :: outer => { w with scopes := names.insert text isDefined :: outer }

/-- The state of a name in the innermost scope. -/
def innermost? (w : Walk) (text : String) : Option Bool :=
  w.scopes.head?.bind fun names => names[text]?

/-- A name may be declared once in a scope; globals may be declared again. -/
def declare (w : Walk) (name : Name) : Walk :=
  (w.mark name.text false).require (w.innermost? name.text).isNone name.line name.text
    .redeclared

def define (w : Walk) (text : String) : Walk := w.mark text true

def declareDefined (w : Walk) (name : Name) : Walk := (w.declare name).define name.text

/-- The number of scopes between here and the one that has the name. -/
def depth? (w : Walk) (text : String) : Option Nat :=
  w.scopes.findIdx? fun names => names.contains text

/-- Note an occurrence of a name. -/
def note (w : Walk) (id : NodeId) (text : String) : Walk :=
  match w.depth? text with
  | some depth => { w with locals := w.locals.insert id depth }
  | none => w

/-- An occurrence that reads a variable. -/
def read (w : Walk) (occurrence : Occurrence) : Walk :=
  let name := occurrence.name
  (w.require (w.innermost? name.text != some false) name.line name.text
    .ownInitializer).note occurrence.id name.text

end Walk

/-- The kind of function that a method is. -/
def methodContext (method : FunctionDecl) : FunctionContext :=
  if method.name.text = initializerName then .initializer else .method

mutual

def Walk.expression (context : Context) : Expr → Walk → Walk
  | .literal _, w => w
  | .group inner, w => w.expression context inner
  | .unary _ _ operand, w => w.expression context operand
  | .binary _ _ left right, w => (w.expression context left).expression context right
  | .logical _ left right, w => (w.expression context left).expression context right
  | .variable occurrence, w => w.read occurrence
  | .assign target value, w =>
    (w.expression context value).note target.id target.name.text
  | .call callee _ arguments, w =>
    (w.expression context callee).expressions context arguments
  | .get object _, w => w.expression context object
  | .set object _ value, w => (w.expression context value).expression context object
  | .this id line, w =>
    match context.enclosing with
    | .none => w.error line "this" .thisOutside
    | _ => w.note id "this"
  | .super id line _, w =>
    match context.enclosing with
    | .none => (w.error line "super" .superOutside).note id "super"
    | .plain => (w.error line "super" .superWithoutSuperclass).note id "super"
    | .derived => w.note id "super"

def Walk.expressions (context : Context) : List Expr → Walk → Walk
  | [], w => w
  | e :: rest, w => (w.expression context e).expressions context rest

end

/-- A part that may be missing. -/
def Walk.expression? (context : Context) (e : Option Expr) (w : Walk) : Walk :=
  match e with
  | some e => w.expression context e
  | none => w

/-- A class's superclass. From here to the end of the class there is one scope more,
which binds `super`. -/
def Walk.superclass (name : Name) (superclass : Occurrence) (w : Walk) : Walk :=
  let named := superclass.name
  (((w.require (named.text != name.text) named.line named.text .inheritsItself).read
    superclass).enter).define "super"

mutual

def Walk.statement (context : Context) : Stmt → Walk → Walk
  | .expression e, w => w.expression context e
  | .print e, w => w.expression context e
  | .var name initializer, w =>
    ((w.declare name).expression? context initializer).define name.text
  | .block body, w => (w.enter.statements context body).leave
  | .branch condition yes none, w =>
    (w.expression context condition).statement context yes
  | .branch condition yes (some no), w =>
    ((w.expression context condition).statement context yes).statement context no
  | .loop condition body increment, w =>
    ((w.expression context condition).statement { context with inLoop := true }
      body).expression? context increment
  | .function declaration, w =>
    (w.declareDefined declaration.name).function (context.inFunction .function) declaration
  | .return line none, w =>
    w.require (context.function != .none) line "return" .returnAtTop
  | .return line (some value), w =>
    ((w.require (context.function != .none) line "return" .returnAtTop).require
      (context.function != .initializer) line "return"
      .returnFromInitializer).expression context value
  | .break line, w => w.require context.inLoop line "break" .breakOutside
  | .continue line, w => w.require context.inLoop line "continue" .continueOutside
  | .classDecl name none methods, w =>
    ((w.declareDefined name).enter.define "this").methods
      { context with enclosing := .plain } methods |>.leave
  | .classDecl name (some superclass) methods, w =>
    (((((w.declareDefined name).superclass name superclass).enter.define "this").methods
      { context with enclosing := .derived } methods).leave).leave

def Walk.statements (context : Context) : List Stmt → Walk → Walk
  | [], w => w
  | s :: rest, w => (w.statement context s).statements context rest

/-- A function's parameters and its body are one scope. -/
def Walk.function (context : Context) : FunctionDecl → Walk → Walk
  | ⟨_, parameters, body⟩, w =>
    ((parameters.foldl Walk.declareDefined w.enter).statements context body).leave

def Walk.methods (context : Context) : List FunctionDecl → Walk → Walk
  | [], w => w
  | method :: rest, w =>
    (w.function (context.inFunction (methodContext method)) method).methods context rest

end

/-- The table of a walk, or its errors if it found any. -/
def Walk.conclude (w : Walk) : Except (List BindingError) Locals :=
  match w.errors with
  | [] => .ok w.locals
  | errors => .error errors

/-- The table of a program's local occurrences, or every misuse in it. -/
def ofProgram (program : Program) : Except (List BindingError) Locals :=
  (Walk.start.statements .top program).conclude

/-- The table of an expression at top level. -/
def ofExpression (e : Expr) : Except (List BindingError) Locals :=
  (Walk.start.expression .top e).conclude

end ClassScript.Binding
