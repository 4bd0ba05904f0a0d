import ClassScript.Machine.Access
import ClassScript.Machine.Operators

/-!
# Running programs

Expressions and statements are run from left to right. Every function takes fuel
that bounds how deep it may call and how often a loop goes round; running out of it
is an outcome of its own, and no fault.
-/

namespace ClassScript.Machine

open Syntax Object Binding

/-- Check that a value can be called with a number of arguments. -/
def checkCall (callee : Value) (arguments : List Value) (line : Nat) : Run Unit :=
  match callee.arity? with
  | none => stop (.notCallable line)
  | some expected =>
    if arguments.length = expected then pure ()
    else stop (.arityMismatch expected arguments.length line)

/-- What a call gives whose body has ended. An initializer gives its object, however
it ended. -/
def callResult (closure : Closure) (completion : Completion) : Run Value :=
  if closure.isInitializer then boundObject closure
  else
    match completion with
    | .returned value => pure value
    | .normal => pure .nil
    | .broke | .continued => stop (.internal (.strayJump closure.name))

mutual

def evaluate : Nat → Expr → Run Value
  | 0, _ => throw .outOfFuel
  | fuel + 1, e =>
    match e with
    | .literal value => pure (.ofLiteral value)
    | .group inner => evaluate fuel inner
    | .unary op line operand => do
      liftExcept (applyUnary op line (← evaluate fuel operand))
    | .binary op line left right => do
      let a ← evaluate fuel left
      let b ← evaluate fuel right
      liftExcept (applyBinary op line a b)
    | .logical op left right => do
      let a ← evaluate fuel left
      if decides op a then pure a else evaluate fuel right
    | .variable occurrence => readVariable occurrence.id occurrence.name
    | .assign target value => do
      let v ← evaluate fuel value
      writeVariable target v
      pure v
    | .call callee line arguments => do
      let f ← evaluate fuel callee
      let vs ← evaluateAll fuel arguments
      checkCall f vs line
      call fuel f vs line
    | .get object name => do readProperty (← evaluate fuel object) name
    | .set object name value => do
      match ← evaluate fuel object with
      | .object o =>
        let v ← evaluate fuel value
        writeField o name.text v
        pure v
      | _ => stop (.noFields name.line)
    | .this id line => readVariable id ⟨"this", line⟩
    | .super id _ method => readSuper id method

def evaluateAll : Nat → List Expr → Run (List Value)
  | 0, _ => throw .outOfFuel
  | _, [] => pure []
  | fuel + 1, e :: rest => do
    let v ← evaluate fuel e
    return v :: (← evaluateAll fuel rest)

/-- Call a value. The number of arguments is not checked here: parameters without
argument stay unbound, and arguments without parameter are dropped. -/
def call : Nat → Value → List Value → Nat → Run Value
  | 0, _, _, _ => throw .outOfFuel
  | fuel + 1, callee, arguments, line =>
    match callee with
    | .host f => callHost f arguments line
    | .function _ closure => invoke fuel closure arguments
    | .cls c => do
      let o ← newObject c
      match c.method? initializerName with
      | some initializer =>
        let _ ← invoke fuel (← bindMethod initializer o) arguments
        pure (.object o)
      | none => pure (.object o)
    | _ => stop (.notCallable line)

/-- Run the body of a function. -/
def invoke : Nat → Closure → List Value → Run Value
  | 0, _, _ => throw .outOfFuel
  | fuel + 1, closure, arguments => do
    let scope ← callScope closure arguments
    callResult closure (← within scope (executeAll fuel closure.declaration.body))

def execute : Nat → Stmt → Run Completion
  | 0, _ => throw .outOfFuel
  | fuel + 1, s =>
    match s with
    | .expression e => do
      let _ ← evaluate fuel e
      pure .normal
    | .print e => do
      print (← evaluate fuel e)
      pure .normal
    | .var name initializer => do
      define name.text (← evaluate? fuel initializer)
      pure .normal
    | .block body => do
      within (← innerScope) (executeAll fuel body)
    | .branch condition yes no => do
      if (← evaluate fuel condition).isTruthy then execute fuel yes
      else
        match no with
        | some no => execute fuel no
        | none => pure .normal
    | .loop condition body increment => executeLoop fuel condition body increment
    | .function declaration => do
      define declaration.name.text (← newFunction declaration)
      pure .normal
    | .return _ value => do
      return .returned (← evaluate? fuel value)
    | .break _ => pure .broke
    | .continue _ => pure .continued
    | .classDecl name none methods => do
      declareClass name none methods
      pure .normal
    | .classDecl name (some superclass) methods => do
      let c ← asSuperclass (← evaluate fuel (.variable superclass)) superclass.name.line
      declareClass name (some c) methods
      pure .normal

/-- The value of an expression that may be left out and is then `nil`. -/
def evaluate? : Nat → Option Expr → Run Value
  | 0, _ => throw .outOfFuel
  | _, none => pure .nil
  | fuel + 1, some e => evaluate fuel e

/-- Run statements in order, up to the first that does not end normally. -/
def executeAll : Nat → List Stmt → Run Completion
  | 0, _ => throw .outOfFuel
  | _, [] => pure .normal
  | fuel + 1, s :: rest => do
    match ← execute fuel s with
    | .normal => executeAll fuel rest
    | jump => pure jump

/-- Run a loop while its condition holds. The increment runs after every round that
does not leave the loop. -/
def executeLoop : Nat → Expr → Stmt → Option Expr → Run Completion
  | 0, _, _, _ => throw .outOfFuel
  | fuel + 1, condition, body, increment => do
    if (← evaluate fuel condition).isTruthy then
      match ← execute fuel body with
      | .normal | .continued =>
        let _ ← evaluate? fuel increment
        executeLoop fuel condition body increment
      | .broke => pure .normal
      | .returned value => pure (.returned value)
    else pure .normal

end

/-- Run the statements of a program. Each must end normally. -/
def runStatements (fuel : Nat) : List Stmt → Run Unit
  | [] => pure ()
  | s :: rest => do
    match ← execute fuel s with
    | .normal => runStatements fuel rest
    | stray => stop (.internal (.strayCompletion stray))

/-- Take in the table of a program or an expression. -/
def mergeLocals (locals : Locals) : Run Unit := fun m =>
  .ok () { m with locals := m.locals.merge locals }

/-- Run a program. Its table stays, since its functions may be called later. -/
def runProgram (fuel : Nat) (program : Program) (locals : Locals) : Run Unit := do
  mergeLocals locals
  runStatements fuel program

/-- Run with another table taken in, and drop its entries again however the run
ends. -/
def withLocals {α : Type} (locals : Locals) (run : Run α) : Run α := fun m =>
  match run { m with locals := m.locals.merge locals } with
  | .ok a m => .ok a { m with locals := m.locals.forget locals }
  | .error stop m => .error stop { m with locals := m.locals.forget locals }

/-- The text of the value of an expression. Nothing in a single expression is run
again later, so its table is dropped. -/
def evaluateText (fuel : Nat) (e : Expr) (locals : Locals) : Run String := do
  return (← withLocals locals (evaluate fuel e)).display

end ClassScript.Machine
