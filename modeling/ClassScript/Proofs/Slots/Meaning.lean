import ClassScript.Proofs.Slots.Semantics

/-!
# Meanings

What expressions and statements do, construct by construct. A limit bounds how often a
function calls further, and how many rounds a loop makes; everything else is recursion on
the syntax. So programs can be compared as computations, and a property of computations
that every step has and that rows of steps keep is one of all expressions
(`Stepwise.valueOf`).
-/

namespace ClassScript.Slots

open Syntax Object Machine

section Definitions

/-- Rounds of a loop, which are not more than the limit. -/
def rounds (test : Run Value) (body : Run Completion) (step : Run Value) : Nat → Run Completion
  | 0 => throw .outOfFuel
  | limit + 1 => do
    if (← test).isTruthy then
      match ← body with
      | .normal | .continued =>
        let _ ← step
        rounds test body step limit
      | .broke => pure .normal
      | .returned value => pure (.returned value)
    else pure .normal

variable (limit : Nat) (invoke : Closure → List Value → Run Value)

/-- A call of a value, where functions do what is given. -/
def callWith (callee : Value) (arguments : List Value) (line : Nat) : Run Value :=
  match callee with
  | .host f => callHost f arguments line
  | .function _ closure => invoke closure arguments
  | .cls c => do
    let o ← newObject c
    match c.method? initializerName with
    | some initializer =>
      let _ ← invoke (← bindMethod initializer o) arguments
      pure (.object o)
    | none => pure (.object o)
  | _ => stop (.notCallable line)

mutual

/-- All expressions have a property that their steps have. -/
def valueOf : Expr → Run Value
  | .literal value => pure (.ofLiteral value)
  | .group inner => valueOf inner
  | .unary op line operand => do liftExcept (applyUnary op line (← valueOf operand))
  | .binary op line left right => do
    let a ← valueOf left
    let b ← valueOf right
    liftExcept (applyBinary op line a b)
  | .logical op left right => do
    let a ← valueOf left
    if decides op a then pure a else valueOf right
  | .variable occurrence => read occurrence.name
  | .assign target value => do
    let v ← valueOf value
    write target.name v
    pure v
  | .call callee line arguments => do
    let f ← valueOf callee
    let vs ← valuesOf arguments
    checkCall f vs line
    callWith invoke f vs line
  | .get object name => do readProperty (← valueOf object) name
  | .set object name value => do
    match ← valueOf object with
    | .object o =>
      let v ← valueOf value
      writeField o name.text v
      pure v
    | _ => stop (.noFields name.line)
  | .this _ line => read ⟨"this", line⟩
  | .super _ _ method => readSuper method

def valuesOf : List Expr → Run (List Value)
  | [] => pure []
  | e :: rest => do
    let v ← valueOf e
    return v :: (← valuesOf rest)

end

/-- What is left out is `nil`. -/
def valueOf? : Option Expr → Run Value
  | none => pure .nil
  | some e => valueOf invoke e

mutual

/-- What a statement does. -/
def effect : Stmt → Run Completion
  | .expression e => do
    let _ ← valueOf invoke e
    pure .normal
  | .print e => do
    print (← valueOf invoke e)
    pure .normal
  | .var name initializer => do
    let slot ← declare name.text
    fill slot name.text (← valueOf? invoke initializer)
    pure .normal
  | .block body => do within (← mapInForce) (effectOfAll body)
  | .branch condition yes none => do
    if (← valueOf invoke condition).isTruthy then effect yes else pure .normal
  | .branch condition yes (some no) => do
    if (← valueOf invoke condition).isTruthy then effect yes else effect no
  | .loop condition body increment =>
    rounds (valueOf invoke condition) (effect body) (valueOf? invoke increment) limit
  | .function declaration => do
    let slot ← declare declaration.name.text
    fill slot declaration.name.text (← newFunction declaration)
    pure .normal
  | .return _ value => do return .returned (← valueOf? invoke value)
  | .break _ => pure .broke
  | .continue _ => pure .continued
  | .classDecl name none methods => do
    makeClass (← declare name.text) name none methods
    pure .normal
  | .classDecl name (some superclass) methods => do
    let slot ← declare name.text
    let c ← asSuperclass (← read superclass.name) superclass.name.line
    makeClass slot name (some c) methods
    pure .normal

def effectOfAll : List Stmt → Run Completion
  | [] => pure .normal
  | s :: rest => do
    match ← effect s with
    | .normal => effectOfAll rest
    | jump => pure jump

end

/-- What functions do that call further no more often than the limit. -/
def invokeUpTo : Nat → Closure → List Value → Run Value
  | 0, _, _ => throw .outOfFuel
  | limit + 1, closure, arguments => do
    let map ← callMap closure arguments
    callResult closure
      (← within map (effectOfAll limit (invokeUpTo limit) closure.declaration.body))

/-- What the statements of a program do, each of which must end normally. -/
def effectOfProgram : Program → Run Unit
  | [] => pure ()
  | s :: rest => do
    match ← effect limit (invokeUpTo limit) s with
    | .normal => effectOfProgram rest
    | stray => stop (.internal (.strayCompletion stray))

end Definitions

/-- The store that a run leaves, however it ends. -/
def final {α : Type} : EStateM.Result Stop Store α → Store
  | .ok _ σ | .error _ σ => σ

/-- What a computation ends with, in the map of a store and with its kind of
declarations. -/
def restore {α : Type} (σ : Store) : EStateM.Result Stop Store α → EStateM.Result Stop Store α
  | .ok a σ' => .ok a { σ' with map := σ.map, isLocal := σ.isLocal }
  | .error e σ' => .error e { σ' with map := σ.map, isLocal := σ.isLocal }

theorem within_eq {α : Type} (map : Map) (x : Run α) (σ : Store) :
    within map x σ = restore σ (x { σ with map, isLocal := true }) := by
  unfold within restore
  cases x { σ with map, isLocal := true } <;> rfl

/-! ## Properties of all expressions -/

/-- A property that the steps of expressions have, and rows of computations that have it. -/
structure Stepwise (P : {α : Type} → Run α → Prop) : Prop where
  pure : ∀ {α : Type} (a : α), P (Pure.pure a : Run α)
  throw : ∀ {α : Type} (e : Stop), P (throw e : Run α)
  bind : ∀ {α β : Type} {x : Run α} {f : α → Run β}, P x → (∀ a, P (f a)) → P (x >>= f)
  liftExcept : ∀ {α : Type} (result : Except Fault α), P (liftExcept result)
  read : ∀ name, P (read name)
  write : ∀ name value, P (write name value)
  newObject : ∀ cls, P (newObject cls)
  bindMethod : ∀ method o, P (bindMethod method o)
  readProperty : ∀ subject name, P (readProperty subject name)
  writeField : ∀ o name value, P (writeField o name value)
  readSuper : ∀ method, P (readSuper method)
  callHost : ∀ f arguments line, P (callHost f arguments line)

namespace Stepwise

variable {P : {α : Type} → Run α → Prop} (steps : Stepwise P)
  {invoke : Closure → List Value → Run Value}
include steps

set_option linter.unusedSectionVars false in
theorem ite {α : Type} {c : Prop} [Decidable c] {x y : Run α} (yes : P x) (no : P y) :
    P (if c then x else y) := by
  split
  · exact yes
  · exact no

theorem checkCall (callee : Value) (arguments : List Value) (line : Nat) :
    P (checkCall callee arguments line) := by
  unfold Slots.checkCall
  split
  · exact steps.throw _
  · exact steps.ite (steps.pure ()) (steps.throw _)

theorem rounds {test : Run Value} {body : Run Completion} {step : Run Value} (first : P test)
    (inner : P body) (last : P step) (limit : Nat) : P (rounds test body step limit) := by
  induction limit with
  | zero => exact steps.throw _
  | succ limit ih =>
    refine steps.bind first fun v => steps.ite (steps.bind inner fun completion => ?_)
      (steps.pure _)
    cases completion with
    | normal | continued => exact steps.bind last fun _ => ih
    | broke => exact steps.pure _
    | returned value => exact steps.pure _

variable (functions : ∀ closure arguments, P (invoke closure arguments))
include functions

theorem callWith (callee : Value) (arguments : List Value) (line : Nat) :
    P (callWith invoke callee arguments line) := by
  cases callee with
  | host f => exact steps.callHost f arguments line
  | function id closure => exact functions closure arguments
  | cls c =>
    refine steps.bind (steps.newObject c) fun o => ?_
    cases c.method? initializerName with
    | none => exact steps.pure _
    | some initializer =>
      refine steps.bind (steps.bindMethod initializer o) fun bound => ?_
      exact steps.bind (functions bound arguments) fun _ => steps.pure _
  | _ => exact steps.throw _

-- in a mutual block a theorem may use the variables through the others only
set_option linter.unusedSectionVars false in
mutual

theorem valueOf (e : Expr) : P (valueOf invoke e) := by
  match e with
  | .literal value => exact steps.pure _
  | .group inner => exact valueOf inner
  | .unary op line operand => exact steps.bind (valueOf operand) fun v => steps.liftExcept _
  | .binary op line left right =>
    exact steps.bind (valueOf left) fun a => steps.bind (valueOf right) fun b =>
      steps.liftExcept _
  | .logical op left right =>
    exact steps.bind (valueOf left) fun a => steps.ite (steps.pure a) (valueOf right)
  | .variable occurrence => exact steps.read _
  | .assign target value =>
    exact steps.bind (valueOf value) fun v => steps.bind (steps.write _ v) fun _ => steps.pure v
  | .call callee line arguments =>
    refine steps.bind (valueOf callee) fun f => steps.bind (valuesOf arguments) fun vs => ?_
    exact steps.bind (steps.checkCall f vs line) fun _ => steps.callWith functions f vs line
  | .get object name => exact steps.bind (valueOf object) fun v => steps.readProperty v name
  | .set object name value =>
    refine steps.bind (valueOf object) fun subject => ?_
    cases subject with
    | object o =>
      exact steps.bind (valueOf value) fun v => steps.bind (steps.writeField o _ v) fun _ =>
        steps.pure v
    | _ => exact steps.throw _
  | .this _ line => exact steps.read _
  | .super _ _ method => exact steps.readSuper method

theorem valuesOf (es : List Expr) : P (valuesOf invoke es) := by
  match es with
  | [] => exact steps.pure _
  | e :: rest =>
    exact steps.bind (valueOf e) fun v => steps.bind (valuesOf rest) fun vs => steps.pure _

end

theorem valueOf? (e : Option Expr) : P (valueOf? invoke e) := by
  cases e with
  | none => exact steps.pure _
  | some e => exact steps.valueOf functions e

end Stepwise

/-- Slots for parameters are fresh ones at the end, whatever else is in the store. -/
theorem bindParameters (bound : List (Name × Value)) :
    ∃ f : Map → Array (Option Value) → Map × Array (Option Value), ∀ (map : Map) (σ : Store),
      bindLocals bound map σ = ((f map σ.slots).1, { σ with slots := (f map σ.slots).2 }) := by
  induction bound with
  | nil => exact ⟨fun map slots => (map, slots), fun _ _ => rfl⟩
  | cons first rest ih =>
    obtain ⟨f, folds⟩ := ih
    refine ⟨fun map slots =>
      f (map.insert first.1.text slots.size) (slots.push (some first.2)), fun map σ => ?_⟩
    rw [bindLocals, List.foldl_cons]
    exact folds _ _

end ClassScript.Slots
