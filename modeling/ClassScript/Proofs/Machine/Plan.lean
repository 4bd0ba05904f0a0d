import ClassScript.Machine.Evaluate

/-!
# A run as a tree of runs

The evaluator calls itself on smaller pieces of work. `Task` names these pieces, and
`Task.plan` says for each of them which steps it takes on the machine and which
tasks it calls, in order: `Task.run_succ` shows that the evaluator does what the plan
says. So what holds of a run can be proved of one plan at a time.
-/

namespace ClassScript.Machine

open Syntax Object

/-- What the evaluator can be called on. -/
inductive Task where
  | evaluate (e : Expr)
  | evaluateAll (es : List Expr)
  | call (callee : Value) (arguments : List Value) (line : Nat)
  | invoke (closure : Closure) (arguments : List Value)
  | execute (s : Stmt)
  | evaluate? (e : Option Expr)
  | executeAll (ss : List Stmt)
  | executeLoop (condition : Expr) (body : Stmt) (increment : Option Expr)

namespace Task

abbrev Result : Task → Type
  | evaluate _ | call .. | invoke .. | evaluate? _ => Value
  | evaluateAll _ => List Value
  | execute _ | executeAll _ | executeLoop .. => Completion

/-- The evaluator on a task. -/
def run (fuel : Nat) : (t : Task) → Run t.Result
  | evaluate e => Machine.evaluate fuel e
  | evaluateAll es => Machine.evaluateAll fuel es
  | call callee arguments line => Machine.call fuel callee arguments line
  | invoke closure arguments => Machine.invoke fuel closure arguments
  | execute s => Machine.execute fuel s
  | evaluate? e => Machine.evaluate? fuel e
  | executeAll ss => Machine.executeAll fuel ss
  | executeLoop condition body increment =>
    Machine.executeLoop fuel condition body increment

end Task

/-- Steps on the machine and calls of tasks, in order. A call may change the machine
before it, and again after it however it ends. -/
inductive Plan (α : Type) : Type 1 where
  | ret (a : α)
  | step {β : Type} (x : Run β) (next : β → Plan α)
  | call (enter : State → State) (leave : State → State → State) (t : Task)
      (next : t.Result → Plan α)

namespace Plan

variable {α β : Type}

def bind : Plan α → (α → Plan β) → Plan β
  | ret a, f => f a
  | step x next, f => step x fun b => (next b).bind f
  | call enter leave t next, f => call enter leave t fun b => (next b).bind f

instance : Monad Plan where
  pure := ret
  bind := bind

@[simp] theorem pure_eq (a : α) : (pure a : Plan α) = ret a := rfl

@[simp] theorem bind_ret (a : α) (f : α → Plan β) : (ret a >>= f) = f a := rfl

@[simp] theorem bind_step {γ : Type} (x : Run γ) (next : γ → Plan α) (f : α → Plan β) :
    (step x next >>= f) = step x fun b => next b >>= f := rfl

@[simp] theorem bind_call (enter : State → State) (leave : State → State → State)
    (t : Task) (next : t.Result → Plan α) (f : α → Plan β) :
    (call enter leave t next >>= f) = call enter leave t fun b => next b >>= f := rfl

/-- A step on the machine. -/
def prim (x : Run α) : Plan α := step x ret

/-- A call of a task. -/
def sub (t : Task) : Plan t.Result := call id (fun _ m => m) t ret

/-- A call of a task in another current scope. -/
def inside (scope : ScopeId) (t : Task) : Plan t.Result :=
  call (fun m => { m with current := scope })
    (fun m m' => { m' with current := m.current }) t ret

/-- What a plan does where tasks run as given. -/
def run (tasks : (t : Task) → Run t.Result) : Plan α → Run α
  | ret a, m => .ok a m
  | step x next, m =>
    match x m with
    | .ok b m' => (next b).run tasks m'
    | .error e m' => .error e m'
  | call enter leave t next, m =>
    match tasks t (enter m) with
    | .ok b m' => (next b).run tasks (leave m m')
    | .error e m' => .error e (leave m m')

end Plan

/-! ## The plans of the tasks -/

open Plan

namespace Task

def planOfExpr : Expr → Plan Value
  | .literal value => pure (.ofLiteral value)
  | .group inner => sub (evaluate inner)
  | .unary op line operand => do
    let a ← sub (evaluate operand)
    prim (liftExcept (applyUnary op line a))
  | .binary op line left right => do
    let a ← sub (evaluate left)
    let b ← sub (evaluate right)
    prim (liftExcept (applyBinary op line a b))
  | .logical op left right => do
    let a ← sub (evaluate left)
    if decides op a then pure a else sub (evaluate right)
  | .variable occurrence => prim (readVariable occurrence.id occurrence.name)
  | .assign target value => do
    let v ← sub (evaluate value)
    prim (writeVariable target v)
    pure v
  | .call callee line arguments => do
    let f ← sub (evaluate callee)
    let vs ← sub (evaluateAll arguments)
    prim (checkCall f vs line)
    sub (call f vs line)
  | .get object name => do
    let o ← sub (evaluate object)
    prim (readProperty o name)
  | .set object name value => do
    match ← sub (evaluate object) with
    | .object o =>
      let v ← sub (evaluate value)
      prim (writeField o name.text v)
      pure v
    | _ => prim (stop (.noFields name.line))
  | .this id line => prim (readVariable id ⟨"this", line⟩)
  | .super id _ method => prim (readSuper id method)

def planOfCall (callee : Value) (arguments : List Value) (line : Nat) : Plan Value :=
  match callee with
  | .host f => prim (callHost f arguments line)
  | .function _ closure => sub (invoke closure arguments)
  | .cls c => do
    let o ← prim (newObject c)
    match c.method? initializerName with
    | some initializer =>
      let bound ← prim (bindMethod initializer o)
      let _ ← sub (invoke bound arguments)
      pure (.object o)
    | none => pure (.object o)
  | _ => prim (stop (.notCallable line))

/-- What a class declaration does once its superclass is known. -/
def planOfClass (name : Name) (superclass : Option ObjectClass)
    (methods : List FunctionDecl) : Plan Unit := do
  prim (define name.text .nil)
  let scope ← prim (classScope superclass)
  let cls ← prim (newClass name.text superclass (methodTable scope methods))
  prim (assign name (.cls cls))

def planOfStmt : Stmt → Plan Completion
  | .expression e => do
    let _ ← sub (evaluate e)
    pure .normal
  | .print e => do
    let v ← sub (evaluate e)
    prim (print v)
    pure .normal
  | .var name initializer => do
    let v ← sub (evaluate? initializer)
    prim (define name.text v)
    pure .normal
  | .block body => do
    let scope ← prim innerScope
    inside scope (executeAll body)
  | .branch condition yes no => do
    let v ← sub (evaluate condition)
    if v.isTruthy then sub (execute yes)
    else
      match no with
      | some no => sub (execute no)
      | none => pure .normal
  | .loop condition body increment => sub (executeLoop condition body increment)
  | .function declaration => do
    let f ← prim (newFunction declaration)
    prim (define declaration.name.text f)
    pure .normal
  | .return _ value => do
    let v ← sub (evaluate? value)
    pure (.returned v)
  | .break _ => pure .broke
  | .continue _ => pure .continued
  | .classDecl name none methods => do
    planOfClass name none methods
    pure .normal
  | .classDecl name (some superclass) methods => do
    let v ← sub (evaluate (.variable superclass))
    let c ← prim (asSuperclass v superclass.name.line)
    planOfClass name (some c) methods
    pure .normal

/-- One task: its steps, and the tasks that it calls. -/
def plan : (t : Task) → Plan t.Result
  | evaluate e => planOfExpr e
  | evaluateAll [] => pure []
  | evaluateAll (e :: rest) => do
    let v ← sub (evaluate e)
    let vs ← sub (evaluateAll rest)
    pure (v :: vs)
  | call callee arguments line => planOfCall callee arguments line
  | invoke closure arguments => do
    let scope ← prim (callScope closure arguments)
    let completion ← inside scope (executeAll closure.declaration.body)
    prim (callResult closure completion)
  | execute s => planOfStmt s
  | evaluate? none => pure .nil
  | evaluate? (some e) => sub (evaluate e)
  | executeAll [] => pure .normal
  | executeAll (s :: rest) => do
    match ← sub (execute s) with
    | .normal => sub (executeAll rest)
    | jump => pure jump
  | executeLoop condition body increment => do
    let v ← sub (evaluate condition)
    if v.isTruthy then
      match ← sub (execute body) with
      | .normal | .continued =>
        let _ ← sub (evaluate? increment)
        sub (executeLoop condition body increment)
      | .broke => pure .normal
      | .returned value => pure (.returned value)
    else pure .normal

end Task

/-! ## The evaluator follows the plans -/

namespace Plan

variable {α β : Type} (tasks : (t : Task) → Run t.Result)

@[simp] theorem run_ret (a : α) : (ret a : Plan α).run tasks = pure a := rfl

@[simp] theorem run_prim (x : Run α) : (prim x).run tasks = x := by
  funext m
  simp only [prim, run]
  cases x m <;> rfl

/-- A plan in two parts is run part by part. -/
@[simp] theorem run_bind (p : Plan α) (f : α → Plan β) :
    (p >>= f).run tasks = p.run tasks >>= fun a => (f a).run tasks := by
  funext m
  -- the rest of a step is the rest of the plan with `f` behind it
  induction p generalizing m with
  | ret a => rfl
  | step x next ih =>
    change (step x fun b => next b >>= f).run tasks m =
      EStateM.bind ((step x next).run tasks) (fun a => (f a).run tasks) m
    simp only [run, EStateM.bind]
    cases x m with
    | ok b m' => exact ih b m'
    | error e m' => rfl
  | call enter leave t next ih =>
    change (call enter leave t fun b => next b >>= f).run tasks m =
      EStateM.bind ((call enter leave t next).run tasks) (fun a => (f a).run tasks) m
    simp only [run, EStateM.bind]
    cases tasks t (enter m) with
    | ok b m' => exact ih b (leave m m')
    | error e m' => rfl

theorem run_sub (t : Task) : (sub t).run tasks = tasks t := by
  funext m
  simp only [sub, run, id]
  cases tasks t m <;> rfl

/-- A task that is run inside a scope leaves the current one behind it, also where it fails. -/
theorem run_inside (scope : ScopeId) (t : Task) :
    (inside scope t).run tasks = within scope (tasks t) := by
  funext m
  simp only [inside, run, within]
  cases tasks t { m with current := scope } <;> rfl

end Plan

namespace Task

/-- Without fuel nothing is done. -/
theorem run_zero (t : Task) (m : State) : t.run 0 m = .error .outOfFuel m := by
  cases t <;>
    simp only [run, Machine.evaluate, Machine.evaluateAll, Machine.call, Machine.invoke,
      Machine.execute, Machine.evaluate?, Machine.executeAll, Machine.executeLoop] <;>
    rfl

/-- All tasks, run by the evaluator with the same fuel. -/
abbrev tasksAt (fuel : Nat) (t : Task) : Run t.Result := t.run fuel

section Called

variable (fuel : Nat)

@[simp] theorem sub_evaluate (e : Expr) :
    Plan.run (α := Value) (tasksAt fuel) (sub (evaluate e)) = Machine.evaluate fuel e :=
  run_sub ..

@[simp] theorem sub_evaluateAll (es : List Expr) :
    Plan.run (α := List Value) (tasksAt fuel) (sub (evaluateAll es)) =
      Machine.evaluateAll fuel es :=
  run_sub ..

@[simp] theorem sub_call (f : Value) (vs : List Value) (line : Nat) :
    Plan.run (α := Value) (tasksAt fuel) (sub (call f vs line)) =
      Machine.call fuel f vs line :=
  run_sub ..

@[simp] theorem sub_invoke (c : Closure) (vs : List Value) :
    Plan.run (α := Value) (tasksAt fuel) (sub (invoke c vs)) = Machine.invoke fuel c vs :=
  run_sub ..

@[simp] theorem sub_execute (s : Stmt) :
    Plan.run (α := Completion) (tasksAt fuel) (sub (execute s)) = Machine.execute fuel s :=
  run_sub ..

@[simp] theorem sub_evaluate? (e : Option Expr) :
    Plan.run (α := Value) (tasksAt fuel) (sub (evaluate? e)) = Machine.evaluate? fuel e :=
  run_sub ..

@[simp] theorem sub_executeAll (ss : List Stmt) :
    Plan.run (α := Completion) (tasksAt fuel) (sub (executeAll ss)) =
      Machine.executeAll fuel ss :=
  run_sub ..

@[simp] theorem inside_executeAll (scope : ScopeId) (ss : List Stmt) :
    Plan.run (α := Completion) (tasksAt fuel) (inside scope (executeAll ss)) =
      within scope (Machine.executeAll fuel ss) :=
  run_inside ..

@[simp] theorem sub_executeLoop (c : Expr) (b : Stmt) (i : Option Expr) :
    Plan.run (α := Completion) (tasksAt fuel) (sub (executeLoop c b i)) =
      Machine.executeLoop fuel c b i :=
  run_sub ..

/-- The plan of an expression does what evaluation does with one fuel more. -/
theorem run_planOfExpr (e : Expr) :
    (planOfExpr e).run (tasksAt fuel) = Machine.evaluate (fuel + 1) e := by
  cases e with
  | logical op left right =>
    simp only [planOfExpr, Machine.evaluate, run_bind, apply_ite (Plan.run _), pure_eq,
      run_ret, sub_evaluate]
  | set object name value =>
    -- both sides look at what the object is before they go on
    simp only [planOfExpr, Machine.evaluate, run_bind, sub_evaluate]
    congr 1
    funext o
    cases o <;> simp
  | _ => simp [planOfExpr, Machine.evaluate]

/-- The plan of a call does what a call does with one fuel more. -/
theorem run_planOfCall (f : Value) (vs : List Value) (line : Nat) :
    (planOfCall f vs line).run (tasksAt fuel) = Machine.call (fuel + 1) f vs line := by
  cases f with
  | cls c =>
    simp only [planOfCall, Machine.call, run_bind, run_prim]
    cases c.method? initializerName <;> simp
  | _ => simp [planOfCall, Machine.call]

/-- The plan of a statement does what execution does with one fuel more. -/
theorem run_planOfStmt (s : Stmt) :
    (planOfStmt s).run (tasksAt fuel) = Machine.execute (fuel + 1) s := by
  cases s with
  | branch condition yes no =>
    simp only [planOfStmt, Machine.execute, run_bind, sub_evaluate]
    congr 1
    funext v
    cases v.isTruthy <;> cases no <;> simp
  | classDecl name superclass methods =>
    cases superclass <;> simp [planOfStmt, planOfClass, Machine.execute, declareClass]
  | _ => simp [planOfStmt, Machine.execute]

end Called

/-- With fuel a task does what its plan says, and the tasks that it calls have one
fuel less. -/
theorem run_succ (fuel : Nat) (t : Task) : t.run (fuel + 1) = t.plan.run (tasksAt fuel) := by
  cases t with
  | evaluate e => exact (run_planOfExpr fuel e).symm
  | evaluateAll es => cases es <;> simp [plan, run, Machine.evaluateAll]
  | call f vs line => exact (run_planOfCall fuel f vs line).symm
  | invoke c vs => simp [plan, run, Machine.invoke]
  | execute s => exact (run_planOfStmt fuel s).symm
  | evaluate? e => cases e <;> simp [plan, run, Machine.evaluate?]
  | executeAll ss =>
    cases ss with
    | nil => simp [plan, run, Machine.executeAll]
    | cons s rest =>
      simp only [plan, run, Machine.executeAll, run_bind, sub_execute]
      -- both sides go on by the completion of the first statement
      congr 1
      funext completion
      cases completion <;> simp
  | executeLoop c b i =>
    simp only [plan, run, Machine.executeLoop, run_bind, sub_evaluate]
    congr 1
    -- both sides go on by the truth of the condition
    funext v
    cases v.isTruthy with
    | false => simp
    | true =>
      simp only [if_true, run_bind, sub_execute]
      congr 1
      funext completion
      cases completion <;> simp

end Task

end ClassScript.Machine
