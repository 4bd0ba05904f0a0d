import ClassScript.Proofs.Session.History

/-!
# The current scope is given back

Blocks, calls and class declarations each go into a scope of their own, and may be left
by a fault or a jump from any depth. However a run ends, the scope that was current is
current again, and the global scope and the table are the ones from before
(`restored_run`). So between two texts a session stands at its first scope
(`steps_end_at_globals`).
-/

namespace ClassScript.Machine

open Syntax Object

/-- The later machine has the current scope, the global scope and the table of the
earlier one. What the scopes bind may differ. -/
structure Restored (before after : State) : Prop where
  current : after.current = before.current
  globals : after.globals = before.globals
  locals : after.locals = before.locals

theorem Grows.restored {names : List String} {a b : State} (g : Grows names a b) :
    Restored a b :=
  ⟨g.current, g.globals, g.locals⟩

/-- A run gives back what it began with, whatever its task is and however it ends. -/
theorem restored_run (fuel : Nat) (t : Task) (m : State) :
    Restored m (left (t.run fuel m)) :=
  (grows_run fuel t m).restored

/-- Whatever is run in another scope, the scope from before is current behind it. -/
theorem restored_within {α : Type} {run : Run α} {scope : ScopeId} {m : State}
    (inner : Restored { m with current := scope } (left (run { m with current := scope }))) :
    Restored m (left (within scope run m)) := by
  obtain ⟨-, globals, locals⟩ := inner
  unfold within
  cases h : run { m with current := scope } with
  | ok a m' =>
    rw [h] at globals locals
    exact ⟨rfl, globals, locals⟩
  | error e m' =>
    rw [h] at globals locals
    exact ⟨rfl, globals, locals⟩

/-- The statements of a block, run in any scope whatever. -/
theorem restored_block (fuel : Nat) (scope : ScopeId) (body : List Stmt) (m : State) :
    Restored m (left (within scope (executeAll fuel body) m)) :=
  restored_within (restored_run fuel (.executeAll body) _)

/-! ## Class declarations -/

/-- A new class whose methods are declared in the current scope. -/
def newClassHere (name : String) (superclass : Option ObjectClass)
    (methods : List FunctionDecl) : Run ObjectClass := fun m =>
  newClass name superclass (methodTable m.current methods) m

/-- A class declaration that goes into the scope of the methods, makes the class there,
and comes back. -/
def declareClassWithin (name : Name) (superclass : Option ObjectClass)
    (methods : List FunctionDecl) : Run Unit := do
  define name.text .nil
  let scope ← classScope superclass
  let cls ← within scope (newClassHere name.text superclass methods)
  assign name (.cls cls)

/-- To name the scope of the methods has the same effect as to go there. -/
theorem declareClass_eq_within (name : Name) (superclass : Option ObjectClass)
    (methods : List FunctionDecl) :
    declareClass name superclass methods = declareClassWithin name superclass methods := by
  have inside (scope : ScopeId) :
      within scope (newClassHere name.text superclass methods) =
        newClass name.text superclass (methodTable scope methods) := by
    funext m
    rfl
  simp only [declareClass, declareClassWithin, inside]

/-- A class declaration comes back to where it began, also if its name cannot be
assigned to in the end. -/
theorem restored_declareClass (name : Name) (superclass : Option ObjectClass)
    (methods : List FunctionDecl) (m : State) :
    Restored m (left (declareClassWithin name superclass methods m)) := by
  rw [← declareClass_eq_within]
  have frames : (Task.planOfClass name superclass methods).Frames [name.text] :=
    frames_planOfClass (List.mem_singleton.mpr rfl) superclass methods
  have run : (Task.planOfClass name superclass methods).run (Task.tasksAt 0) =
      declareClass name superclass methods := by
    simp [Task.planOfClass, declareClass]
  have grows := frames.grows 0 m
  rw [run] at grows
  exact grows.restored

end ClassScript.Machine

namespace ClassScript.Session

open Syntax Parsing Object Binding Machine

/-! ## Sessions -/

/-- A step leaves the session in the scope where it found it, whether the text is
accepted or not, and however its run ends. -/
theorem current_take (step : Step) (s : Session) :
    (step.take s).2.machine.current = s.machine.current ∧
      (step.take s).2.machine.globals = s.machine.globals := by
  cases h : (step.check s.nextId).1 with
  | error rejection =>
    rw [Step.take_rejected h]
    exact ⟨rfl, rfl⟩
  | ok input =>
    obtain ⟨r, rfl, taken⟩ := Step.take_accepted h
    obtain ⟨names, frames⟩ := frames_planOfInput input.tree
    have grows := frames.grows step.fuel (enter s.machine input.locals)
    rw [taken]
    exact ⟨grows.current, grows.globals⟩

theorem current_after (s : Session) (steps : List Step) :
    (s.after steps).machine.current = s.machine.current ∧
      (s.after steps).machine.globals = s.machine.globals := by
  induction steps generalizing s with
  | nil => exact ⟨rfl, rfl⟩
  | cons step rest ih =>
    obtain ⟨current, globals⟩ := current_take step s
    obtain ⟨current', globals'⟩ := ih (step.take s).2
    exact ⟨current'.trans current, globals'.trans globals⟩

/-- A session stands at the global scope behind every step, and this is the scope that
it began with. -/
theorem steps_end_at_globals (readings : Nat → Float) (sink : Sink) (steps : List Step) :
    ((start readings sink).after steps).machine.current =
        ((start readings sink).after steps).machine.globals ∧
      ((start readings sink).after steps).machine.globals =
        (start readings sink).machine.globals := by
  obtain ⟨current, globals⟩ := current_after (start readings sink) steps
  have first : (start readings sink).machine.current =
      (start readings sink).machine.globals := rfl
  exact ⟨current.trans (first.trans globals.symm), globals⟩

/-- Statements, blocks, expressions and calls give back the current scope, the global
scope and the table, on every machine and however they end; a class declaration does so
though its methods are made in another scope. So every step of a session ends at the
global scope. -/
theorem scope_restored :
    (∀ (fuel : Nat) (m : Machine.State),
      (∀ s : Stmt, Restored m (left (execute fuel s m))) ∧
      (∀ (scope : ScopeId) (body : List Stmt),
        Restored m (left (within scope (executeAll fuel body) m))) ∧
      (∀ e : Expr, Restored m (left (Machine.evaluate fuel e m))) ∧
      ∀ (callee : Value) (arguments : List Value) (line : Nat),
        Restored m (left (call fuel callee arguments line m))) ∧
    (∀ (name : Name) (superclass : Option ObjectClass) (methods : List FunctionDecl),
      declareClass name superclass methods = declareClassWithin name superclass methods ∧
        ∀ m : Machine.State,
          Restored m (left (declareClassWithin name superclass methods m))) ∧
    (∀ (step : Step) (s : Session),
      (step.take s).2.machine.current = s.machine.current ∧
        (step.take s).2.machine.globals = s.machine.globals) ∧
    ∀ (readings : Nat → Float) (sink : Sink) (steps : List Step),
      ((start readings sink).after steps).machine.current =
          ((start readings sink).after steps).machine.globals ∧
        ((start readings sink).after steps).machine.globals =
          (start readings sink).machine.globals := by
  refine ⟨?runs, ?classes, current_take, steps_end_at_globals⟩
  case runs =>
    intro fuel m
    refine ⟨?_, fun scope body => restored_block fuel scope body m, ?_, ?_⟩
    · intro s
      exact restored_run fuel (.execute s) m
    · intro e
      exact restored_run fuel (.evaluate e) m
    · intro callee arguments line
      exact restored_run fuel (.call callee arguments line) m
  -- a class switches scopes by hand; written with a scoped block it restores like any other task
  case classes =>
    intro name superclass methods
    exact ⟨declareClass_eq_within name superclass methods,
      restored_declareClass name superclass methods⟩

end ClassScript.Session
