import ClassScript.Machine.State

/-!
# Variables, properties and host functions

The steps of a run that read or change the machine without running a part of the
program.
-/

namespace ClassScript.Machine

open Syntax Object

/-- The value of an occurrence: in the scope that the table leads to, or else among
the globals. -/
def readVariable (id : NodeId) (name : Name) : Run Value := fun m =>
  let result := match m.locals.depth? id with
    | some hops => m.scopes.getAt hops m.current name.text
    | none => m.scopes.get m.globals name.text name.line
  liftExcept result m

/-- The scope whose binding a write to an occurrence changes: the one that the table
leads to, or else the global one. -/
def writeTarget (m : State) (target : Occurrence) : Except Fault ScopeId :=
  match m.locals.depth? target.id with
  | some hops => m.scopes.targetAt hops m.current target.name.text
  | none => m.scopes.target m.globals target.name.text target.name.line

/-- Write to the binding of an occurrence. -/
def writeVariable (target : Occurrence) (value : Value) : Run Unit := fun m =>
  match writeTarget m target with
  | .ok owner => .ok () (m.define owner target.name.text value)
  | .error fault => .error (.fault fault) m

/-- Bind a name in the current scope. -/
def define (name : String) (value : Value) : Run Unit := fun m =>
  .ok () (m.define m.current name value)

/-- A new function of a declaration, in the current scope. -/
def newFunction (declaration : FunctionDecl) : Run Value := fun m =>
  let (value, m) := m.newFunction ⟨declaration, m.current, false⟩
  .ok value m

/-- A new object. -/
def newObject (cls : ObjectClass) : Run Instance := fun m =>
  let (o, m) := m.newObject cls
  .ok o m

/-- Bind a method to an object. -/
def bindMethod (method : Closure) (o : Instance) : Run Closure := fun m =>
  let (bound, m) := m.bindMethod method o
  .ok bound m

/-- A method bound to an object, as a value. Every reading of a method makes a new
one. -/
def methodValue (method : Closure) (o : Instance) : Run Value := fun m =>
  let (bound, m) := m.bindMethod method o
  let (value, m) := m.newFunction bound
  .ok value m

/-- A property of an object: its field, or else a method of its class. -/
def readProperty (subject : Value) (name : Name) : Run Value := fun m =>
  match subject with
  | .object o =>
    match m.field? o name.text with
    | some value => .ok value m
    | none =>
      match o.cls.method? name.text with
      | some method => methodValue method o m
      | none => .error (.fault (.undefinedProperty name.text name.line)) m
  | _ => .error (.fault (.noProperties name.line)) m

/-- Set a field of an object. -/
def writeField (o : Instance) (name : String) (value : Value) : Run Unit := fun m =>
  .ok () (m.setField o name value)

/-- The method of the superclass that `super` stands for, bound to `this`. The scope
that binds `this` lies one inside the scope that binds `super`. -/
def readSuper (id : NodeId) (method : Name) : Run Value := fun m =>
  let internal (fault : InternalFault) : EStateM.Result Stop State Value :=
    .error (.fault (.internal fault)) m
  match m.locals.depth? id with
  | none => internal .unresolvedSuper
  | some hops =>
    match m.scopes.getAt hops m.current "super" with
    | .error fault => .error (.fault fault) m
    | .ok (.cls superclass) =>
      match hops with
      | 0 => internal .superWithoutThis
      | inner + 1 =>
        match m.scopes.getAt inner m.current "this" with
        | .error fault => .error (.fault fault) m
        | .ok (.object o) =>
          match superclass.method? method.text with
          | some found => methodValue found o m
          | none => .error (.fault (.undefinedProperty method.text method.line)) m
        | .ok _ => internal .thisNotObject
    | .ok _ => internal .superNotClass

/-- Print the text of a value, on a line of its own. -/
def print (value : Value) : Run Unit := fun m =>
  let (fits, sink) := m.sink.write (value.display ++ "\n").toUTF8
  let m := { m with sink }
  if fits then .ok () m else .error (.fault .output) m

/-- Call a function of the host. -/
def callHost (f : HostRef) (arguments : List Value) (line : Nat) : Run Value := fun m =>
  match m.hosts[f.id]? with
  | some .clock =>
    .ok (.number (m.clock.readings m.clock.taken))
      { m with clock := { m.clock with taken := m.clock.taken + 1 } }
  | some (.compute run) =>
    match run arguments with
    | .ok value => .ok value m
    | .error message => .error (.fault (.host f.name message line)) m
  | none => .error (.fault (.notCallable line)) m

/-- A new scope for a call: inside the function's own, and binding its parameters to
the arguments, as far as there are both. -/
def callScope (closure : Closure) (arguments : List Value) : Run ScopeId := fun m =>
  let (scope, m) := m.pushScope (some closure.scope)
  .ok scope <|
    (closure.declaration.parameters.zip arguments).foldl
      (fun m (parameter, argument) => m.define scope parameter.text argument) m

/-- A new scope inside the current one. -/
def innerScope : Run ScopeId := fun m =>
  let (scope, m) := m.pushScope (some m.current)
  .ok scope m

/-- The object that an initializer was bound to. -/
def boundObject (closure : Closure) : Run Value := fun m =>
  liftExcept (m.scopes.getAt 0 closure.scope "this") m

/-- The methods of a class, declared in the given scope. Of two with one name the
later one counts. -/
def methodTable (scope : ScopeId) (methods : List FunctionDecl) :
    Std.ExtTreeMap String Closure :=
  methods.foldl
    (fun table method =>
      table.insert method.name.text
        ⟨method, scope, method.name.text == initializerName⟩) ∅

/-- The class that a class inherits from, where its name has the given value. -/
def asSuperclass (value : Value) (line : Nat) : Run ObjectClass :=
  match value with
  | .cls c => pure c
  | _ => stop (.notAClass line)

/-- The scope that the methods of a class are declared in: the current one, or, if
there is a superclass, a new scope that binds it as `super`. -/
def classScope (superclass : Option ObjectClass) : Run ScopeId := fun m =>
  match superclass with
  | none => .ok m.current m
  | some c =>
    let (scope, m) := m.pushScope (some m.current)
    .ok scope (m.define scope "super" (.cls c))

/-- A new class, with an identity of its own. -/
def newClass (name : String) (superclass : Option ObjectClass)
    (methods : Std.ExtTreeMap String Closure) : Run ObjectClass := fun m =>
  .ok ⟨m.nextId, name, superclass, methods⟩ { m with nextId := m.nextId + 1 }

/-- Write to a name, searched from the current scope on upward. -/
def assign (name : Name) (value : Value) : Run Unit := fun m =>
  match m.scopes.target m.current name.text name.line with
  | .ok owner => .ok () (m.define owner name.text value)
  | .error fault => .error (.fault fault) m

/-- Make a class in the current scope. Its name is bound to `nil` first, and to the
class when that is made. -/
def declareClass (name : Name) (superclass : Option ObjectClass)
    (methods : List FunctionDecl) : Run Unit := do
  define name.text .nil
  let scope ← classScope superclass
  let cls ← newClass name.text superclass (methodTable scope methods)
  assign name (.cls cls)

/-- Run with another current scope, and return to the present one however the run
ends. -/
@[inline] def within {α : Type} (scope : ScopeId) (run : Run α) : Run α := fun m =>
  let previous := m.current
  match run { m with current := scope } with
  | .ok a m => .ok a { m with current := previous }
  | .error stop m => .error stop { m with current := previous }

end ClassScript.Machine
