import ClassScript.Machine.Operators
import ClassScript.Machine.State
import ClassScript.Proofs.Syntax.Rename

/-!
# Machines that hold renamed code

Code is in the values that a machine holds: in functions, and in the methods of classes
and objects. A renaming reaches all of it, and changes nothing that a program can see of
a value (`Value.display_rename`, `Value.equals_rename`). Faults cite other lines. The table
of local occurrences is keyed by identities, so a renamed machine has a table of its own.
-/

namespace ClassScript.Object

open Syntax

section Definitions

variable (r : Renaming)

def Closure.rename (c : Closure) : Closure := { c with declaration := c.declaration.rename r }

def renameMethods (methods : Std.ExtTreeMap String Closure) : Std.ExtTreeMap String Closure :=
  methods.map fun _ method => method.rename r

def ObjectClass.rename : ObjectClass → ObjectClass
  | ⟨id, name, none, methods⟩ => ⟨id, name, none, renameMethods r methods⟩
  | ⟨id, name, some superclass, methods⟩ =>
    ⟨id, name, some superclass.rename, renameMethods r methods⟩

def Instance.rename (o : Instance) : Instance := ⟨o.id, o.cls.rename r⟩

def Value.rename : Value → Value
  | .function id closure => .function id (closure.rename r)
  | .cls c => .cls (c.rename r)
  | .object o => .object (o.rename r)
  | .nil => .nil
  | .bool b => .bool b
  | .number n => .number n
  | .string s => .string s
  | .host f => .host f

end Definitions

variable {r : Renaming}

theorem renameMethods_insert (methods : Std.ExtTreeMap String Closure) (name : String)
    (method : Closure) : renameMethods r (methods.insert name method) =
      (renameMethods r methods).insert name (method.rename r) := by
  apply Std.ExtTreeMap.ext_getElem?
  intro other
  simp only [renameMethods, Std.ExtTreeMap.getElem?_map, Std.ExtTreeMap.getElem?_insert]
  split <;> rfl

@[simp] theorem Closure.rename_name (c : Closure) : (c.rename r).name = c.name := by
  simp [Closure.name, Closure.rename]

@[simp] theorem Closure.rename_arity (c : Closure) : (c.rename r).arity = c.arity := by
  simp [Closure.arity, Closure.rename]

@[simp] theorem ObjectClass.rename_id (c : ObjectClass) : (c.rename r).id = c.id := by
  obtain ⟨id, name, superclass, methods⟩ := c
  cases superclass <;> rfl

@[simp] theorem ObjectClass.rename_name (c : ObjectClass) : (c.rename r).name = c.name := by
  obtain ⟨id, name, superclass, methods⟩ := c
  cases superclass <;> rfl

/-- A method is found where it was, and is the renamed one. -/
theorem ObjectClass.method?_rename (text : String) (c : ObjectClass) :
    (c.rename r).method? text = (c.method? text).map (Closure.rename r) := by
  match c with
  | ⟨id, name, none, methods⟩ =>
    simp only [rename, method?, renameMethods, Std.ExtTreeMap.getElem?_map]
  | ⟨id, name, some superclass, methods⟩ =>
    simp only [rename, method?, renameMethods, Std.ExtTreeMap.getElem?_map]
    cases methods[text]? with
    | some method => rfl
    | none => exact superclass.method?_rename text

@[simp] theorem ObjectClass.arity_rename (c : ObjectClass) : (c.rename r).arity = c.arity := by
  rw [arity, arity, method?_rename]
  cases c.method? initializerName with
  | none => rfl
  | some method => exact method.rename_arity

namespace Value

@[simp] theorem isTruthy_rename (v : Value) : (v.rename r).isTruthy = v.isTruthy := by
  cases v <;> rfl

@[simp] theorem equals_rename (a b : Value) : (a.rename r).equals (b.rename r) = a.equals b := by
  cases a <;> cases b <;> simp [rename, equals, Instance.rename]

@[simp] theorem arity?_rename (v : Value) : (v.rename r).arity? = v.arity? := by
  cases v <;> simp [rename, arity?]

/-- Renamed code is printed as before. -/
@[simp] theorem display_rename (v : Value) : (v.rename r).display = v.display := by
  cases v <;> simp [rename, display, Instance.rename]

@[simp] theorem rename_ofLiteral (value : Literal) :
    (ofLiteral value).rename r = ofLiteral value := by
  cases value <;> rfl

end Value

/-! ## Renaming twice, and not at all -/

section Twice

variable (s : Renaming)

theorem Closure.rename_rename (c : Closure) : (c.rename s).rename r = c.rename (r.comp s) := by
  simp only [rename, FunctionDecl.rename_rename]

theorem renameMethods_renameMethods (methods : Std.ExtTreeMap String Closure) :
    renameMethods r (renameMethods s methods) = renameMethods (r.comp s) methods := by
  simp only [renameMethods, Std.ExtTreeMap.map_map, Closure.rename_rename]

theorem ObjectClass.rename_rename (c : ObjectClass) :
    (c.rename s).rename r = c.rename (r.comp s) := by
  match c with
  | ⟨id, name, none, methods⟩ => simp only [rename, renameMethods_renameMethods]
  | ⟨id, name, some superclass, methods⟩ =>
    simp only [rename, renameMethods_renameMethods, superclass.rename_rename]

/-- Two renamings one after the other are one. -/
theorem Value.rename_rename (v : Value) : (v.rename s).rename r = v.rename (r.comp s) := by
  cases v with
  | function id c => simp only [rename, Closure.rename_rename]
  | cls c => simp only [rename, ObjectClass.rename_rename]
  | object o => simp only [rename, Instance.rename, ObjectClass.rename_rename]
  | _ => rfl

@[simp] theorem Closure.rename_same (c : Closure) : c.rename .same = c := by
  simp only [rename, FunctionDecl.rename_same]

@[simp] theorem renameMethods_same (methods : Std.ExtTreeMap String Closure) :
    renameMethods .same methods = methods := by
  apply Std.ExtTreeMap.ext_getElem?
  intro name
  simp [renameMethods]

@[simp] theorem ObjectClass.rename_same (c : ObjectClass) : c.rename .same = c := by
  match c with
  | ⟨id, name, none, methods⟩ => simp only [rename, renameMethods_same]
  | ⟨id, name, some superclass, methods⟩ =>
    simp only [rename, renameMethods_same, superclass.rename_same]

/-- A renaming that changes nothing changes no value. -/
@[simp] theorem Value.rename_same (v : Value) : v.rename .same = v := by
  cases v with
  | function id c => simp only [rename, Closure.rename_same]
  | cls c => simp only [rename, ObjectClass.rename_same]
  | object o => simp only [rename, Instance.rename, ObjectClass.rename_same]
  | _ => rfl

end Twice

end ClassScript.Object

namespace ClassScript.Machine

open Syntax Object Binding

section Definitions

variable (r : Renaming)

def Completion.rename : Completion → Completion
  | .returned value => .returned (value.rename r)
  | .normal => .normal
  | .broke => .broke
  | .continued => .continued

def InternalFault.rename : InternalFault → InternalFault
  | .strayCompletion completion => .strayCompletion (completion.rename r)
  | other => other

/-- The same fault, citing the line that its own becomes. -/
def Fault.rename : Fault → Fault
  | .operandNotNumber line => .operandNotNumber (r.line line)
  | .operandsNotNumbers line => .operandsNotNumbers (r.line line)
  | .operandsNotAddable line => .operandsNotAddable (r.line line)
  | .divisionByZero line => .divisionByZero (r.line line)
  | .undefinedVariable name line => .undefinedVariable name (r.line line)
  | .undefinedProperty name line => .undefinedProperty name (r.line line)
  | .notCallable line => .notCallable (r.line line)
  | .notAClass line => .notAClass (r.line line)
  | .arityMismatch expected got line => .arityMismatch expected got (r.line line)
  | .noProperties line => .noProperties (r.line line)
  | .noFields line => .noFields (r.line line)
  | .host name message line => .host name message (r.line line)
  | .output => .output
  | .internal fault => .internal (fault.rename r)

def Stop.rename : Stop → Stop
  | .fault f => .fault (f.rename r)
  | .outOfFuel => .outOfFuel

/-- The values of a table by name, renamed. -/
def renameValues (values : Std.ExtTreeMap String Value) : Std.ExtTreeMap String Value :=
  values.map fun _ value => value.rename r

def Scopes.rename (scopes : Scopes) : Scopes :=
  ⟨scopes.cells.map fun scope => ⟨renameValues r scope.bindings, scope.parent⟩⟩

/-- A machine with all its code renamed, and with another table of local occurrences. -/
def State.rename (table : Locals) (m : State) : State :=
  { m with scopes := m.scopes.rename r, objects := m.objects.map (renameValues r),
           locals := table }

end Definitions

variable {r : Renaming}

/-- What a renamed table has for a name is what the table has, renamed. -/
theorem getElem?_renameValues (values : Std.ExtTreeMap String Value) (name : String) :
    (renameValues r values)[name]? = values[name]?.map (Value.rename r) := by
  simp only [renameValues, Std.ExtTreeMap.getElem?_map]

@[simp] theorem renameValues_empty : renameValues r ∅ = ∅ := by
  apply Std.ExtTreeMap.ext_getElem?
  intro name
  simp [getElem?_renameValues]

theorem renameValues_insert (values : Std.ExtTreeMap String Value) (name : String)
    (value : Value) : renameValues r (values.insert name value) =
      (renameValues r values).insert name (value.rename r) := by
  apply Std.ExtTreeMap.ext_getElem?
  intro other
  simp only [getElem?_renameValues, Std.ExtTreeMap.getElem?_insert]
  split <;> rfl

theorem renameValues_renameValues (s : Renaming) (values : Std.ExtTreeMap String Value) :
    renameValues r (renameValues s values) = renameValues (r.comp s) values := by
  simp only [renameValues, Std.ExtTreeMap.map_map, Value.rename_rename]

@[simp] theorem renameValues_same (values : Std.ExtTreeMap String Value) :
    renameValues .same values = values := by
  apply Std.ExtTreeMap.ext_getElem?
  intro name
  simp [renameValues]

/-! ## Scopes -/

namespace Scopes

variable (scopes : Scopes)

@[simp] theorem parent?_rename (id : ScopeId) :
    (scopes.rename r).parent? id = scopes.parent? id := by
  simp only [parent?, rename, Array.getElem?_map]
  cases scopes.cells[id]? <;> rfl

/-- Scopes keep their names, and the values in them are renamed. -/
@[simp] theorem own?_rename (id : ScopeId) (name : String) :
    (scopes.rename r).own? id name = (scopes.own? id name).map (Value.rename r) := by
  simp only [own?, rename, Array.getElem?_map]
  cases scopes.cells[id]? with
  | none => rfl
  | some scope => exact getElem?_renameValues scope.bindings name

@[simp] theorem contains_rename (id : ScopeId) (name : String) :
    (scopes.rename r).contains id name = scopes.contains id name := by
  simp only [contains, own?_rename, Option.isSome_map]

theorem push_rename (parent : Option ScopeId) : (scopes.rename r).push parent =
    ((scopes.push parent).1, (scopes.push parent).2.rename r) := by
  simp [push, rename]

/-- To define and to rename are the same in either order. -/
theorem define_rename (id : ScopeId) (name : String) (value : Value) :
    (scopes.rename r).define id name (value.rename r) = (scopes.define id name value).rename r := by
  simp only [define, rename, Scopes.mk.injEq]
  apply Array.ext_getElem?
  intro other
  simp only [Array.getElem?_modify, Array.getElem?_map]
  split
  · cases scopes.cells[other]? with
    | none => rfl
    | some scope => simp [renameValues_insert]
  · rfl

/-- The search through scopes looks at names only. -/
@[simp] theorem owner?_rename (id : ScopeId) (name : String) :
    (scopes.rename r).owner? id name = scopes.owner? id name := by
  have within (fuel : Nat) (id : ScopeId) :
      (scopes.rename r).ownerWithin? name fuel id = scopes.ownerWithin? name fuel id := by
    induction fuel generalizing id with
    | zero => rfl
    | succ fuel ih => simp only [ownerWithin?, contains_rename, parent?_rename, ih]
  have size : (scopes.rename r).cells.size = scopes.cells.size := Array.size_map
  rw [owner?, owner?, size, within]

@[simp] theorem ancestor?_rename (hops : Nat) (id : ScopeId) :
    (scopes.rename r).ancestor? hops id = scopes.ancestor? hops id := by
  induction hops generalizing id with
  | zero => rfl
  | succ hops ih => simp only [ancestor?, parent?_rename, ih]

theorem rename_rename (s : Renaming) :
    (scopes.rename s).rename r = scopes.rename (r.comp s) := by
  simp [rename, Function.comp_def, renameValues_renameValues]

@[simp] theorem rename_same : scopes.rename .same = scopes := by
  simp [rename]

end Scopes

/-! ## Machines -/

namespace State

variable (table : Locals) (m : State)

theorem rename_rename (s : Renaming) (table' : Locals) :
    (m.rename s table').rename r table = m.rename (r.comp s) table := by
  simp only [rename, Scopes.rename_rename, Array.map_map, Function.comp_def,
    renameValues_renameValues]

@[simp] theorem rename_same : m.rename .same table = { m with locals := table } := by
  have values : renameValues .same = id := funext renameValues_same
  simp [rename, values]

theorem pushScope_rename (parent : Option ScopeId) : (m.rename r table).pushScope parent =
    ((m.pushScope parent).1, (m.pushScope parent).2.rename r table) := by
  simp only [pushScope, rename, Scopes.push_rename]

theorem define_rename (id : ScopeId) (name : String) (value : Value) :
    (m.rename r table).define id name (value.rename r) =
      (m.define id name value).rename r table := by
  simp only [define, rename, Scopes.define_rename]

theorem newObject_rename (c : ObjectClass) : (m.rename r table).newObject (c.rename r) =
    ((m.newObject c).1.rename r, (m.newObject c).2.rename r table) := by
  simp [newObject, rename, Instance.rename]

/-- A field of a renamed object is the field, renamed. -/
theorem field?_rename (o : Instance) (name : String) :
    (m.rename r table).field? (o.rename r) name = (m.field? o name).map (Value.rename r) := by
  simp only [field?, rename, Instance.rename, Array.getElem?_map]
  cases m.objects[o.id]? with
  | none => rfl
  | some fields => exact getElem?_renameValues fields name

/-- To write a field and to rename are the same in either order. -/
theorem setField_rename (o : Instance) (name : String) (value : Value) :
    (m.rename r table).setField (o.rename r) name (value.rename r) =
      (m.setField o name value).rename r table := by
  simp only [setField, rename, Instance.rename, State.mk.injEq, and_true, true_and]
  apply Array.ext_getElem?
  intro other
  simp only [Array.getElem?_modify, Array.getElem?_map]
  split
  · cases m.objects[other]? with
    | none => rfl
    | some fields => simp [renameValues_insert]
  · rfl

/-- To bind a method and to rename are the same in either order. -/
theorem bindMethod_rename (method : Closure) (o : Instance) :
    (m.rename r table).bindMethod (method.rename r) (o.rename r) =
      ((m.bindMethod method o).1.rename r, (m.bindMethod method o).2.rename r table) := by
  have pushed := m.pushScope_rename (r := r) table (some method.scope)
  simp only [bindMethod, Closure.rename, pushed]
  exact congrArg (Prod.mk _) (define_rename table _ _ "this" (.object o))

end State

end ClassScript.Machine
