import ClassScript.Proofs.Machine.Frame
import ClassScript.Proofs.Machine.Safe

/-!
# The values that a machine holds

A machine holds values in its scopes and in the fields of its objects. If all of them are of
one kind, a kind that data and functions belong to anyhow, then a step of a run that is handed
such values leaves a machine of which this is true again, and gives such a value (`Handles`).
No step but two changes what fields there are (`SameObjects`): one makes an object, the other
sets a field.
-/

namespace ClassScript.Machine

open Syntax Object

/-! ## Machines that hold values of a kind -/

/-- All values that the machine holds are of the kind. The host has no function but the
clock. -/
structure Filled (kind : Value → Prop) (m : State) : Prop where
  bound : ∀ id name value, m.scopes.own? id name = some value → kind value
  field : ∀ (o : Instance) name value, m.field? o name = some value → kind value
  hosts : ∀ action ∈ m.hosts, action = .clock

/-- Data and functions are of the kind, whatever they are. -/
structure Lenient (kind : Value → Prop) : Prop where
  data : ∀ v, IsData v → kind v
  function : ∀ id closure, kind (.function id closure)

/-! ## Fields -/

section Fields

variable {m : State} {o other : Instance} {name text : String} {value : Value}

/-- A new object has no fields, and the other objects have what they had. -/
theorem field?_newObject (cls : ObjectClass) :
    (m.newObject cls).2.field? o name = m.field? o name := by
  simp only [State.field?, State.newObject, Array.getElem?_push]
  split
  · next last => simp [last]
  · rfl

/-- A field that is set has the value, if its object is there. All other fields are as they
were. -/
theorem field?_setField :
    (m.setField o name value).field? other text =
      if o.id = other.id ∧ name = text ∧ o.id < m.objects.size then some value
      else m.field? other text := by
  simp only [State.field?, State.setField, Array.getElem?_modify]
  by_cases same : o.id = other.id
  · rw [← same]
    by_cases there : o.id < m.objects.size
    · simp [there, Std.ExtTreeMap.getElem?_insert]
    · simp [there]
  · simp [same]

end Fields

namespace Filled

variable {kind more : Value → Prop} {m m' : State}

/-- A machine that is filled with values of a kind is filled with values of any weaker one. -/
theorem mono (weaker : ∀ v, kind v → more v) (filled : Filled kind m) : Filled more m where
  bound id name value held := weaker value (filled.bound id name value held)
  field o name value held := weaker value (filled.field o name value held)
  hosts := filled.hosts

variable (filled : Filled kind m)
include filled

/-- Scopes and fields are all that matters. -/
theorem congr (scopes : m'.scopes = m.scopes) (objects : m'.objects = m.objects)
    (hosts : m'.hosts = m.hosts) : Filled kind m' where
  bound := by rw [scopes]; exact filled.bound
  field := by unfold State.field?; rw [objects]; exact filled.field
  hosts := by rw [hosts]; exact filled.hosts

/-- A value of the kind may be bound. -/
theorem define (id : ScopeId) (name : String) {value : Value} (new : kind value) :
    Filled kind (m.define id name value) where
  bound other text v held := by
    simp only [State.define, Scopes.own?_define] at held
    split at held
    · cases held
      exact new
    · exact filled.bound other text v held
  field := filled.field
  hosts := filled.hosts

theorem pushScope (parent : Option ScopeId) : Filled kind (m.pushScope parent).2 where
  bound id name value held :=
    filled.bound id name value ((m.scopes.own?_push id name parent).symm.trans held)
  field := filled.field
  hosts := filled.hosts

theorem newObject (cls : ObjectClass) : Filled kind (m.newObject cls).2 where
  bound := filled.bound
  field o name value held := filled.field o name value (field?_newObject cls ▸ held)
  hosts := filled.hosts

/-- A value of the kind may be written to a field. -/
theorem setField (o : Instance) (name : String) {value : Value} (new : kind value) :
    Filled kind (m.setField o name value) where
  bound := filled.bound
  field other text v held := by
    rw [field?_setField] at held
    split at held
    · cases held
      exact new
    · exact filled.field other text v held
  hosts := filled.hosts

/-- Names are bound one after another. -/
theorem bindAll (scope : ScopeId) {bindings : List (Name × Value)}
    (new : ∀ b ∈ bindings, kind b.2) : Filled kind (bindAll scope bindings m) := by
  induction bindings generalizing m with
  | nil => exact filled
  | cons binding rest ih =>
    exact ih (filled.define scope _ (new binding List.mem_cons_self))
      fun b inside => new b (List.mem_cons_of_mem _ inside)

/-- What is read by hops is of the kind, since all that is bound is. -/
theorem getAt {hops : Nat} {id : ScopeId} {name : String} {value : Value}
    (read : m.scopes.getAt hops id name = .ok value) : kind value := by
  obtain ⟨scope, -, bound⟩ := Scopes.own?_of_getAt read
  exact filled.bound _ _ _ bound

/-- A method bound to an object has a new scope, which binds the object. -/
theorem bindMethod (method : Closure) {o : Instance} (object : kind (.object o)) :
    Filled kind (m.bindMethod method o).2 :=
  (filled.pushScope (some method.scope)).define m.scopes.size "this" object

end Filled

/-! ## Reading a property -/

/-- A property is read once its object is evaluated. -/
theorem evaluate_get {n : Nat} {e : Expr} {name : Name} {m m₁ : State} {subject : Value}
    (evaluated : evaluate n e m = .ok subject m₁) :
    evaluate (n + 1) (.get e name) m = readProperty subject name m₁ := by
  simp only [evaluate, bind, EStateM.bind, evaluated]

/-! ## Steps -/

/-- From a machine on, a computation leaves a machine that holds values of the kind, however
it ends, and what it gives is as stated. -/
def Handles {α : Type} (kind : Value → Prop) (m : State) (x : Run α) (good : α → Prop) : Prop :=
  match x m with
  | .ok a m' => Filled kind m' ∧ good a
  | .error _ m' => Filled kind m'

section Steps

variable {kind : Value → Prop} {m : State} (lenient : Lenient kind) (filled : Filled kind m)
include filled

theorem handles_liftExcept {α : Type} {r : Except Fault α} {good : α → Prop}
    (holds : ∀ a, r = .ok a → good a) : Handles kind m (liftExcept r) good := by
  cases r with
  | ok a => exact ⟨filled, holds a rfl⟩
  | error fault => exact filled

include lenient in
/-- Operators give data. -/
theorem handles_givesData {r : Except Fault Value} (gives : GivesData r) :
    Handles kind m (liftExcept r) kind := by
  refine handles_liftExcept filled ?_
  rintro v rfl
  exact lenient.data v gives

theorem handles_stop {α : Type} {good : α → Prop} (fault : Fault) :
    Handles kind m (stop fault : Run α) good := filled

/-- A variable has a value of the kind. -/
theorem handles_readVariable (id : NodeId) (name : Name) :
    Handles kind m (readVariable id name) kind := by
  unfold Handles
  obtain ⟨scope, value, bound, read⟩ | ⟨fault, read⟩ := readVariable_cases id name m <;> rw [read]
  · exact ⟨filled, filled.bound scope _ value bound⟩
  · exact filled

theorem handles_writeVariable (target : Occurrence) {value : Value} (new : kind value) :
    Handles kind m (writeVariable target value) fun _ => True := by
  unfold Handles
  obtain ⟨owner, written⟩ | ⟨fault, written⟩ := writeVariable_cases target value m <;> rw [written]
  · exact ⟨filled.define owner _ new, trivial⟩
  · exact filled

theorem handles_assign (name : Name) {value : Value} (new : kind value) :
    Handles kind m (assign name value) fun _ => True := by
  unfold Handles
  obtain ⟨owner, written⟩ | written := assign_cases name value m <;> rw [written]
  · exact ⟨filled.define owner _ new, trivial⟩
  · exact filled

theorem handles_define (name : String) {value : Value} (new : kind value) :
    Handles kind m (define name value) fun _ => True :=
  ⟨filled.define m.current name new, trivial⟩

theorem handles_newObject (cls : ObjectClass) :
    Handles kind m (newObject cls) fun o => (m.newObject cls).1 = o :=
  ⟨filled.newObject cls, rfl⟩

theorem handles_bindMethod (method : Closure) {o : Instance} (object : kind (.object o)) :
    Handles kind m (bindMethod method o) fun _ => True :=
  ⟨filled.bindMethod method object, trivial⟩

include lenient in
theorem handles_newFunction (d : FunctionDecl) : Handles kind m (newFunction d) kind :=
  ⟨filled.congr rfl rfl rfl, lenient.function _ _⟩

include lenient in
theorem handles_methodValue (method : Closure) {o : Instance} (object : kind (.object o)) :
    Handles kind m (methodValue method o) kind :=
  ⟨(filled.bindMethod method object).congr rfl rfl rfl, lenient.function _ _⟩

include lenient in
/-- A property of a value is a field, or a method that is bound to it. -/
theorem handles_readProperty {subject : Value} (name : Name) (new : kind subject) :
    Handles kind m (readProperty subject name) kind := by
  unfold Handles
  rcases readProperty_cases subject name m with
    ⟨o, v, -, held, read⟩ | ⟨o, method, rfl, -, -, read⟩ | ⟨fault, -, read⟩
  · rw [read]
    exact ⟨filled, filled.field o _ v held⟩
  · rw [read]
    exact handles_methodValue lenient filled method new
  · rw [read]
    exact filled

include lenient in
/-- A method of a superclass is bound to the object that `this` has. -/
theorem handles_readSuper (id : NodeId) (name : Name) :
    Handles kind m (readSuper id name) kind := by
  unfold Handles
  rcases readSuper_cases id name m with ⟨hops, c, o, method, -, this, -, read⟩ | ⟨e, read⟩
  · rw [read m (.refl m)]
    exact handles_methodValue lenient filled method (filled.getAt this)
  · rw [read m (.refl m)]
    exact filled

theorem handles_writeField (o : Instance) (name : String) {value : Value} (new : kind value) :
    Handles kind m (writeField o name value) fun _ => True :=
  ⟨filled.setField o name new, trivial⟩

theorem handles_print (value : Value) : Handles kind m (print value) fun _ => True := by
  unfold Handles
  obtain ⟨sink, out | out⟩ := print_cases value m <;> rw [out]
  · exact ⟨filled.congr rfl rfl rfl, trivial⟩
  · exact filled.congr rfl rfl rfl

include lenient in
theorem handles_callHost (f : HostRef) (arguments : List Value) (line : Nat) :
    Handles kind m (callHost f arguments line) kind := by
  unfold Handles
  rcases callHost_cases filled.hosts f arguments line with ⟨reading, clock, out⟩ | out <;> rw [out]
  · exact ⟨filled.congr rfl rfl rfl, lenient.data _ trivial⟩
  · exact filled

theorem handles_checkCall (f : Value) (vs : List Value) (line : Nat) :
    Handles kind m (checkCall f vs line) fun _ => True := by
  unfold Handles
  rcases checkCall_cases f vs line m with ⟨arity, -, -, out⟩ | ⟨fault, -, out⟩ <;> rw [out]
  · exact ⟨filled, trivial⟩
  · exact filled

theorem handles_innerScope : Handles kind m innerScope fun _ => True :=
  ⟨filled.pushScope _, trivial⟩

/-- Arguments of the kind are bound in the scope of a call. -/
theorem handles_callScope (closure : Closure) {arguments : List Value}
    (new : ∀ v ∈ arguments, kind v) :
    Handles kind m (callScope closure arguments) fun _ => True := by
  refine ⟨(filled.pushScope (some closure.scope)).bindAll m.scopes.size fun b inside => ?_, trivial⟩
  exact new b.2 (List.of_mem_zip inside).2

include lenient in
/-- A call gives what its body returned, or the object of an initializer. -/
theorem handles_callResult (closure : Closure) {completion : Completion}
    (new : ∀ v, completion = .returned v → kind v) :
    Handles kind m (callResult closure completion) kind := by
  unfold callResult
  split
  · exact handles_liftExcept filled fun v read => filled.getAt read
  · cases completion with
    | normal => exact ⟨filled, lenient.data _ trivial⟩
    | returned v => exact ⟨filled, new v rfl⟩
    | broke => exact filled
    | continued => exact filled

theorem handles_asSuperclass (value : Value) (line : Nat) :
    Handles kind m (asSuperclass value line) fun c => value = .cls c := by
  cases value with
  | cls c => exact ⟨filled, rfl⟩
  | _ => exact filled

theorem handles_classScope {superclass : Option ObjectClass}
    (new : ∀ c ∈ superclass, kind (.cls c)) :
    Handles kind m (classScope superclass) fun _ => True := by
  cases superclass with
  | none => exact ⟨filled, trivial⟩
  | some c => exact ⟨(filled.pushScope _).define _ _ (new c rfl), trivial⟩

theorem handles_newClass (name : String) (superclass : Option ObjectClass)
    (methods : Std.ExtTreeMap String Closure) :
    Handles kind m (newClass name superclass methods) fun _ => True :=
  ⟨filled.congr rfl rfl rfl, trivial⟩

end Steps

/-! ## Steps that leave the fields alone -/

/-- There are the same objects, with the same fields. -/
def SameObjects (m m' : State) : Prop := m'.objects = m.objects

@[simp] theorem objects_bindAll (scope : ScopeId) (bindings : List (Name × Value)) (m : State) :
    (bindAll scope bindings m).objects = m.objects := by
  induction bindings generalizing m with
  | nil => rfl
  | cons binding rest ih => exact ih _

namespace SameObjects

variable {α : Type}

theorem liftExcept {r : Except Fault α} : Leaves SameObjects (Machine.liftExcept r) := by
  intro m
  cases r <;> rfl

theorem stop {fault : Fault} : Leaves SameObjects (Machine.stop fault : Run α) := fun _ => rfl

theorem readVariable {id : NodeId} {name : Name} :
    Leaves SameObjects (Machine.readVariable id name) :=
  fun m => liftExcept m

theorem writeVariable {target : Occurrence} {value : Value} :
    Leaves SameObjects (Machine.writeVariable target value) := by
  intro m
  unfold Machine.writeVariable
  cases writeTarget m target <;> rfl

theorem define {name : String} {value : Value} : Leaves SameObjects (Machine.define name value) :=
  fun _ => rfl

theorem assign {name : Name} {value : Value} : Leaves SameObjects (Machine.assign name value) := by
  intro m
  unfold Machine.assign
  cases m.scopes.target m.current name.text name.line <;> rfl

theorem newFunction {d : FunctionDecl} : Leaves SameObjects (Machine.newFunction d) := fun _ => rfl

theorem bindMethod {method : Closure} {o : Instance} :
    Leaves SameObjects (Machine.bindMethod method o) := fun _ => rfl

theorem readProperty {subject : Value} {name : Name} :
    Leaves SameObjects (Machine.readProperty subject name) := by
  intro m
  rcases readProperty_cases subject name m with
    ⟨o, v, -, -, read⟩ | ⟨o, method, -, -, -, read⟩ | ⟨fault, -, read⟩ <;> rw [read] <;> rfl

theorem readSuper {id : NodeId} {name : Name} : Leaves SameObjects (Machine.readSuper id name) := by
  intro m
  rcases readSuper_cases id name m with ⟨hops, c, o, method, -, -, -, read⟩ | ⟨e, read⟩ <;>
    rw [read m (.refl m)] <;> rfl

theorem print {value : Value} : Leaves SameObjects (Machine.print value) := by
  intro m
  unfold Machine.print
  dsimp only
  split <;> rfl

theorem callHost {f : HostRef} {arguments : List Value} {line : Nat} :
    Leaves SameObjects (Machine.callHost f arguments line) := by
  intro m
  unfold Machine.callHost
  cases m.hosts[f.id]? with
  | none => rfl
  | some action =>
    cases action with
    | clock => rfl
    | compute run => dsimp only; cases run arguments <;> rfl

theorem checkCall {f : Value} {vs : List Value} {line : Nat} :
    Leaves SameObjects (Machine.checkCall f vs line) := by
  intro m
  unfold Machine.checkCall
  cases f.arity? with
  | none => rfl
  | some expected => dsimp only; split <;> rfl

theorem innerScope : Leaves SameObjects Machine.innerScope := fun _ => rfl

theorem callScope {closure : Closure} {arguments : List Value} :
    Leaves SameObjects (Machine.callScope closure arguments) :=
  fun _ => objects_bindAll ..

theorem callResult {closure : Closure} {completion : Completion} :
    Leaves SameObjects (Machine.callResult closure completion) := by
  intro m
  unfold Machine.callResult
  split
  · exact liftExcept m
  · cases completion <;> rfl

theorem asSuperclass {value : Value} {line : Nat} :
    Leaves SameObjects (Machine.asSuperclass value line) := by
  intro m
  cases value <;> rfl

theorem classScope {superclass : Option ObjectClass} :
    Leaves SameObjects (Machine.classScope superclass) := by
  intro m
  cases superclass <;> rfl

theorem newClass {name : String} {superclass : Option ObjectClass}
    {methods : Std.ExtTreeMap String Closure} :
    Leaves SameObjects (Machine.newClass name superclass methods) := fun _ => rfl

end SameObjects

end ClassScript.Machine
