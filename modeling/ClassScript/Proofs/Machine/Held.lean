import ClassScript.Proofs.Machine.Rooted
import ClassScript.Proofs.Machine.Safe

/-!
# The functions that a machine holds

A function is held where a scope or a field has it: as a value, or as a method of a class,
be it one that a subclass hides (`State.Has`). On a grounded machine every function that is
held has its scope among those of the machine, and was declared by an accepted program; the
scopes form a tree, and the current one is in it (`Grounded`). Every step of a run leaves
such a machine, whatever code it runs (`Lands`).
-/

namespace ClassScript.Object

/-- The closure is a method of the class, of its own or of a class above. -/
inductive ObjectClass.Has (closure : Closure) : ObjectClass → Prop
  | own {c : ObjectClass} {name : String} (found : c.methods[name]? = some closure) :
      Has closure c
  | inherited {c superclass : ObjectClass} (parent : c.superclass = some superclass)
      (has : Has closure superclass) : Has closure c

/-- The closure can be reached from the value, without the machine. -/
inductive Value.Has (closure : Closure) : Value → Prop
  | function {id : ObjectId} : Has closure (.function id closure)
  | cls {c : ObjectClass} (has : c.Has closure) : Has closure (.cls c)
  | object {o : Instance} (has : o.cls.Has closure) : Has closure (.object o)

/-- A method that is found is one that the class has. -/
theorem ObjectClass.has_of_method? {name : String} {method : Closure} :
    ∀ c : ObjectClass, c.method? name = some method → c.Has method
  | ⟨_, _, none, methods⟩, found => .own found
  | ⟨_, _, some superclass, methods⟩, found => by
    unfold method? at found
    split at found
    · next method' there =>
      cases found
      exact .own there
    · exact .inherited rfl (superclass.has_of_method? found)

end ClassScript.Object

namespace ClassScript.Machine

open Syntax Parsing Object Binding

/-- Data hold no closure. -/
theorem IsData.has_not {v : Value} (data : IsData v) (closure : Closure) : ¬ v.Has closure := by
  intro has
  cases has <;> exact data

/-- A scope or an object of the machine has the closure. -/
inductive State.Has (m : State) (closure : Closure) : Prop
  | bound {id : ScopeId} {name : String} {value : Value}
      (bound : m.scopes.own? id name = some value) (has : value.Has closure)
  | field {id : Nat} {fields : Fields} {name : String} {value : Value}
      (found : m.objects[id]? = some fields) (set : fields[name]? = some value)
      (has : value.Has closure)

section Definitions

variable (inputs : List Input) (m : State)

/-- The walks over the inputs come to the piece. -/
def Visited (node : Node) : Prop := ∃ v, Seen inputs v ∧ v.node = node

/-- The closure's scope is there, and its code is in one of the inputs. -/
structure Placed (closure : Closure) : Prop where
  scope : closure.scope < m.scopes.size
  code : Visited inputs (.function closure.declaration)

/-- All that can be called by way of the value is placed. -/
def PlacedValue (v : Value) : Prop := ∀ closure, v.Has closure → Placed inputs m closure

def PlacedClass (c : ObjectClass) : Prop := ∀ closure, c.Has closure → Placed inputs m closure

/-- The scopes are a tree, and what the machine holds is placed in it. The host has no
function but the clock. -/
structure Grounded : Prop where
  tree : m.scopes.Rooted m.globals
  current : m.current < m.scopes.size
  held : ∀ closure, m.Has closure → Placed inputs m closure
  hosts : ∀ action ∈ m.hosts, action = .clock

end Definitions

/-- The second machine comes later: it has the scopes of the first one, in their places,
with their names, and the same global scope. -/
structure Later (m m' : State) : Prop where
  scopes : m.scopes.Extends m'.scopes
  globals : m'.globals = m.globals

theorem Later.refl (m : State) : Later m m := ⟨.refl _, rfl⟩

theorem Later.trans {a b c : State} (first : Later a b) (second : Later b c) : Later a c :=
  ⟨first.scopes.trans second.scopes, second.globals.trans first.globals⟩

theorem Later.pushScope (m : State) (parent : Option ScopeId) :
    Later m (m.pushScope parent).2 :=
  ⟨.push .., rfl⟩

theorem Later.define (m : State) (id : ScopeId) (name : String) (value : Value) :
    Later m (m.define id name value) :=
  ⟨.define .., rfl⟩

/-- A new scope is there, and it stays. -/
theorem Later.inside_pushScope {m m' : State} {parent : Option ScopeId}
    (later : Later (m.pushScope parent).2 m') : (m.pushScope parent).1 < m'.scopes.size := by
  refine Nat.lt_of_lt_of_le ?_ later.scopes.size
  show m.scopes.size < (m.scopes.push parent).2.size
  rw [Scopes.size_push]
  exact Nat.lt_succ_self _

/-- A machine that has grown is a later one. -/
theorem Grows.later {names : List String} {m m' : State} (g : Grows names m m') : Later m m' :=
  ⟨g.scopes, g.globals⟩

variable {inputs : List Input} {m m' : State}

section Values

/-- What is placed stays placed. -/
theorem Placed.mono {closure : Closure} (h : Placed inputs m closure) (later : Later m m') :
    Placed inputs m' closure :=
  ⟨Nat.lt_of_lt_of_le h.scope later.scopes.size, h.code⟩

/-- What is placed stays so in later machines. -/
theorem PlacedValue.mono {v : Value} (h : PlacedValue inputs m v) (later : Later m m') :
    PlacedValue inputs m' v :=
  fun closure has => (h closure has).mono later

theorem PlacedClass.mono {c : ObjectClass} (h : PlacedClass inputs m c) (later : Later m m') :
    PlacedClass inputs m' c :=
  fun closure has => (h closure has).mono later

theorem PlacedClass.value {c : ObjectClass} (h : PlacedClass inputs m c) :
    PlacedValue inputs m (.cls c) := by
  rintro closure ⟨⟩
  exact h closure ‹_›

/-- An object is placed if its class is, since its fields are looked at when they are read. -/
theorem PlacedClass.object {o : Instance} (h : PlacedClass inputs m o.cls) :
    PlacedValue inputs m (.object o) := by
  rintro closure ⟨⟩
  exact h closure ‹_›

theorem PlacedValue.ofClass {c : ObjectClass} (h : PlacedValue inputs m (.cls c)) :
    PlacedClass inputs m c :=
  fun closure has => h closure (.cls has)

theorem PlacedValue.ofObject {o : Instance} (h : PlacedValue inputs m (.object o)) :
    PlacedClass inputs m o.cls :=
  fun closure has => h closure (.object has)

theorem Placed.value {closure : Closure} (h : Placed inputs m closure) (id : ObjectId) :
    PlacedValue inputs m (.function id closure) := by
  rintro _ ⟨⟩
  exact h

theorem IsData.placed {v : Value} (data : IsData v) : PlacedValue inputs m v :=
  fun closure has => absurd has (data.has_not closure)

theorem placedValue_host (f : HostRef) : PlacedValue inputs m (.host f) := by
  rintro closure ⟨⟩

end Values

/-! ## Grounded machines -/

namespace Grounded

variable (grounded : Grounded inputs m)
include grounded

/-- The values that scopes bind are placed. -/
theorem bound {id : ScopeId} {name : String} {value : Value}
    (bound : m.scopes.own? id name = some value) : PlacedValue inputs m value :=
  fun closure has => grounded.held closure (.bound bound has)

/-- The scopes and the fields are all that matters. -/
theorem congr (scopes : m'.scopes = m.scopes) (objects : m'.objects = m.objects)
    (globals : m'.globals = m.globals) (current : m'.current = m.current)
    (hosts : m'.hosts = m.hosts) : Grounded inputs m' where
  tree := by rw [scopes, globals]; exact grounded.tree
  current := by rw [scopes, current]; exact grounded.current
  held closure has := by
    have later : Later m m' := ⟨scopes ▸ .refl _, globals⟩
    refine Placed.mono (grounded.held closure ?_) later
    cases has with
    | bound bound has => exact .bound (scopes ▸ bound) has
    | field found set has => exact .field (objects ▸ found) set has
  hosts := by rw [hosts]; exact grounded.hosts

/-- Another scope is current. -/
theorem move {scope : ScopeId} (inside : scope < m.scopes.size) :
    Grounded inputs { m with current := scope } where
  tree := grounded.tree
  current := inside
  held closure has := by
    refine Placed.mono (grounded.held closure ?_) ⟨.refl _, rfl⟩
    cases has with
    | bound bound has => exact .bound bound has
    | field found set has => exact .field found set has
  hosts := grounded.hosts

/-- A new scope inside one that is there. -/
theorem pushScope {parent : ScopeId} (inside : parent < m.scopes.size) :
    Grounded inputs (m.pushScope (some parent)).2 where
  tree := grounded.tree.push inside
  current := by
    show m.current < (m.scopes.push (some parent)).2.size
    rw [Scopes.size_push]
    exact Nat.lt_succ_of_lt grounded.current
  held closure has := by
    refine Placed.mono (grounded.held closure ?_) (.pushScope m (some parent))
    cases has with
    | @bound id name value bound has =>
      exact .bound ((m.scopes.own?_push id name _).symm.trans bound) has
    | field found set has => exact .field found set has
  hosts := grounded.hosts

/-- A name is bound to a placed value. -/
theorem define {value : Value} (placed : PlacedValue inputs m value) (id : ScopeId)
    (name : String) : Grounded inputs (m.define id name value) where
  tree := grounded.tree.define id name value
  current := by simpa [State.define] using grounded.current
  held closure has := by
    refine Placed.mono ?_ (.define m id name value)
    cases has with
    | bound bound has =>
      simp only [State.define, Scopes.own?_define] at bound
      split at bound
      · cases bound
        exact placed closure has
      · exact grounded.held closure (.bound bound has)
    | field found set has => exact grounded.held closure (.field found set has)
  hosts := grounded.hosts

/-- A field is set to a placed value. -/
theorem setField {value : Value} (placed : PlacedValue inputs m value) (o : Instance)
    (name : String) : Grounded inputs (m.setField o name value) where
  tree := grounded.tree
  current := grounded.current
  held closure has := by
    refine Placed.mono (m := m) ?_ ⟨.refl _, rfl⟩
    cases has with
    | bound bound has => exact grounded.held closure (.bound bound has)
    | @field id fields other value' found set has =>
      simp only [State.setField, Array.getElem?_modify] at found
      -- the fields are those of the object, with the new one, or of another object
      split at found
      · obtain ⟨old, there, rfl⟩ := Option.map_eq_some_iff.mp found
        rw [Std.ExtTreeMap.getElem?_insert] at set
        split at set
        · cases set
          exact placed closure has
        · exact grounded.held closure (.field there set has)
      · exact grounded.held closure (.field found set has)
  hosts := grounded.hosts

/-- A new object has no fields. -/
theorem newObject (cls : ObjectClass) : Grounded inputs (m.newObject cls).2 where
  tree := grounded.tree
  current := grounded.current
  held closure has := by
    refine Placed.mono (m := m) (grounded.held closure ?_) ⟨.refl _, rfl⟩
    cases has with
    | bound bound has => exact .bound bound has
    | @field id fields name value found set has =>
      simp only [State.newObject, Array.getElem?_push] at found
      split at found
      · cases found
        simp at set
      · exact .field found set has
  hosts := grounded.hosts

/-- A method bound to an object has a new scope, inside its own one. -/
theorem bindMethod {method : Closure} {o : Instance} (placed : Placed inputs m method)
    (object : PlacedClass inputs m o.cls) :
    Grounded inputs (m.bindMethod method o).2 ∧
      Placed inputs (m.bindMethod method o).2 (m.bindMethod method o).1 := by
  let pushed := m.pushScope (some method.scope)
  have grown : Grounded inputs pushed.2 := grounded.pushScope placed.scope
  have receiver : PlacedValue inputs pushed.2 (.object o) := (object.mono (.pushScope ..)).object
  have bound : Later pushed.2 (m.bindMethod method o).2 := .define ..
  exact ⟨grown.define receiver pushed.1 "this", ⟨bound.inside_pushScope, placed.code⟩⟩

/-- Names are bound to placed values one after another. -/
theorem bindAll (scope : ScopeId) {bindings : List (Name × Value)}
    (placed : ∀ b ∈ bindings, PlacedValue inputs m b.2) :
    Grounded inputs (bindAll scope bindings m) := by
  induction bindings generalizing m with
  | nil => exact grounded
  | cons binding rest ih =>
    have first : Grounded inputs (m.define scope binding.1.text binding.2) :=
      grounded.define (placed binding List.mem_cons_self) ..
    refine ih first fun b inside => ?_
    exact (placed b (List.mem_cons_of_mem _ inside)).mono (.define ..)

end Grounded

/-! ## Steps -/

/-- From a machine on, a computation leaves a grounded machine, however it ends, and what
it gives is of the stated kind. -/
structure Lands {α : Type} (inputs : List Input) (m : State) (x : Run α)
    (good : α → State → Prop) : Prop where
  ok : ∀ a m', x m = .ok a m' → Grounded inputs m' ∧ good a m'
  error : ∀ e m', x m = .error e m' → Grounded inputs m'

namespace Lands

variable {α : Type} {good : α → State → Prop}

theorem of_ok {x : Run α} {a : α} (h : x m = .ok a m') (grounded : Grounded inputs m')
    (holds : good a m') : Lands inputs m x good where
  ok a' m'' same := by
    rw [h] at same
    cases same
    exact ⟨grounded, holds⟩
  error e m'' same := by
    rw [h] at same
    cases same

theorem of_error {x : Run α} {e : Stop} (h : x m = .error e m') (grounded : Grounded inputs m') :
    Lands inputs m x good where
  ok a' m'' same := by
    rw [h] at same
    cases same
  error e' m'' same := by
    rw [h] at same
    cases same
    exact grounded

theorem congr {x y : Run α} (same : x m = y m) (h : Lands inputs m y good) :
    Lands inputs m x good where
  ok a m' result := h.ok a m' (same ▸ result)
  error e m' result := h.error e m' (same ▸ result)

end Lands

section Steps

variable (grounded : Grounded inputs m)
include grounded

/-- A result that does not touch the machine. -/
theorem lands_liftExcept {α : Type} {r : Except Fault α} {good : α → State → Prop}
    (holds : ∀ a, r = .ok a → good a m) : Lands inputs m (liftExcept r) good := by
  cases r with
  | ok a => exact .of_ok rfl grounded (holds a rfl)
  | error fault => exact .of_error rfl grounded

theorem lands_stop {α : Type} {good : α → State → Prop} (fault : Fault) :
    Lands inputs m (stop fault : Run α) good :=
  .of_error rfl grounded

/-- Operators give data. -/
theorem lands_givesData {r : Except Fault Value} (gives : GivesData r) :
    Lands inputs m (liftExcept r) fun v m' => PlacedValue inputs m' v := by
  refine lands_liftExcept grounded ?_
  rintro v rfl
  exact IsData.placed gives

/-- What a name stands for is bound somewhere. -/
theorem placed_of_getAt {hops : Nat} {id : ScopeId} {name : String} {value : Value}
    (read : m.scopes.getAt hops id name = .ok value) : PlacedValue inputs m value := by
  obtain ⟨scope, -, bound⟩ := Scopes.own?_of_getAt read
  exact grounded.bound bound

/-- A variable has a value that is placed, since all bindings are. -/
theorem lands_readVariable (id : NodeId) (name : Name) :
    Lands inputs m (readVariable id name) fun v m' => PlacedValue inputs m' v := by
  rcases readVariable_cases id name m with ⟨scope, value, bound, out⟩ | ⟨fault, out⟩
  · exact .of_ok out grounded (grounded.bound bound)
  · exact .of_error out grounded

theorem lands_writeVariable (target : Occurrence) {value : Value}
    (placed : PlacedValue inputs m value) :
    Lands inputs m (writeVariable target value) fun _ _ => True := by
  rcases writeVariable_cases target value m with ⟨owner, out⟩ | ⟨fault, out⟩
  · exact .of_ok out (grounded.define placed owner target.name.text) trivial
  · exact .of_error out grounded

theorem lands_define (name : String) {value : Value} (placed : PlacedValue inputs m value) :
    Lands inputs m (define name value) fun _ _ => True :=
  .of_ok rfl (grounded.define placed ..) trivial

theorem lands_assign (name : Name) {value : Value} (placed : PlacedValue inputs m value) :
    Lands inputs m (assign name value) fun _ _ => True := by
  rcases assign_cases name value m with ⟨owner, out⟩ | out
  · exact .of_ok out (grounded.define placed owner name.text) trivial
  · exact .of_error out grounded

/-- A function is declared in the current scope. -/
theorem lands_newFunction {d : FunctionDecl} (code : Visited inputs (.function d)) :
    Lands inputs m (newFunction d) fun v m' => PlacedValue inputs m' v := by
  refine .of_ok rfl (grounded.congr rfl rfl rfl rfl rfl) ?_
  exact Placed.value ⟨grounded.current, code⟩ _

theorem lands_newObject {cls : ObjectClass} (placed : PlacedClass inputs m cls) :
    Lands inputs m (newObject cls) fun o m' => o.cls = cls ∧ PlacedClass inputs m' cls := by
  have later : Later m (m.newObject cls).2 := ⟨.refl _, rfl⟩
  exact .of_ok rfl (grounded.newObject cls) ⟨rfl, placed.mono later⟩

theorem lands_bindMethod {method : Closure} {o : Instance} (placed : Placed inputs m method)
    (object : PlacedClass inputs m o.cls) :
    Lands inputs m (bindMethod method o) fun c m' => Placed inputs m' c := by
  obtain ⟨grown, bound⟩ := grounded.bindMethod placed object
  exact .of_ok rfl grown bound

theorem lands_methodValue {method : Closure} {o : Instance} (placed : Placed inputs m method)
    (object : PlacedClass inputs m o.cls) :
    Lands inputs m (methodValue method o) fun v m' => PlacedValue inputs m' v := by
  obtain ⟨grown, bound⟩ := grounded.bindMethod placed object
  have same : Later (m.bindMethod method o).2
      ((m.bindMethod method o).2.newFunction (m.bindMethod method o).1).2 := ⟨.refl _, rfl⟩
  exact .of_ok rfl (grown.congr rfl rfl rfl rfl rfl) ((bound.value _).mono same)

/-- A property is a field, whose value is placed, or a method, which is bound in a new scope. -/
theorem lands_readProperty {subject : Value} (name : Name)
    (placed : PlacedValue inputs m subject) :
    Lands inputs m (readProperty subject name) fun v m' => PlacedValue inputs m' v := by
  rcases readProperty_cases subject name m with
    ⟨o, value, rfl, field, out⟩ | ⟨o, method, rfl, -, found, out⟩ | ⟨fault, -, out⟩
  · refine .of_ok out grounded fun closure has => ?_
    obtain ⟨fields, found, set⟩ := Option.bind_eq_some_iff.mp field
    exact grounded.held closure (.field found set has)
  · have known := placed.ofObject method (o.cls.has_of_method? found)
    exact (lands_methodValue grounded known placed.ofObject).congr out
  · exact .of_error out grounded

theorem lands_writeField (o : Instance) (name : String) {value : Value}
    (placed : PlacedValue inputs m value) :
    Lands inputs m (writeField o name value) fun _ _ => True :=
  .of_ok rfl (grounded.setField placed o name) trivial

/-- A method of a superclass is bound in a new scope, inside the one where it was declared. -/
theorem lands_readSuper (id : NodeId) (method : Name) :
    Lands inputs m (readSuper id method) fun v m' => PlacedValue inputs m' v := by
  rcases readSuper_cases id method m with
    ⟨hops, superclass, o, found, parent, receiver, has, read⟩ | ⟨fault, read⟩
  · have methods := (placed_of_getAt grounded parent).ofClass
    have object := (placed_of_getAt grounded receiver).ofObject
    exact (lands_methodValue grounded (methods found (superclass.has_of_method? has)) object).congr
      (read m (.refl m))
  · exact .of_error (read m (.refl m)) grounded

theorem lands_print (value : Value) : Lands inputs m (print value) fun _ _ => True := by
  obtain ⟨sink, out | out⟩ := print_cases value m
  · exact .of_ok out (grounded.congr rfl rfl rfl rfl rfl) trivial
  · exact .of_error out (grounded.congr rfl rfl rfl rfl rfl)

theorem lands_callHost (f : HostRef) (arguments : List Value) (line : Nat) :
    Lands inputs m (callHost f arguments line) fun v m' => PlacedValue inputs m' v := by
  rcases callHost_cases grounded.hosts f arguments line with ⟨reading, clock, out⟩ | out
  · exact .of_ok out (grounded.congr rfl rfl rfl rfl rfl) (IsData.placed trivial)
  · exact .of_error out grounded

theorem lands_checkCall (f : Value) (vs : List Value) (line : Nat) :
    Lands inputs m (checkCall f vs line) fun _ _ => True := by
  rcases checkCall_cases f vs line m with ⟨arity, -, -, out⟩ | ⟨fault, -, out⟩
  · exact .of_ok out grounded trivial
  · exact .of_error out grounded

theorem lands_asSuperclass {value : Value} (line : Nat) (placed : PlacedValue inputs m value) :
    Lands inputs m (asSuperclass value line) fun c m' => PlacedClass inputs m' c := by
  cases value with
  | cls c => exact .of_ok rfl grounded placed.ofClass
  | _ => exact .of_error rfl grounded

theorem lands_innerScope :
    Lands inputs m innerScope fun scope m' => scope < m'.scopes.size :=
  .of_ok rfl (grounded.pushScope grounded.current) (Later.refl _).inside_pushScope

/-- A call has a new scope inside the function's own one. -/
theorem lands_callScope {closure : Closure} {arguments : List Value}
    (placed : Placed inputs m closure) (values : ∀ v ∈ arguments, PlacedValue inputs m v) :
    Lands inputs m (callScope closure arguments) fun scope m' => scope < m'.scopes.size := by
  let pushed := m.pushScope (some closure.scope)
  have grown : Grounded inputs pushed.2 := grounded.pushScope placed.scope
  have bound (bindings : List (Name × Value)) :
      Later pushed.2 (bindAll pushed.1 bindings pushed.2) :=
    ⟨extends_bindAll .., globals_bindAll ..⟩
  refine .of_ok (callScope_eq ..) (grown.bindAll _ ?_) (bound _).inside_pushScope
  intro b inside
  obtain ⟨-, argument⟩ := List.of_mem_zip inside
  exact (values b.2 argument).mono (.pushScope ..)

/-- The result of a call is what the body returned, or the receiver of an initializer. -/
theorem lands_callResult (closure : Closure) {completion : Completion}
    (returned : ∀ v, completion = .returned v → PlacedValue inputs m v) :
    Lands inputs m (callResult closure completion) fun v m' => PlacedValue inputs m' v := by
  unfold callResult
  split
  · refine .congr (y := liftExcept (m.scopes.getAt 0 closure.scope "this")) rfl ?_
    exact lands_liftExcept grounded fun v read => placed_of_getAt grounded read
  · cases completion with
    | normal => exact .of_ok rfl grounded (IsData.placed trivial)
    | returned v => exact .of_ok rfl grounded (returned v rfl)
    | broke => exact .of_error rfl grounded
    | continued => exact .of_error rfl grounded

/-- The scope of a class's methods: the current one, or a new one that binds `super`. -/
theorem lands_classScope {superclass : Option ObjectClass}
    (placed : ∀ c ∈ superclass, PlacedClass inputs m c) :
    Lands inputs m (classScope superclass) fun scope m' =>
      scope < m'.scopes.size ∧ ∀ c ∈ superclass, PlacedClass inputs m' c := by
  cases superclass with
  | none => exact .of_ok rfl grounded ⟨grounded.current, placed⟩
  | some c =>
    let pushed := m.pushScope (some m.current)
    have grown : Grounded inputs pushed.2 := grounded.pushScope grounded.current
    have later : Later m pushed.2 := .pushScope ..
    have bound : Later pushed.2 (pushed.2.define pushed.1 "super" (.cls c)) := .define ..
    have value : PlacedValue inputs pushed.2 (.cls c) := ((placed c rfl).mono later).value
    exact .of_ok rfl (grown.define value pushed.1 "super")
      ⟨bound.inside_pushScope, fun c' same => (placed c' same).mono (later.trans bound)⟩

/-- A class has the declared methods, and those of the class above. -/
theorem lands_newClass (name : String) {superclass : Option ObjectClass}
    {ds : List FunctionDecl} {scope : ScopeId} (inside : scope < m.scopes.size)
    (code : ∀ d ∈ ds, Visited inputs (.function d))
    (placed : ∀ c ∈ superclass, PlacedClass inputs m c) :
    Lands inputs m (newClass name superclass (methodTable scope ds)) fun cls m' =>
      PlacedClass inputs m' cls := by
  refine .of_ok rfl (grounded.congr rfl rfl rfl rfl rfl) fun closure has => ?_
  cases has with
  | own found =>
    obtain ⟨d, declared, rfl⟩ := mem_of_methodTable found
    exact ⟨inside, code d declared⟩
  | inherited parent has =>
    exact (placed _ parent closure has).mono ⟨.refl _, rfl⟩

end Steps

end ClassScript.Machine
