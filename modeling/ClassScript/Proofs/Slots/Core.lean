import ClassScript.Proofs.Machine.Looks
import ClassScript.Proofs.Slots.Blocks

/-!
# Runs of core forms

The core of a program does what the program does, on a store that holds the cores of all
functions: each step commutes with taking the core (`Commutes`), and so do expressions,
statements and calls (`commutes_effect`, `commutes_invokeUpTo`). A program and another one
with the same core therefore end alike, and write the same (`alike_of_core`).
-/

namespace ClassScript.Object

open Syntax

def Closure.core (c : Closure) : Closure := { c with declaration := c.declaration.core }

def coreMethods (methods : Std.ExtTreeMap String Closure) : Std.ExtTreeMap String Closure :=
  methods.map fun _ method => method.core

def ObjectClass.core : ObjectClass → ObjectClass
  | ⟨id, name, none, methods⟩ => ⟨id, name, none, coreMethods methods⟩
  | ⟨id, name, some superclass, methods⟩ =>
    ⟨id, name, some superclass.core, coreMethods methods⟩

def Instance.core (o : Instance) : Instance := ⟨o.id, o.cls.core⟩

/-- The value, with the cores of the functions in it. -/
def Value.core : Value → Value
  | .function id closure => .function id closure.core
  | .cls c => .cls c.core
  | .object o => .object o.core
  | other => other

def coreValues (values : Std.ExtTreeMap String Value) : Std.ExtTreeMap String Value :=
  values.map fun _ value => value.core

@[simp] theorem Closure.core_name (c : Closure) : c.core.name = c.name := by
  simp [Closure.name, Closure.core]

@[simp] theorem Closure.core_arity (c : Closure) : c.core.arity = c.arity := by
  simp [Closure.arity, Closure.core]

theorem ObjectClass.core_eq (c : ObjectClass) :
    c.core = ⟨c.id, c.name, c.superclass.map core, coreMethods c.methods⟩ := by
  obtain ⟨id, name, superclass, methods⟩ := c
  cases superclass <;> rfl

/-- A method is found where it was, and is the core of the one that was. -/
theorem ObjectClass.method?_core (text : String) (c : ObjectClass) :
    c.core.method? text = (c.method? text).map Closure.core := by
  match c with
  | ⟨id, name, none, methods⟩ =>
    simp only [core, method?, coreMethods, Std.ExtTreeMap.getElem?_map]
  | ⟨id, name, some superclass, methods⟩ =>
    simp only [core, method?, coreMethods, Std.ExtTreeMap.getElem?_map]
    cases methods[text]? with
    | some method => rfl
    | none => exact superclass.method?_core text

@[simp] theorem ObjectClass.core_arity (c : ObjectClass) : c.core.arity = c.arity := by
  rw [arity, arity, method?_core]
  cases c.method? initializerName with
  | none => rfl
  | some method => exact method.core_arity

theorem getElem?_coreValues (values : Std.ExtTreeMap String Value) (name : String) :
    (coreValues values)[name]? = values[name]?.map Value.core := by
  simp only [coreValues, Std.ExtTreeMap.getElem?_map]

theorem coreValues_insert (values : Std.ExtTreeMap String Value) (name : String)
    (value : Value) : coreValues (values.insert name value) =
      (coreValues values).insert name value.core := by
  apply Std.ExtTreeMap.ext_getElem?
  intro other
  simp only [getElem?_coreValues, Std.ExtTreeMap.getElem?_insert]
  split <;> rfl

theorem coreMethods_insert (methods : Std.ExtTreeMap String Closure) (name : String)
    (method : Closure) : coreMethods (methods.insert name method) =
      (coreMethods methods).insert name method.core := by
  apply Std.ExtTreeMap.ext_getElem?
  intro other
  simp only [coreMethods, Std.ExtTreeMap.getElem?_map, Std.ExtTreeMap.getElem?_insert]
  split <;> rfl

end ClassScript.Object

namespace ClassScript.Machine

open Syntax Object

def Completion.core : Completion → Completion
  | .returned value => .returned value.core
  | other => other

/-- A value and its core look the same to a program. -/
theorem Looks.core (v : Value) : Looks v v.core := by
  cases v with
  | function id c => exact .function id c.core_name c.core_arity
  | cls c =>
    refine .cls ?_ ?_ c.core_arity <;> rw [c.core_eq]
  | object o =>
    refine .object o.id ?_
    rw [o.cls.core_eq]
  | host f => exact .host f
  | nil | bool _ | number _ | string _ => exact .data trivial

/-- The table of the methods' cores. -/
theorem methodTable_core (place : Nat) (methods : List FunctionDecl) :
    methodTable place (FunctionDecl.coreAll methods) = coreMethods (methodTable place methods) := by
  have empty : (∅ : Std.ExtTreeMap String Closure) = coreMethods ∅ := by
    apply Std.ExtTreeMap.ext_getElem?
    intro name
    simp [coreMethods]
  have fold (table : Std.ExtTreeMap String Closure) :
      (FunctionDecl.coreAll methods).foldl (fun table method => table.insert method.name.text
          ⟨method, place, method.name.text == initializerName⟩) (coreMethods table) =
        coreMethods (methods.foldl (fun table method => table.insert method.name.text
          ⟨method, place, method.name.text == initializerName⟩) table) := by
    induction methods generalizing table with
    | nil => rfl
    | cons method rest ih =>
      rw [FunctionDecl.coreAll, List.foldl_cons, List.foldl_cons, ← ih, coreMethods_insert,
        method.core_name]
      rfl
  rw [methodTable, empty, fold]
  rfl

end ClassScript.Machine

namespace ClassScript.Slots

open Syntax Object Machine

/-- The store, where all code is in its core form. -/
def Store.core (σ : Store) : Store :=
  { σ with slots := σ.slots.map (Option.map Value.core), globals := coreValues σ.globals,
           objects := σ.objects.map coreValues }

/-- How a run ended, with the core of what it left. -/
def coreEnd {α β : Type} (act : α → β) :
    EStateM.Result Stop Store α → EStateM.Result Stop Store β
  | .ok a σ => .ok (act a) σ.core
  | .error e σ => .error e σ.core

/-- The clock is the only function of the host. -/
def OnlyClock (σ : Store) : Prop := ∀ action ∈ σ.hosts, action = .clock

/-- On the core of a store, the second computation does what the first one does on the
store. -/
def Commutes {α β : Type} (act : α → β) (x : Run α) (y : Run β) : Prop :=
  ∀ σ, OnlyClock σ → OnlyClock (final (x σ)) ∧ y σ.core = coreEnd act (x σ)

namespace Commutes

variable {α β α' β' : Type} {act : α → β} {act' : α' → β'} {x : Run α} {y : Run β}

theorem pure {a : α} {b : β} (same : b = act a) :
    Commutes act (Pure.pure a) (Pure.pure b) := by
  subst same
  exact fun σ clock => ⟨clock, rfl⟩

theorem throw (e : Stop) : Commutes act (throw e) (throw e) := fun _ clock => ⟨clock, rfl⟩

/-- Two computations that commute with the core, one after the other. -/
theorem bind {f : α → Run α'} {g : β → Run β'} (first : Commutes act x y)
    (rest : ∀ a, Commutes act' (f a) (g (act a))) : Commutes act' (x >>= f) (y >>= g) := by
  intro σ clock
  obtain ⟨clock', same⟩ := first σ clock
  cases ran : x σ with
  | ok a σ' =>
    rw [ran] at clock' same
    simp only [Bind.bind, EStateM.bind, ran, same, coreEnd]
    exact rest a σ' clock'
  | error e σ' =>
    rw [ran] at clock' same
    simp only [Bind.bind, EStateM.bind, ran, same, coreEnd]
    exact ⟨clock', trivial⟩

theorem ite {c c' : Prop} [Decidable c] [Decidable c'] {x' : Run α} {y' : Run β} (same : c' ↔ c)
    (yes : Commutes act x y) (no : Commutes act x' y') :
    Commutes act (if c then x else x') (if c' then y else y') := by
  by_cases h : c
  · rw [if_pos h, if_pos (same.mpr h)]
    exact yes
  · rw [if_neg h, if_neg fun h' => h (same.mp h')]
    exact no

end Commutes

/-! ## Steps -/

@[simp] theorem content?_core (σ : Store) (slot : Nat) :
    σ.core.content? slot = (σ.content? slot).map Value.core := by
  simp only [Store.content?, Store.core, Array.getElem?_map]
  cases σ.slots[slot]? <;> rfl

theorem bind_content?_core (σ : Store) (slot : Option Nat) :
    slot.bind σ.core.content? = (slot.bind σ.content?).map Value.core := by
  cases slot with
  | none => rfl
  | some slot => exact content?_core σ slot

/-- Filling a slot and taking the core may change places. -/
theorem fill_core (σ : Store) (slot : Nat) (value : Value) :
    σ.core.fill slot value.core = (σ.fill slot value).core := by
  simp only [Store.fill, Store.core, Store.mk.injEq, and_true]
  apply Array.ext_getElem?
  intro i
  simp only [Array.getElem?_setIfInBounds, Array.getElem?_map, Array.size_map]
  split
  · split <;> rfl
  · rfl

theorem bindLocal_core (σ : Store) (map : Map) (name : String) (value : Value) :
    σ.core.bindLocal map name value.core =
      ((σ.bindLocal map name value).1, (σ.bindLocal map name value).2.core) := by
  simp [Store.bindLocal, Store.allocate, Store.core]

theorem bindLocals_core (bound : List (Name × Value)) (map : Map) (σ : Store) :
    bindLocals (bound.map (Prod.map id Value.core)) map σ.core =
      ((bindLocals bound map σ).1, (bindLocals bound map σ).2.core) := by
  induction bound generalizing map σ with
  | nil => rfl
  | cons first rest ih =>
    simp only [bindLocals, List.map_cons, List.foldl_cons, Prod.map, id, bindLocal_core]
    exact ih _ _

theorem captured_core (σ : Store) (closure : Closure) :
    σ.core.captured closure.core = σ.captured closure := rfl

theorem field?_core (σ : Store) (o : Instance) (name : String) :
    σ.core.field? o.core name = (σ.field? o name).map Value.core := by
  simp only [Store.field?, Store.core, Instance.core, Array.getElem?_map]
  cases σ.objects[o.id]? with
  | none => rfl
  | some fields => exact getElem?_coreValues fields name

/-- Writing a field and taking the core may change places. -/
theorem setField_core (σ : Store) (o : Instance) (name : String) (value : Value) :
    σ.core.setField o.core name value.core = (σ.setField o name value).core := by
  simp only [Store.setField, Store.core, Instance.core, Store.mk.injEq, and_true, true_and]
  apply Array.ext_getElem?
  intro i
  simp only [Array.getElem?_modify, Array.getElem?_map]
  split
  · cases σ.objects[i]? with
    | none => rfl
    | some fields => simp [coreValues_insert]
  · rfl

namespace Commutes

theorem liftExcept {result : Except Fault Value} (data : GivesData result) :
    Commutes Value.core (liftExcept result) (liftExcept result) := by
  intro σ clock
  cases result with
  | ok v =>
    have same : v.core = v := by cases v <;> first | rfl | exact data.elim
    refine ⟨clock, ?_⟩
    show EStateM.Result.ok v σ.core = .ok v.core σ.core
    rw [same]
  | error fault => exact ⟨clock, rfl⟩

theorem declare (name : String) : Commutes id (declare name) (declare name) := by
  intro σ clock
  have same : σ.core.isLocal = σ.isLocal := rfl
  simp only [Slots.declare, same]
  split
  · refine ⟨clock, ?_⟩
    simp [Store.allocate, coreEnd, Store.core]
  · exact ⟨clock, rfl⟩

theorem fill (slot : Option Nat) (name : String) (value : Value) :
    Commutes id (fill slot name value) (fill slot name value.core) := by
  intro σ clock
  cases slot with
  | some slot =>
    refine ⟨clock, ?_⟩
    show EStateM.Result.ok () (σ.core.fill slot value.core) = .ok () (σ.fill slot value).core
    rw [fill_core]
  | none =>
    refine ⟨clock, ?_⟩
    simp [Slots.fill, coreEnd, Store.core, coreValues_insert]

theorem read (name : Name) : Commutes Value.core (read name) (read name) := by
  intro σ clock
  have mapped : σ.core.map = σ.map := rfl
  simp only [Slots.read, mapped, content?_core]
  cases σ.map[name.text]? with
  | some slot =>
    simp only
    cases σ.content? slot <;> exact ⟨clock, rfl⟩
  | none =>
    simp only [Store.core, getElem?_coreValues]
    cases σ.globals[name.text]? <;> exact ⟨clock, rfl⟩

/-- A write goes to the same slot, whichever of the two stores holds it. -/
theorem write (name : Name) (value : Value) :
    Commutes id (write name value) (write name value.core) := by
  intro σ clock
  have mapped : σ.core.map = σ.map := rfl
  -- the core has the same maps, so a name is local on both sides or on neither
  simp only [Slots.write, mapped, content?_core]
  cases σ.map[name.text]? with
  | some slot =>
    simp only
    cases σ.content? slot with
    | none => exact ⟨clock, rfl⟩
    | some old =>
      refine ⟨clock, ?_⟩
      simp only [Option.map_some, fill_core]
      rfl
  | none =>
    have globals : σ.core.globals = coreValues σ.globals := rfl
    simp only [globals, getElem?_coreValues]
    cases σ.globals[name.text]? with
    | none => exact ⟨clock, rfl⟩
    | some old =>
      refine ⟨clock, ?_⟩
      simp [coreEnd, Store.core, coreValues_insert]

theorem newFunction (d : FunctionDecl) :
    Commutes Value.core (newFunction d) (newFunction d.core) :=
  fun _ clock => ⟨clock, rfl⟩

theorem newObject (cls : ObjectClass) :
    Commutes Instance.core (newObject cls) (newObject cls.core) := by
  intro σ clock
  refine ⟨clock, ?_⟩
  have empty : (∅ : Fields) = coreValues ∅ := by
    apply Std.ExtTreeMap.ext_getElem?
    intro name
    simp [coreValues]
  simp [Slots.newObject, Store.newObject, coreEnd, Store.core, Instance.core, ← empty]

theorem bindMethod (method : Closure) (o : Instance) :
    Commutes Closure.core (bindMethod method o) (bindMethod method.core o.core) := by
  intro σ clock
  refine ⟨clock, ?_⟩
  have place : σ.core.captured method.core = σ.captured method := rfl
  have same : σ.core.bindLocal (σ.captured method) "this" (.object o.core) = _ :=
    bindLocal_core σ (σ.captured method) "this" (.object o)
  simp only [Slots.bindMethod, Store.bindMethod, place, same]
  rfl

theorem methodValue (method : Closure) (o : Instance) :
    Commutes Value.core (methodValue method o) (methodValue method.core o.core) := by
  have whole (method : Closure) (o : Instance) : Slots.methodValue method o =
      Slots.bindMethod method o >>= fun bound σ =>
        .ok (σ.newFunction bound).1 (σ.newFunction bound).2 := rfl
  rw [whole, whole]
  exact .bind (.bindMethod method o) fun bound σ clock => ⟨clock, rfl⟩

/-- A property is read alike: a field first, and a method of the class otherwise. -/
theorem readProperty (subject : Value) (name : Name) :
    Commutes Value.core (readProperty subject name) (readProperty subject.core name) := by
  intro σ clock
  cases subject with
  | object o =>
    simp only [Slots.readProperty, Value.core, field?_core]
    cases σ.field? o name.text with
    | some value => exact ⟨clock, rfl⟩
    | none =>
      simp only [Option.map_none, Instance.core, ObjectClass.method?_core]
      cases o.cls.method? name.text with
      | none => exact ⟨clock, rfl⟩
      | some method => exact methodValue method o σ clock
  | _ => exact ⟨clock, rfl⟩

theorem writeField (o : Instance) (name : String) (value : Value) :
    Commutes id (writeField o name value) (writeField o.core name value.core) := by
  intro σ clock
  refine ⟨clock, ?_⟩
  simp only [Slots.writeField, setField_core]
  rfl

theorem readSuper (method : Name) : Commutes Value.core (readSuper method) (readSuper method) := by
  intro σ clock
  have mapped : σ.core.map = σ.map := rfl
  simp only [Slots.readSuper, mapped, bind_content?_core]
  generalize σ.map["super"]?.bind σ.content? = superclass, σ.map["this"]?.bind σ.content? = object
  rcases superclass with _ | superclass
  · exact ⟨clock, rfl⟩
  · rcases object with _ | object
    · cases superclass <;> exact ⟨clock, rfl⟩
    · cases superclass with
      | cls c =>
        cases object with
        | object o =>
          simp only [Option.map_some, Value.core, ObjectClass.method?_core]
          cases c.method? method.text with
          | none => exact ⟨clock, rfl⟩
          | some found => exact methodValue found o σ clock
        | _ => exact ⟨clock, rfl⟩
      | _ => exact ⟨clock, rfl⟩

theorem print (value : Value) : Commutes id (print value) (print value.core) := by
  intro σ clock
  have sinks : σ.core.sink = σ.sink := rfl
  simp only [Slots.print, sinks, (Looks.core value).display]
  cases (σ.sink.write (value.display ++ "\n").toUTF8).1 <;> exact ⟨clock, rfl⟩

/-- The clock gives the same readings, and its arguments do not count. -/
theorem callHost (f : HostRef) (arguments arguments' : List Value) (line : Nat) :
    Commutes Value.core (callHost f arguments line) (callHost f arguments' line) := by
  intro σ clock
  have hosts : σ.core.hosts = σ.hosts := rfl
  simp only [Slots.callHost, hosts]
  cases here : σ.hosts[f.id]? with
  | none => exact ⟨clock, rfl⟩
  | some action =>
    obtain rfl := clock action (Array.mem_of_getElem? here)
    exact ⟨clock, rfl⟩

theorem checkCall (callee : Value) (arguments : List Value) (line : Nat) :
    Commutes id (checkCall callee arguments line)
      (checkCall callee.core (arguments.map Value.core) line) := by
  simp only [Slots.checkCall, (Looks.core callee).arity?, List.length_map]
  cases callee.arity? with
  | none => exact throw _
  | some expected => exact ite Iff.rfl (pure rfl) (throw _)

theorem callMap (closure : Closure) (arguments : List Value) :
    Commutes id (callMap closure arguments)
      (callMap closure.core (arguments.map Value.core)) := by
  intro σ clock
  have parameters : closure.core.declaration.parameters = closure.declaration.parameters :=
    closure.declaration.core_parameters
  obtain ⟨f, folds⟩ := bindParameters (closure.declaration.parameters.zip arguments)
  simp only [callMap_eq, parameters, List.zip_map_right, captured_core, bindLocals_core]
  refine ⟨?_, rfl⟩
  simp only [folds]
  exact clock

theorem boundObject (closure : Closure) :
    Commutes Value.core (boundObject closure) (boundObject closure.core) := by
  intro σ clock
  simp only [Slots.boundObject, captured_core, bind_content?_core]
  cases (σ.captured closure)["this"]?.bind σ.content? <;> exact ⟨clock, rfl⟩

theorem callResult (closure : Closure) (completion : Completion) :
    Commutes Value.core (callResult closure completion)
      (callResult closure.core completion.core) := by
  refine ite Iff.rfl (boundObject closure) ?_
  cases completion with
  | returned value => exact pure rfl
  | normal => exact pure rfl
  | broke | continued =>
    simp only [Completion.core, Closure.core_name]
    exact throw _

theorem asSuperclass (value : Value) (line : Nat) :
    Commutes ObjectClass.core (asSuperclass value line) (asSuperclass value.core line) := by
  cases value with
  | cls c => exact pure rfl
  | _ => exact throw _

/-- A class is made alike: its methods close over the same maps. -/
theorem makeClass (slot : Option Nat) (name : Name) (superclass : Option ObjectClass)
    (methods : List FunctionDecl) :
    Commutes id (makeClass slot name superclass methods)
      (makeClass slot name (superclass.map ObjectClass.core) (FunctionDecl.coreAll methods)) := by
  have place : Commutes id (classMap superclass) (classMap (superclass.map ObjectClass.core)) := by
    intro σ clock
    cases superclass with
    | none => exact ⟨clock, rfl⟩
    | some c =>
      -- the map of the methods binds `super`, a class that has a core of its own
      refine ⟨clock, ?_⟩
      have same : σ.core.bindLocal σ.core.map "super" (.cls c.core) = _ :=
        bindLocal_core σ σ.map "super" (.cls c)
      simp only [classMap, Option.map_some, same]
      rfl
  refine .bind place fun place => ?_
  have made : Commutes ObjectClass.core (newClass name.text superclass (methodTable place methods))
      (newClass name.text (superclass.map ObjectClass.core)
        (methodTable place (FunctionDecl.coreAll methods))) := by
    intro σ clock
    refine ⟨clock, ?_⟩
    simp only [newClass, methodTable_core, coreEnd, ObjectClass.core_eq]
    rfl
  exact .bind made fun cls => .fill slot name.text (.cls cls)

theorem within {map : Map} {x : Run α} {y : Run β} (inner : Commutes act x y) :
    Commutes act (within map x) (within map y) := by
  intro σ clock
  obtain ⟨clock', same⟩ := inner { σ with map, isLocal := true } clock
  have entered : ({ σ.core with map, isLocal := true } : Store) =
      ({ σ with map, isLocal := true } : Store).core := rfl
  rw [within_eq, within_eq, entered, same]
  cases ran : x { σ with map, isLocal := true } with
  | ok a σ' | error e σ' =>
    rw [ran] at clock'
    exact ⟨clock', rfl⟩

theorem mapInForce : Commutes id mapInForce mapInForce := fun _ clock => ⟨clock, rfl⟩

end Commutes

/-! ## Programs -/

section Programs

variable {invoke invoke' : Closure → List Value → Run Value}
  (functions : ∀ closure arguments, Commutes Value.core (invoke closure arguments)
    (invoke' closure.core (arguments.map Value.core)))
include functions

theorem commutes_callWith (callee : Value) (arguments : List Value) (line : Nat) :
    Commutes Value.core (callWith invoke callee arguments line)
      (callWith invoke' callee.core (arguments.map Value.core) line) := by
  cases callee with
  | host f => exact .callHost f arguments _ line
  | function id closure => exact functions closure arguments
  | cls c =>
    refine .bind (.newObject c) fun o => ?_
    rw [ObjectClass.method?_core]
    cases c.method? initializerName with
    | none => exact .pure rfl
    | some initializer =>
      refine .bind (.bindMethod initializer o) fun bound => ?_
      exact .bind (functions bound arguments) fun _ => .pure rfl
  | _ => exact .throw _

-- in a mutual block a theorem may use the variable through the others only
set_option linter.unusedSectionVars false in
mutual

/-- The value of the core of an expression is the core of its value. -/
theorem commutes_valueOf (e : Expr) :
    Commutes Value.core (valueOf invoke e) (valueOf invoke' e.core) := by
  match e with
  -- a literal is data, which is its own core
  | .literal value =>
    refine .pure ?_
    cases value <;> rfl
  | .group inner => exact commutes_valueOf inner
  | .unary op line operand =>
    refine .bind (commutes_valueOf operand) fun v => ?_
    rw [(Looks.core v).applyUnary]
    exact .liftExcept (givesData_applyUnary op line v)
  | .binary op line left right =>
    refine .bind (commutes_valueOf left) fun a => .bind (commutes_valueOf right) fun b => ?_
    rw [(Looks.core a).applyBinary (Looks.core b)]
    exact .liftExcept (givesData_applyBinary op line a b)
  | .logical op left right =>
    refine .bind (commutes_valueOf left) fun a => ?_
    exact .ite (by rw [(Looks.core a).decides]) (.pure rfl) (commutes_valueOf right)
  | .variable occurrence => exact .read _
  | .assign target value =>
    exact .bind (commutes_valueOf value) fun v => .bind (.write _ v) fun _ => .pure rfl
  | .call callee line arguments =>
    refine .bind (commutes_valueOf callee) fun f => ?_
    refine .bind (commutes_valuesOf arguments) fun vs => ?_
    exact .bind (.checkCall f vs line) fun _ => commutes_callWith functions f vs line
  | .get object name => exact .bind (commutes_valueOf object) fun v => .readProperty v name
  | .set object name value =>
    refine .bind (commutes_valueOf object) fun subject => ?_
    cases subject with
    -- only an object takes the write; before it the value is not asked for
    | object o =>
      exact .bind (commutes_valueOf value) fun v => .bind (.writeField o _ v) fun _ => .pure rfl
    | _ => exact .throw _
  | .this _ line => exact .read _
  | .super _ _ method => exact .readSuper method

theorem commutes_valuesOf (es : List Expr) :
    Commutes (List.map Value.core) (valuesOf invoke es)
      (valuesOf invoke' (Expr.renameAll .nameless es)) := by
  match es with
  | [] => exact .pure rfl
  | e :: rest =>
    exact .bind (commutes_valueOf e) fun v => .bind (commutes_valuesOf rest) fun vs => .pure rfl

end

theorem commutes_valueOf? (e : Option Expr) :
    Commutes Value.core (valueOf? invoke e) (valueOf? invoke' (e.map Expr.core)) := by
  cases e with
  | none => exact .pure rfl
  | some e => exact commutes_valueOf functions e

omit functions in
/-- Rounds of a loop commute with the core if its parts do. -/
theorem commutes_rounds {test test' : Run Value} {body body' : Run Completion}
    {step step' : Run Value} (first : Commutes Value.core test test')
    (inner : Commutes Completion.core body body') (last : Commutes Value.core step step')
    (limit : Nat) :
    Commutes Completion.core (rounds test body step limit) (rounds test' body' step' limit) := by
  induction limit with
  | zero => exact .throw _
  | succ limit ih =>
    refine .bind first fun v => .ite (by rw [(Looks.core v).isTruthy]) ?_ (.pure rfl)
    refine .bind inner fun completion => ?_
    cases completion with
    | normal | continued => exact .bind last fun _ => ih
    | broke => exact .pure rfl
    | returned value => exact .pure rfl

variable (inert : ∀ closure arguments, Inert (invoke' closure arguments)) (limit : Nat)
include inert

set_option linter.unusedSectionVars false in
mutual

/-- The core of a statement does what the statement does. -/
theorem commutes_effect (s : Stmt) :
    Commutes Completion.core (effect limit invoke s) (effect limit invoke' s.core) := by
  match s with
  | .expression e => exact .bind (commutes_valueOf functions e) fun _ => .pure rfl
  | .print e =>
    exact .bind (commutes_valueOf functions e) fun v => .bind (.print v) fun _ => .pure rfl
  | .var name initializer =>
    refine .bind (.declare name.text) fun slot => ?_
    refine .bind (commutes_valueOf? functions initializer) fun v => ?_
    exact .bind (.fill slot name.text v) fun _ => .pure rfl
  | .block body =>
    -- the core may drop the block, which an inert body does not notice
    rw [Stmt.core, effect_blockOf inert]
    exact .bind .mapInForce fun map => .within (commutes_effectOfAll body)
  | .branch condition yes none =>
    refine .bind (commutes_valueOf functions condition) fun v => ?_
    exact .ite (by rw [(Looks.core v).isTruthy]) (commutes_effect yes) (.pure rfl)
  | .branch condition yes (some no) =>
    refine .bind (commutes_valueOf functions condition) fun v => ?_
    exact .ite (by rw [(Looks.core v).isTruthy]) (commutes_effect yes) (commutes_effect no)
  | .loop condition body increment =>
    -- the core may move the increment into the body
    rw [Stmt.core, effect_loopOf inert]
    exact commutes_rounds (commutes_valueOf functions condition) (commutes_effect body)
      (commutes_valueOf? functions increment) limit
  | .function d =>
    simp only [Stmt.core, effect, FunctionDecl.core_name]
    refine .bind (.declare d.name.text) fun slot => .bind (.newFunction d) fun v => ?_
    exact .bind (.fill slot d.name.text v) fun _ => .pure rfl
  | .return _ value => exact .bind (commutes_valueOf? functions value) fun _ => .pure rfl
  | .break _ | .continue _ => exact .pure rfl
  | .classDecl name none methods =>
    refine .bind (.declare name.text) fun slot => ?_
    exact .bind (.makeClass slot name none methods) fun _ => .pure rfl
  | .classDecl name (some superclass) methods =>
    refine .bind (.declare name.text) fun slot => .bind (.read _) fun v => ?_
    refine .bind (.asSuperclass v _) fun c => ?_
    exact .bind (.makeClass slot name (some c) methods) fun _ => .pure rfl

theorem commutes_effectOfAll (ss : List Stmt) :
    Commutes Completion.core (effectOfAll limit invoke ss)
      (effectOfAll limit invoke' (Stmt.coreAll ss)) := by
  match ss with
  | [] => exact .pure rfl
  | s :: rest =>
    refine .bind (commutes_effect s) fun completion => ?_
    cases completion with
    | normal => exact commutes_effectOfAll rest
    | broke | continued | returned _ => exact .pure rfl

end

end Programs

/-- The core of a function does what the function does. -/
theorem commutes_invokeUpTo (limit : Nat) (closure : Closure) (arguments : List Value) :
    Commutes Value.core (invokeUpTo limit closure arguments)
      (invokeUpTo limit closure.core (arguments.map Value.core)) := by
  induction limit generalizing closure arguments with
  | zero => exact .throw _
  | succ limit ih =>
    have body : closure.core.declaration.body = Stmt.coreAll closure.declaration.body :=
      closure.declaration.core_body
    simp only [invokeUpTo, body]
    refine .bind (.callMap closure arguments) fun map => ?_
    refine .bind (.within ?_) fun completion => .callResult closure completion
    exact commutes_effectOfAll ih (inert_invokeUpTo limit) limit _

/-- Runs that end alike and have written the same. A jump that leaves the program may
carry another value. -/
inductive Alike : EStateM.Result Stop Store Unit → EStateM.Result Stop Store Unit → Prop
  | ok {σ σ' : Store} (sink : σ'.sink = σ.sink) : Alike (.ok () σ) (.ok () σ')
  | error (e : Stop) {σ σ' : Store} (sink : σ'.sink = σ.sink) :
      Alike (.error e σ) (.error e σ')
  | stray (c c' : Completion) {σ σ' : Store} (sink : σ'.sink = σ.sink) :
      Alike (.error (.fault (.internal (.strayCompletion c))) σ)
        (.error (.fault (.internal (.strayCompletion c'))) σ')

/-- The core of a program runs as the program does. -/
theorem alike_core (limit : Nat) (program : Program) {σ : Store} (clock : OnlyClock σ) :
    Alike (effectOfProgram limit program σ)
      (effectOfProgram limit (Stmt.coreAll program) σ.core) := by
  induction program generalizing σ with
  | nil => exact .ok rfl
  | cons s rest ih =>
    obtain ⟨clock', same⟩ := commutes_effect (commutes_invokeUpTo limit)
      (inert_invokeUpTo limit) limit s σ clock
    simp only [Stmt.coreAll, effectOfProgram, Bind.bind, EStateM.bind]
    rw [same]
    cases ran : effect limit (invokeUpTo limit) s σ with
    | error e σ' => exact .error e rfl
    | ok completion σ' =>
      rw [ran] at clock'
      cases completion with
      | normal => exact ih clock'
      | broke | continued | returned _ => exact .stray _ _ rfl

/-- Programs with the same core run alike. -/
theorem alike_of_core (limit : Nat) {program program' : Program}
    (same : Stmt.coreAll program' = Stmt.coreAll program) {σ : Store} (clock : OnlyClock σ) :
    Alike (effectOfProgram limit program σ) (effectOfProgram limit program' σ) := by
  have left := alike_core limit program clock
  have right := alike_core limit program' clock
  rw [same] at right
  generalize effectOfProgram limit (Stmt.coreAll program) σ.core = core at left right
  generalize effectOfProgram limit program σ = r at left ⊢
  generalize effectOfProgram limit program' σ = r' at right ⊢
  cases left with
  | ok sink =>
    cases right with
    | ok sink' => exact .ok (sink'.symm.trans sink)
  | error e sink =>
    cases right with
    | error _ sink' => exact .error e (sink'.symm.trans sink)
    | stray c' _ sink' => exact .stray _ c' (sink'.symm.trans sink)
  | stray c c' sink =>
    cases right with
    | error _ sink' => exact .stray c c' (sink'.symm.trans sink)
    | stray c'' _ sink' => exact .stray c c'' (sink'.symm.trans sink)

end ClassScript.Slots
