import ClassScript.Machine.Evaluate

/-!
# Lexical scoping by slots

Programs as a textbook runs them, without a chain of scopes and without a table of
occurrences. Every local declaration gets a fresh slot, which is empty until the
variable is initialized. A map from names to slots says what the local names mean at
the place where the program stands; a block restores it, and functions and methods
capture the one in force at their declaration. A name without a slot is a global.
-/

namespace ClassScript.Slots

open Syntax Object Machine

/-- Which slot each local name stands for. -/
abbrev Map := Std.ExtTreeMap String Nat

structure Store where
  /-- What the slots hold. -/
  slots : Array (Option Value)
  /-- The maps that were captured. A function holds the place of its own. -/
  maps : Array Map
  /-- The map in force. -/
  map : Map
  /-- Whether declarations are local. -/
  isLocal : Bool
  globals : Std.ExtTreeMap String Value
  objects : Array Fields
  nextId : ObjectId
  hosts : Array HostAction
  clock : Clock
  sink : Sink

/-- Computations on a store. -/
abbrev Run (α : Type) := EStateM Stop Store α

namespace Store

/-- A store before its first program, where the clock is the only global. -/
def start (readings : Nat → Float) (sink : Sink) : Store where
  slots := #[]
  maps := #[]
  map := ∅
  isLocal := false
  globals := (∅ : Std.ExtTreeMap String Value).insert clockName (.host ⟨0, clockName, 0⟩)
  objects := #[]
  nextId := 0
  hosts := #[.clock]
  clock := ⟨readings, 0⟩
  sink := sink

/-- What a slot holds, if it is not empty. -/
def content? (σ : Store) (slot : Nat) : Option Value := σ.slots[slot]?.join

/-- A fresh slot. -/
def allocate (σ : Store) (content : Option Value) : Nat × Store :=
  (σ.slots.size, { σ with slots := σ.slots.push content })

def fill (σ : Store) (slot : Nat) (value : Value) : Store :=
  { σ with slots := σ.slots.setIfInBounds slot (some value) }

/-- Keep a map for the functions that capture it. -/
def capture (σ : Store) (map : Map) : Nat × Store :=
  (σ.maps.size, { σ with maps := σ.maps.push map })

/-- The map that a function captured. -/
def captured (σ : Store) (closure : Closure) : Map := σ.maps[closure.scope]?.getD ∅

/-- A fresh slot for a name, which holds a value, and the map with the name. -/
def bindLocal (σ : Store) (map : Map) (name : String) (value : Value) : Map × Store :=
  let (slot, σ) := σ.allocate (some value)
  (map.insert name slot, σ)

/-- A method bound to an object: its map is the method's own with a fresh slot for
`this`. -/
def bindMethod (σ : Store) (method : Closure) (o : Instance) : Closure × Store :=
  let (map, σ) := σ.bindLocal (σ.captured method) "this" (.object o)
  let (place, σ) := σ.capture map
  ({ method with scope := place }, σ)

/-- A value for a function, with an identity of its own. -/
def newFunction (σ : Store) (closure : Closure) : Value × Store :=
  (.function σ.nextId closure, { σ with nextId := σ.nextId + 1 })

def newObject (σ : Store) (cls : ObjectClass) : Instance × Store :=
  (⟨σ.objects.size, cls⟩, { σ with objects := σ.objects.push ∅ })

def field? (σ : Store) (o : Instance) (name : String) : Option Value :=
  σ.objects[o.id]?.bind fun fields => fields[name]?

def setField (σ : Store) (o : Instance) (name : String) (value : Value) : Store :=
  { σ with objects := σ.objects.modify o.id fun fields => fields.insert name value }

end Store

/-! ## Steps -/

def stop {α : Type} (fault : Fault) : Run α := throw (.fault fault)

def liftExcept {α : Type} (result : Except Fault α) : Run α := fun σ =>
  match result with
  | .ok a => .ok a σ
  | .error fault => .error (.fault fault) σ

/-- The fault of touching an empty slot. -/
def empty (name : String) : Fault := .internal (.missing name 0)

/-- Declare a name. A local one gets a fresh slot, which is empty. -/
def declare (name : String) : Run (Option Nat) := fun σ =>
  if σ.isLocal then
    let map := σ.map
    let (slot, σ) := σ.allocate none
    .ok (some slot) { σ with map := map.insert name slot }
  else .ok none σ

/-- Give a declared name its value, in its slot or among the globals. -/
def fill (slot : Option Nat) (name : String) (value : Value) : Run Unit := fun σ =>
  match slot with
  | some slot => .ok () (σ.fill slot value)
  | none => .ok () { σ with globals := σ.globals.insert name value }

/-- The value of a name: that of its slot, or of the global. -/
def read (name : Name) : Run Value := fun σ =>
  match σ.map[name.text]? with
  | some slot =>
    match σ.content? slot with
    | some value => .ok value σ
    | none => .error (.fault (empty name.text)) σ
  | none =>
    match σ.globals[name.text]? with
    | some value => .ok value σ
    | none => .error (.fault (.undefinedVariable name.text name.line)) σ

/-- Write to the slot of a name, or to the global. -/
def write (name : Name) (value : Value) : Run Unit := fun σ =>
  match σ.map[name.text]? with
  | some slot =>
    match σ.content? slot with
    | some _ => .ok () (σ.fill slot value)
    | none => .error (.fault (empty name.text)) σ
  | none =>
    match σ.globals[name.text]? with
    | some _ => .ok () { σ with globals := σ.globals.insert name.text value }
    | none => .error (.fault (.undefinedVariable name.text name.line)) σ

/-- A new function, which captures the map in force. -/
def newFunction (declaration : FunctionDecl) : Run Value := fun σ =>
  let (place, σ) := σ.capture σ.map
  let (value, σ) := σ.newFunction ⟨declaration, place, false⟩
  .ok value σ

def newObject (cls : ObjectClass) : Run Instance := fun σ =>
  let (o, σ) := σ.newObject cls
  .ok o σ

def bindMethod (method : Closure) (o : Instance) : Run Closure := fun σ =>
  let (bound, σ) := σ.bindMethod method o
  .ok bound σ

/-- A method bound to an object, as a value. -/
def methodValue (method : Closure) (o : Instance) : Run Value := fun σ =>
  let (bound, σ) := σ.bindMethod method o
  let (value, σ) := σ.newFunction bound
  .ok value σ

/-- A property of an object: its field, or else a method of its class. -/
def readProperty (subject : Value) (name : Name) : Run Value := fun σ =>
  match subject with
  | .object o =>
    match σ.field? o name.text with
    | some value => .ok value σ
    | none =>
      match o.cls.method? name.text with
      | some method => methodValue method o σ
      | none => .error (.fault (.undefinedProperty name.text name.line)) σ
  | _ => .error (.fault (.noProperties name.line)) σ

def writeField (o : Instance) (name : String) (value : Value) : Run Unit := fun σ =>
  .ok () (σ.setField o name value)

/-- The method of the superclass in the slot of `super`, bound to the object in the
slot of `this`. -/
def readSuper (method : Name) : Run Value := fun σ =>
  match σ.map["super"]?.bind σ.content?, σ.map["this"]?.bind σ.content? with
  | some (.cls superclass), some (.object o) =>
    match superclass.method? method.text with
    | some found => methodValue found o σ
    | none => .error (.fault (.undefinedProperty method.text method.line)) σ
  | _, _ => .error (.fault (.internal .unresolvedSuper)) σ

def print (value : Value) : Run Unit := fun σ =>
  let (fits, sink) := σ.sink.write (value.display ++ "\n").toUTF8
  let σ := { σ with sink }
  if fits then .ok () σ else .error (.fault .output) σ

/-- Call a function of the host. -/
def callHost (f : HostRef) (arguments : List Value) (line : Nat) : Run Value := fun σ =>
  match σ.hosts[f.id]? with
  | some .clock =>
    .ok (.number (σ.clock.readings σ.clock.taken))
      { σ with clock := { σ.clock with taken := σ.clock.taken + 1 } }
  | some (.compute run) =>
    match run arguments with
    | .ok value => .ok value σ
    | .error message => .error (.fault (.host f.name message line)) σ
  | none => .error (.fault (.notCallable line)) σ

/-- Check that a value can be called with a number of arguments. -/
def checkCall (callee : Value) (arguments : List Value) (line : Nat) : Run Unit :=
  match callee.arity? with
  | none => stop (.notCallable line)
  | some expected =>
    if arguments.length = expected then pure ()
    else stop (.arityMismatch expected arguments.length line)

/-- The map for a call: the function's own, with a fresh slot for every parameter. -/
def callMap (closure : Closure) (arguments : List Value) : Run Map := fun σ =>
  let (map, σ) := (closure.declaration.parameters.zip arguments).foldl
    (fun (map, σ) (parameter, argument) => σ.bindLocal map parameter.text argument)
    (σ.captured closure, σ)
  .ok map σ

/-- A fresh slot for every name. -/
def bindLocals (bindings : List (Name × Value)) (map : Map) (σ : Store) : Map × Store :=
  bindings.foldl (fun (map, σ) (parameter, argument) => σ.bindLocal map parameter.text argument)
    (map, σ)

theorem callMap_eq (closure : Closure) (arguments : List Value) (σ : Store) :
    callMap closure arguments σ =
      .ok (bindLocals (closure.declaration.parameters.zip arguments) (σ.captured closure) σ).1
        (bindLocals (closure.declaration.parameters.zip arguments)
          (σ.captured closure) σ).2 := rfl

/-- What the slot of `this` holds that a method captured. -/
def boundObject (closure : Closure) : Run Value := fun σ =>
  match (σ.captured closure)["this"]?.bind σ.content? with
  | some value => .ok value σ
  | none => .error (.fault (empty "this")) σ

/-- What a call gives whose body has ended. An initializer gives its object. -/
def callResult (closure : Closure) (completion : Completion) : Run Value :=
  if closure.isInitializer then boundObject closure
  else
    match completion with
    | .returned value => pure value
    | .normal => pure .nil
    | .broke | .continued => stop (.internal (.strayJump closure.name))

def asSuperclass (value : Value) (line : Nat) : Run ObjectClass :=
  match value with
  | .cls c => pure c
  | _ => stop (.notAClass line)

/-- The place of the map that the methods of a class capture: the one in force, with a
fresh slot for `super` if there is a superclass. -/
def classMap (superclass : Option ObjectClass) : Run Nat := fun σ =>
  match superclass with
  | none =>
    let (place, σ) := σ.capture σ.map
    .ok place σ
  | some c =>
    let (map, σ) := σ.bindLocal σ.map "super" (.cls c)
    let (place, σ) := σ.capture map
    .ok place σ

def newClass (name : String) (superclass : Option ObjectClass)
    (methods : Std.ExtTreeMap String Closure) : Run ObjectClass := fun σ =>
  .ok ⟨σ.nextId, name, superclass, methods⟩ { σ with nextId := σ.nextId + 1 }

/-- The map in force. -/
def mapInForce : Run Map := fun σ => .ok σ.map σ

/-- Run with another map in force, where declarations are local, and return to the
present one however the run ends. -/
def within {α : Type} (map : Map) (run : Run α) : Run α := fun σ =>
  match run { σ with map, isLocal := true } with
  | .ok a σ' => .ok a { σ' with map := σ.map, isLocal := σ.isLocal }
  | .error stop σ' => .error stop { σ' with map := σ.map, isLocal := σ.isLocal }

/-- Make a class, whose name is declared. -/
def makeClass (slot : Option Nat) (name : Name) (superclass : Option ObjectClass)
    (methods : List FunctionDecl) : Run Unit := do
  let place ← classMap superclass
  let cls ← newClass name.text superclass (methodTable place methods)
  fill slot name.text (.cls cls)

/-! ## Running programs -/

mutual

def evaluate : Nat → Expr → Run Value
  | 0, _ => throw .outOfFuel
  | fuel + 1, e =>
    match e with
    | .literal value => pure (.ofLiteral value)
    | .group inner => evaluate fuel inner
    | .unary op line operand => do
      liftExcept (applyUnary op line (← evaluate fuel operand))
    | .binary op line left right => do
      let a ← evaluate fuel left
      let b ← evaluate fuel right
      liftExcept (applyBinary op line a b)
    | .logical op left right => do
      let a ← evaluate fuel left
      if decides op a then pure a else evaluate fuel right
    | .variable occurrence => read occurrence.name
    | .assign target value => do
      let v ← evaluate fuel value
      write target.name v
      pure v
    | .call callee line arguments => do
      let f ← evaluate fuel callee
      let vs ← evaluateAll fuel arguments
      checkCall f vs line
      call fuel f vs line
    | .get object name => do readProperty (← evaluate fuel object) name
    | .set object name value => do
      match ← evaluate fuel object with
      | .object o =>
        let v ← evaluate fuel value
        writeField o name.text v
        pure v
      | _ => stop (.noFields name.line)
    | .this _ line => read ⟨"this", line⟩
    | .super _ _ method => readSuper method

def evaluateAll : Nat → List Expr → Run (List Value)
  | 0, _ => throw .outOfFuel
  | _, [] => pure []
  | fuel + 1, e :: rest => do
    let v ← evaluate fuel e
    return v :: (← evaluateAll fuel rest)

def call : Nat → Value → List Value → Nat → Run Value
  | 0, _, _, _ => throw .outOfFuel
  | fuel + 1, callee, arguments, line =>
    match callee with
    | .host f => callHost f arguments line
    | .function _ closure => invoke fuel closure arguments
    | .cls c => do
      let o ← newObject c
      match c.method? initializerName with
      | some initializer =>
        let _ ← invoke fuel (← bindMethod initializer o) arguments
        pure (.object o)
      | none => pure (.object o)
    | _ => stop (.notCallable line)

def invoke : Nat → Closure → List Value → Run Value
  | 0, _, _ => throw .outOfFuel
  | fuel + 1, closure, arguments => do
    let map ← callMap closure arguments
    callResult closure (← within map (executeAll fuel closure.declaration.body))

def execute : Nat → Stmt → Run Completion
  | 0, _ => throw .outOfFuel
  | fuel + 1, s =>
    match s with
    | .expression e => do
      let _ ← evaluate fuel e
      pure .normal
    | .print e => do
      print (← evaluate fuel e)
      pure .normal
    | .var name initializer => do
      let slot ← declare name.text
      fill slot name.text (← evaluate? fuel initializer)
      pure .normal
    | .block body => do
      within (← mapInForce) (executeAll fuel body)
    | .branch condition yes no => do
      if (← evaluate fuel condition).isTruthy then execute fuel yes
      else
        match no with
        | some no => execute fuel no
        | none => pure .normal
    | .loop condition body increment => executeLoop fuel condition body increment
    | .function declaration => do
      let slot ← declare declaration.name.text
      fill slot declaration.name.text (← newFunction declaration)
      pure .normal
    | .return _ value => do
      return .returned (← evaluate? fuel value)
    | .break _ => pure .broke
    | .continue _ => pure .continued
    | .classDecl name none methods => do
      makeClass (← declare name.text) name none methods
      pure .normal
    | .classDecl name (some superclass) methods => do
      let slot ← declare name.text
      let c ← asSuperclass (← evaluate fuel (.variable superclass)) superclass.name.line
      makeClass slot name (some c) methods
      pure .normal

def evaluate? : Nat → Option Expr → Run Value
  | 0, _ => throw .outOfFuel
  | _, none => pure .nil
  | fuel + 1, some e => evaluate fuel e

def executeAll : Nat → List Stmt → Run Completion
  | 0, _ => throw .outOfFuel
  | _, [] => pure .normal
  | fuel + 1, s :: rest => do
    match ← execute fuel s with
    | .normal => executeAll fuel rest
    | jump => pure jump

def executeLoop : Nat → Expr → Stmt → Option Expr → Run Completion
  | 0, _, _, _ => throw .outOfFuel
  | fuel + 1, condition, body, increment => do
    if (← evaluate fuel condition).isTruthy then
      match ← execute fuel body with
      | .normal | .continued =>
        let _ ← evaluate? fuel increment
        executeLoop fuel condition body increment
      | .broke => pure .normal
      | .returned value => pure (.returned value)
    else pure .normal

end

/-- Run the statements of a program. Each must end normally. -/
def runProgram (fuel : Nat) : Program → Run Unit
  | [] => pure ()
  | s :: rest => do
    match ← execute fuel s with
    | .normal => runProgram fuel rest
    | stray => stop (.internal (.strayCompletion stray))

end ClassScript.Slots
