import ClassScript.Binding.Locals
import ClassScript.Machine.Scopes

/-!
# The state of a machine

All that a run can read or change: the scopes and which of them is current, the
fields of objects, the functions of the host, the clock, the table of local
occurrences, and the output.
-/

namespace ClassScript.Machine

open Object Binding

/-- Where printed text goes. A sink with a limit takes that many bytes in all, and of
the text that goes beyond the limit it takes the part that fits. -/
structure Sink where
  written : ByteArray
  /-- The number of bytes that still fit, if there is a limit. -/
  room : Option Nat

namespace Sink

def unlimited : Sink := ⟨.empty, none⟩

def limited (room : Nat) : Sink := ⟨.empty, some room⟩

/-- Write some bytes: whether all of them fit, and the sink afterwards. -/
def write (sink : Sink) (bytes : ByteArray) : Bool × Sink :=
  match sink.room with
  | none => (true, ⟨sink.written ++ bytes, none⟩)
  | some room =>
    if bytes.size ≤ room then (true, ⟨sink.written ++ bytes, some (room - bytes.size)⟩)
    else (false, ⟨sink.written ++ bytes.extract 0 room, some 0⟩)

end Sink

/-- The host's clock: what its successive readings give, and how many were taken. -/
structure Clock where
  readings : Nat → Float
  taken : Nat

/-- What a function of the host does. -/
inductive HostAction where
  /-- Read the clock. -/
  | clock
  /-- Compute a value from the arguments, or refuse them with a message. -/
  | compute (run : List Value → Except String Value)

instance : Inhabited HostAction := ⟨.clock⟩

/-- The name of the function that reads the clock. -/
def clockName : String := "clock"

/-- Fields of an object. -/
abbrev Fields := Std.ExtTreeMap String Value

structure State where
  scopes : Scopes
  /-- The fields of every object, by its identity. -/
  objects : Array Fields
  /-- The identity of the next function or class. -/
  nextId : ObjectId
  /-- What the host's functions do, by their identity. -/
  hosts : Array HostAction
  /-- The scope of global names. -/
  globals : ScopeId
  /-- The scope that statements run in. -/
  current : ScopeId
  locals : Locals
  clock : Clock
  sink : Sink

namespace State

/-- A new scope without bindings. -/
def pushScope (m : State) (parent : Option ScopeId) : ScopeId × State :=
  let (id, scopes) := m.scopes.push parent
  (id, { m with scopes })

/-- Bind a name in a scope. -/
def define (m : State) (id : ScopeId) (name : String) (value : Value) : State :=
  { m with scopes := m.scopes.define id name value }

/-- A new function of the host. -/
def addHost (m : State) (name : String) (arity : Nat) (action : HostAction) :
    HostRef × State :=
  (⟨m.hosts.size, name, arity⟩, { m with hosts := m.hosts.push action })

/-- A machine before its first program: the global scope, which binds the clock. -/
def start (readings : Nat → Float) (sink : Sink) : State :=
  let (globals, scopes) := Scopes.empty.push none
  let bare : State :=
    { scopes, objects := #[], nextId := 0, hosts := #[], globals, current := globals,
      locals := .empty, clock := ⟨readings, 0⟩, sink }
  let (clock, m) := bare.addHost clockName 0 .clock
  m.define globals clockName (.host clock)

/-- Bind a method to an object: the function's scope is a new one that binds `this`,
inside the method's own. -/
def bindMethod (m : State) (method : Closure) (o : Instance) : Closure × State :=
  let (scope, m) := m.pushScope (some method.scope)
  ({ method with scope }, m.define scope "this" (.object o))

/-- A value for a function, with an identity of its own. -/
def newFunction (m : State) (closure : Closure) : Value × State :=
  (.function m.nextId closure, { m with nextId := m.nextId + 1 })

/-- A new object without fields. -/
def newObject (m : State) (cls : ObjectClass) : Instance × State :=
  (⟨m.objects.size, cls⟩, { m with objects := m.objects.push ∅ })

/-- The value of a field, if the object has it. -/
def field? (m : State) (o : Instance) (name : String) : Option Value :=
  m.objects[o.id]?.bind fun fields => fields[name]?

/-- Set a field of an object, which it need not have had. -/
def setField (m : State) (o : Instance) (name : String) (value : Value) : State :=
  { m with objects := m.objects.modify o.id fun fields => fields.insert name value }

end State

/-- Why a computation has no result: a fault, or no fuel was left. -/
inductive Stop where
  | fault (fault : Fault)
  | outOfFuel

/-- Computations on a machine. What they did before they stopped stays done. -/
abbrev Run (α : Type) := EStateM Stop State α

/-- Stop with a fault. -/
def stop {α : Type} (fault : Fault) : Run α := throw (.fault fault)

/-- The result of a computation that does not touch the machine. -/
def liftExcept {α : Type} (result : Except Fault α) : Run α := fun m =>
  match result with
  | .ok a => .ok a m
  | .error fault => .error (.fault fault) m

end ClassScript.Machine
