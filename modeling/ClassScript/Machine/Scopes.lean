import ClassScript.Machine.Fault

/-!
# Scopes

A scope binds names to values and may have a parent. A name is found in two ways:
searching from a scope through its parents, or going up a known number of parents
and looking only there. Writing to a name never makes a new binding; only `define`
does.
-/

namespace ClassScript.Machine

open Object

structure Scope where
  bindings : Std.ExtTreeMap String Value
  parent : Option ScopeId

instance : Inhabited Scope := ⟨⟨∅, none⟩⟩

/-- The scopes of a run, by their place. None is ever removed. -/
structure Scopes where
  cells : Array Scope

namespace Scopes

def empty : Scopes := ⟨#[]⟩

/-- A new scope without bindings, and the scopes with it. -/
def push (scopes : Scopes) (parent : Option ScopeId) : ScopeId × Scopes :=
  (scopes.cells.size, ⟨scopes.cells.push ⟨∅, parent⟩⟩)

/-- The parent of a scope. -/
def parent? (scopes : Scopes) (id : ScopeId) : Option ScopeId :=
  scopes.cells[id]?.bind Scope.parent

/-- The value that a scope itself binds a name to. -/
def own? (scopes : Scopes) (id : ScopeId) (name : String) : Option Value :=
  scopes.cells[id]?.bind fun scope => scope.bindings[name]?

def contains (scopes : Scopes) (id : ScopeId) (name : String) : Bool :=
  (scopes.own? id name).isSome

/-- Bind a name in a scope, in place of a binding of that name which it may have. -/
def define (scopes : Scopes) (id : ScopeId) (name : String) (value : Value) : Scopes :=
  ⟨scopes.cells.modify id fun scope =>
    { scope with bindings := scope.bindings.insert name value }⟩

/-- The nearest scope that binds a name, from a scope on upward. The fuel bounds the
number of scopes visited. -/
def ownerWithin? (scopes : Scopes) (name : String) : Nat → ScopeId → Option ScopeId
  | 0, _ => none
  | fuel + 1, id =>
    if scopes.contains id name then some id
    else
      match scopes.parent? id with
      | some parent => scopes.ownerWithin? name fuel parent
      | none => none

/-- The nearest scope that binds a name. No chain of parents is longer than the
number of scopes. -/
def owner? (scopes : Scopes) (id : ScopeId) (name : String) : Option ScopeId :=
  scopes.ownerWithin? name scopes.cells.size id

/-- The value of a name, searched from a scope on upward. -/
def get (scopes : Scopes) (id : ScopeId) (name : String) (line : Nat) :
    Except Fault Value :=
  match (scopes.owner? id name).bind fun owner => scopes.own? owner name with
  | some value => .ok value
  | none => .error (.undefinedVariable name line)

/-- The scope whose binding of a name a write changes, searched from a scope on
upward. -/
def target (scopes : Scopes) (id : ScopeId) (name : String) (line : Nat) :
    Except Fault ScopeId :=
  match scopes.owner? id name with
  | some owner => .ok owner
  | none => .error (.undefinedVariable name line)

/-- Write to a name, searched from a scope on upward. -/
def assign (scopes : Scopes) (id : ScopeId) (name : String) (value : Value)
    (line : Nat) : Except Fault Scopes :=
  (scopes.target id name line).map fun owner => scopes.define owner name value

/-- The scope a number of parents above a scope. -/
def ancestor? (scopes : Scopes) : Nat → ScopeId → Option ScopeId
  | 0, id => some id
  | hops + 1, id =>
    match scopes.parent? id with
    | some parent => scopes.ancestor? hops parent
    | none => none

/-- The scope a number of parents above a scope, or the fault that there is none. -/
def ancestor (scopes : Scopes) (hops : Nat) (id : ScopeId) : Except Fault ScopeId :=
  match scopes.ancestor? hops id with
  | some target => .ok target
  | none => .error (.internal (.chainTooShort hops))

/-- The value of a name in the scope a number of parents above a scope. -/
def getAt (scopes : Scopes) (hops : Nat) (id : ScopeId) (name : String) :
    Except Fault Value :=
  match scopes.ancestor hops id with
  | .error fault => .error fault
  | .ok target =>
    match scopes.own? target name with
    | some value => .ok value
    | none => .error (.internal (.missing name hops))

/-- The scope a number of parents above a scope, where it binds a name. -/
def targetAt (scopes : Scopes) (hops : Nat) (id : ScopeId) (name : String) :
    Except Fault ScopeId :=
  match scopes.ancestor hops id with
  | .error fault => .error fault
  | .ok owner =>
    if scopes.contains owner name then .ok owner
    else .error (.internal (.missing name hops))

/-- Write to a name in the scope a number of parents above a scope. -/
def assignAt (scopes : Scopes) (hops : Nat) (id : ScopeId) (name : String)
    (value : Value) : Except Fault Scopes :=
  (scopes.targetAt hops id name).map fun owner => scopes.define owner name value

end Scopes

end ClassScript.Machine
