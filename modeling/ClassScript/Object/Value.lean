import ClassScript.Number.Text
import ClassScript.Syntax.Tree
import ClassScript.Text.Quoted
import Std.Data.ExtTreeMap

/-!
# Values

Numbers, strings and truth values are held as they are. Functions, classes and
objects have an identity: two of them are equal only if they are the same one, and
the number that tells them apart is part of the value. What changes over time, the
bindings of scopes and the fields of objects, is not here but in the machine.
-/

namespace ClassScript.Object

open Syntax

/-- The identity of a function or a class. -/
abbrev ObjectId := Nat

/-- The place of a scope among the scopes of a machine. -/
abbrev ScopeId := Nat

/-- A function with the scope that it was declared in, or, for a method of an object,
with a scope that binds the object as `this`. -/
structure Closure where
  declaration : FunctionDecl
  scope : ScopeId
  isInitializer : Bool

def Closure.name (closure : Closure) : String := closure.declaration.name.text

def Closure.arity (closure : Closure) : Nat := closure.declaration.parameters.length

/-- A class: its own methods, and the class that it inherits from. -/
structure ObjectClass where
  id : ObjectId
  name : String
  superclass : Option ObjectClass
  methods : Std.ExtTreeMap String Closure

/-- The method of a name: the class's own, else that of the nearest class above. -/
def ObjectClass.method? (text : String) : ObjectClass → Option Closure
  | ⟨_, _, none, methods⟩ => methods[text]?
  | ⟨_, _, some superclass, methods⟩ =>
    match methods[text]? with
    | some method => some method
    | none => superclass.method? text

/-- The number of arguments that making an object takes. -/
def ObjectClass.arity (cls : ObjectClass) : Nat :=
  match cls.method? initializerName with
  | some initializer => initializer.arity
  | none => 0

/-- An object: the place of its fields, and its class. -/
structure Instance where
  id : ObjectId
  cls : ObjectClass

/-- A function of the host: its place among the host's functions, which is its
identity, and what programs see of it. -/
structure HostRef where
  id : ObjectId
  name : String
  arity : Nat
deriving Repr, DecidableEq

inductive Value where
  | nil
  | bool (b : Bool)
  | number (n : Float)
  | string (s : String)
  | host (function : HostRef)
  /-- A function, or a method that was read from an object. -/
  | function (id : ObjectId) (closure : Closure)
  | cls (c : ObjectClass)
  | object (o : Instance)

instance : Inhabited Value := ⟨.nil⟩

namespace Value

/-- Only `nil` and `false` count as false. -/
def isTruthy : Value → Bool
  | nil | bool false => false
  | _ => true

/-- Equality as programs see it: what is held as it is by its value, what has an
identity by that, and different kinds never. -/
def equals : Value → Value → Bool
  | nil, nil => true
  | bool a, bool b => a == b
  | number a, number b => a == b
  | string a, string b => a == b
  | host a, host b => a.id == b.id
  | function a _, function b _ => a == b
  | cls a, cls b => a.id == b.id
  | object a, object b => a.id == b.id
  | _, _ => false

/-- The number of arguments that a call takes; `none` if the value cannot be
called. -/
def arity? : Value → Option Nat
  | host f => some f.arity
  | function _ closure => some closure.arity
  | cls c => some c.arity
  | _ => none

/-- The text of a value as programs print it. -/
def display : Value → String
  | nil => "nil"
  | bool true => "true"
  | bool false => "false"
  | number n => Number.display n
  | string s => s
  | host f => "<native fn " ++ f.name ++ ">"
  | function _ closure => "<fn " ++ closure.name ++ ">"
  | cls c => c.name
  | object o => o.cls.name ++ " instance"

/-- The text of a value in reports, which shows its kind. -/
def debug : Value → String
  | nil => "Nil"
  | bool true => "Bool(true)"
  | bool false => "Bool(false)"
  | number n => "Number(" ++ Number.debug n ++ ")"
  | string s => "String(" ++ Text.Quoted.debug s ++ ")"
  | host f => "NativeFunction(<native fn " ++ f.name ++ ">)"
  | function _ closure => "Function(<fn " ++ closure.name ++ ">)"
  | cls c => "Class(<class " ++ c.name ++ ">)"
  | object o => "Instance(<" ++ o.cls.name ++ " instance>)"

/-- The value of a constant in the program. -/
def ofLiteral : Literal → Value
  | .number n => number n
  | .string s => string s
  | .bool b => bool b
  | .nil => nil

end Value

end ClassScript.Object
