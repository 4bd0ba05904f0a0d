import ClassScript.Object.Value

/-!
# Faults of a run

How a statement ends, and why a run stops. A jump is not a fault: `break`,
`continue` and `return` are ways for a statement to end. Internal faults say that
the scopes of a run do not have the shape that its table of local occurrences
promises.
-/

namespace ClassScript.Machine

open Object

/-- How a statement ended. -/
inductive Completion where
  | normal
  | returned (value : Value)
  | broke
  | continued

/-- The text of a completion in reports. -/
def Completion.debug : Completion → String
  | .normal => "Normal"
  | .returned value => "Return(" ++ value.debug ++ ")"
  | .broke => "Break"
  | .continued => "Continue"

inductive InternalFault where
  /-- A jump left the program. -/
  | strayCompletion (completion : Completion)
  /-- `break` or `continue` left the body of a function. -/
  | strayJump (function : String)
  /-- There are fewer scopes than the table says lie between. -/
  | chainTooShort (hops : Nat)
  /-- The scope that the table leads to does not bind the name. -/
  | missing (name : String) (hops : Nat)
  | unresolvedSuper
  | superNotClass
  | superWithoutThis
  | thisNotObject

def InternalFault.message : InternalFault → String
  | .strayCompletion completion => completion.debug ++ " escaped to top level"
  | .strayJump function => "loop control escaped function '" ++ function ++ "'"
  | .chainTooShort hops =>
    "scope chain is shorter than resolved distance " ++ toString hops
  | .missing name hops =>
    "resolved variable '" ++ name ++ "' missing at distance " ++ toString hops
  | .unresolvedSuper => "unresolved 'super'"
  | .superNotClass => "'super' is not bound to a class"
  | .superWithoutThis => "'super' resolved without a 'this' scope"
  | .thisNotObject => "'this' is not bound to an instance"

/-- Why a run stopped. Faults of the program carry the line that they cite. -/
inductive Fault where
  | operandNotNumber (line : Nat)
  | operandsNotNumbers (line : Nat)
  | operandsNotAddable (line : Nat)
  | divisionByZero (line : Nat)
  | undefinedVariable (name : String) (line : Nat)
  | undefinedProperty (name : String) (line : Nat)
  | notCallable (line : Nat)
  | notAClass (line : Nat)
  | arityMismatch (expected got line : Nat)
  | noProperties (line : Nat)
  | noFields (line : Nat)
  /-- A function of the host refused its arguments. -/
  | host (name message : String) (line : Nat)
  /-- The output took no more. -/
  | output
  | internal (fault : InternalFault)

namespace Fault

/-- The line that a fault cites, if it has one. -/
def line? : Fault → Option Nat
  | operandNotNumber line | operandsNotNumbers line | operandsNotAddable line
  | divisionByZero line | undefinedVariable _ line | undefinedProperty _ line
  | notCallable line | notAClass line | arityMismatch _ _ line | noProperties line
  | noFields line | host _ _ line => some line
  | output | internal _ => none

/-- What a fault says, without its line. -/
def text : Fault → String
  | operandNotNumber _ => "Operand must be a number."
  | operandsNotNumbers _ => "Operands must be numbers."
  | operandsNotAddable _ =>
    "Operands must be two numbers or the left operand must be a string."
  | divisionByZero _ => "Division by zero."
  | undefinedVariable name _ => "Undefined variable '" ++ name ++ "'."
  | undefinedProperty name _ => "Undefined property '" ++ name ++ "'."
  | notCallable _ => "Can only call functions and classes."
  | notAClass _ => "Superclass must be a class."
  | arityMismatch expected got _ =>
    "Expected " ++ toString expected ++ " arguments but got " ++ toString got ++ "."
  | noProperties _ => "Only instances have properties."
  | noFields _ => "Only instances have fields."
  | host name message _ => name ++ ": " ++ message
  | output => "Failed to write output: sink full"
  | internal fault => "Internal error: " ++ fault.message

/-- What a fault says, with its line behind it. -/
def message (fault : Fault) : String :=
  match fault.line? with
  | some line => fault.text ++ "\n[line " ++ toString line ++ "]"
  | none => fault.text

end Fault

end ClassScript.Machine
