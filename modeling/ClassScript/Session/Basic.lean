import ClassScript.Machine.Evaluate
import ClassScript.Session.Rejection
import ClassScript.Text.Utf8

/-!
# Sessions

A session runs one text after another on one machine, so that what a text defines
at top level is there for the texts behind it. A text that is rejected does not
touch the machine.
-/

namespace ClassScript

/-- A machine, and the identity of the next occurrence to be parsed. -/
structure Session where
  machine : Machine.State
  nextId : Syntax.NodeId

namespace Session

open Syntax Parsing Binding Machine

/-- Why a file could not be read. -/
inductive FileError where
  | notFound
  | isDirectory
  /-- A file stands where the path needs a directory. -/
  | notADirectory
  /-- Any other reason, in the words of the host. -/
  | other (message : String)
deriving Repr, DecidableEq

def FileError.message : FileError → String
  | .notFound => "No such file or directory (os error 2)"
  | .isDirectory => "Is a directory (os error 21)"
  | .notADirectory => "Not a directory (os error 20)"
  | .other message => message

/-- Why a text has no result. -/
inductive Failure where
  /-- The text did not pass a check. -/
  | rejected (rejection : Rejection)
  /-- The run stopped. -/
  | fault (fault : Fault)
  /-- The file that holds the text could not be read. -/
  | file (error : FileError)
  /-- The file that holds the text is no text. -/
  | encoding (fault : Text.Utf8.Fault)

namespace Failure

def message : Failure → String
  | rejected r => r.message
  | fault f => f.message
  | file e => e.message
  | encoding f => f.message

/-- Whether the text failed before any of it was run. -/
def isStatic : Failure → Bool
  | rejected _ => true
  | _ => false

/-- The exit status of a program that ends with the failure. -/
def exitCode : Failure → Nat
  | rejected _ => 65
  | fault _ => 70
  | file _ | encoding _ => 74

end Failure

/-- The outcome of a text: a result, a failure, or that no fuel was left. -/
inductive Outcome (α : Type) where
  | ok (value : α)
  | failed (failure : Failure)
  | outOfFuel

/-- The text that the bytes of a file are. -/
def readText (contents : Except FileError ByteArray) : Except Failure String :=
  match contents with
  | .error error => .error (.file error)
  | .ok bytes => (Text.Utf8.decode bytes).mapError .encoding

/-- A session before its first text. -/
def start (readings : Nat → Float) (sink : Sink) : Session :=
  ⟨State.start readings sink, 0⟩

/-- Do a computation on the session's machine. -/
def onMachine {α : Type} (s : Session) (run : Run α) : Outcome α × Session :=
  let ⟨machine, nextId⟩ := s
  match run machine with
  | .ok value machine => (.ok value, ⟨machine, nextId⟩)
  | .error (.fault fault) machine => (.failed (.fault fault), ⟨machine, nextId⟩)
  | .error .outOfFuel machine => (.outOfFuel, ⟨machine, nextId⟩)

/-- Run what a check accepted. A rejection only draws identities. -/
def onAccepted {α β : Type} (s : Session) (checked : Checked α)
    (run : Accepted α → Run β) : Outcome β × Session :=
  match checked with
  | (.error rejection, nextId) => (.failed (.rejected rejection), { s with nextId })
  | (.ok accepted, nextId) => onMachine { s with nextId } (run accepted)

/-- Run a program. -/
def run (fuel : Nat) (text : String) (s : Session) : Outcome Unit × Session :=
  s.onAccepted (checkProgram text s.nextId) fun program =>
    runProgram fuel program.tree program.locals

/-- The text of the value of a single expression. -/
def evaluate (fuel : Nat) (text : String) (s : Session) : Outcome String × Session :=
  s.onAccepted (checkExpression text s.nextId) fun e =>
    evaluateText fuel e.tree e.locals

/-- Run an interactive line. If it is an expression, the text of its value is the
result. -/
def runInput (fuel : Nat) (input : Accepted Input) : Run (Option String) :=
  match input.tree with
  | .statements program => do
    runProgram fuel program input.locals
    return none
  | .expression e => return some (← evaluateText fuel e input.locals)

def runLine (fuel : Nat) (text : String) (s : Session) : Outcome (Option String) × Session :=
  s.onAccepted (checkInput text s.nextId) (runInput fuel)

/-- All that was written to the session's output. -/
def written (s : Session) : ByteArray := s.machine.sink.written

/-- Write to the session's output, beside what its programs print. -/
def emit (text : String) (s : Session) : Session :=
  let (_, sink) := s.machine.sink.write text.toUTF8
  { s with machine := { s.machine with sink } }

end Session

end ClassScript
