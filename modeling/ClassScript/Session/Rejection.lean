import ClassScript.Binding.Resolution
import ClassScript.Parsing.Reader

/-!
# Rejected texts

A text is checked in three passes: its tokens, its grammar, its names. The first
pass that finds an error rejects the text with all the errors of that pass, and the
later passes do not run.
-/

namespace ClassScript.Session

open Source Syntax Parsing Binding

/-- Why a text was not run: the errors of one pass. -/
inductive Rejection where
  | lexical (errors : List LexicalError)
  | syntactic (errors : List SyntaxError)
  | binding (errors : List BindingError)
deriving Repr, DecidableEq

/-- The line of a report: where the error is, and what it is. -/
def reportLine (line : Nat) (place text : String) : String :=
  "[line " ++ toString line ++ "] Error" ++ place ++ ": " ++ text

/-- One report for each error. -/
def Rejection.reports : Rejection → List String
  | .lexical errors => errors.map fun e => reportLine e.line "" e.cause.message
  | .syntactic errors =>
    errors.map fun e => reportLine e.line (location e.lexeme) e.cause.message
  | .binding errors =>
    errors.map fun e => reportLine e.line (location (some e.lexeme)) e.cause.message

def Rejection.message (rejection : Rejection) : String :=
  "\n".intercalate rejection.reports

/-- A program or an expression that passed every check, with the table of its local
occurrences. -/
structure Accepted (α : Type) where
  tree : α
  locals : Locals

/-- The outcome of checking a text, and the next identity to draw. Identities are
drawn also where the text is rejected. -/
abbrev Checked (α : Type) := Except Rejection (Accepted α) × NodeId

/-- Check a text: its tokens, then the tree that a parser makes of them, then the
names in that tree. -/
def check {α : Type} (parse : Tokens → NodeId → Reading α × NodeId)
    (resolve : α → Except (List BindingError) Locals) (text : String)
    (nextId : NodeId) : Checked α :=
  match tokens text with
  | .error errors => (.error (.lexical errors), nextId)
  | .ok tokens =>
    match parse tokens nextId with
    | (.error errors, nextId) => (.error (.syntactic errors), nextId)
    | (.ok tree, nextId) =>
      match resolve tree with
      | .error errors => (.error (.binding errors), nextId)
      | .ok locals => (.ok ⟨tree, locals⟩, nextId)

def checkProgram : String → NodeId → Checked Program :=
  check Parsing.program Binding.ofProgram

def checkExpression : String → NodeId → Checked Expr :=
  check Parsing.singleExpression Binding.ofExpression

/-- The table of an interactive line. -/
def resolveInput : Input → Except (List BindingError) Locals
  | .statements program => Binding.ofProgram program
  | .expression e => Binding.ofExpression e

def checkInput : String → NodeId → Checked Input :=
  check Parsing.input resolveInput

end ClassScript.Session
