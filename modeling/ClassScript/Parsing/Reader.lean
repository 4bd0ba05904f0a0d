import ClassScript.Parsing.Statement

/-!
# Reading programs, expressions and interactive input

A reader holds the tokens of one text. Each reading starts where the one before
stopped, and leaves no recorded error behind. `input` is the reading of an
interactive line: an expression if what is left is one, and otherwise the program
that the whole text is.
-/

namespace ClassScript.Parsing

open Source Syntax

/-- The tokens of a text and how far they have been read. -/
structure Reader where
  tokens : Tokens
  state : State

/-- A reader of tokens from the first one on, drawing identities from the given one
on. -/
def Reader.start (tokens : Tokens) (nextId : NodeId) : Reader :=
  ⟨tokens, ⟨tokens.list, tokens.endLine, [], nextId⟩⟩

/-- The outcome of a reading: what was read, or every error found. -/
abbrev Reading (α : Type) := Except (List SyntaxError) α

/-- What an interactive line turned out to be. -/
inductive Input where
  | statements (program : Program)
  | expression (e : Expr)

/-- Take the recorded errors away; what was read counts only if there are none. -/
def State.conclude {α : Type} (s : State) (value : α) : Reading α × State :=
  match s.errors with
  | [] => (.ok value, s)
  | errors => (.error errors, { s with errors := [] })

/-- The declarations up to the end, behind those already parsed, newest first. -/
def declarationsToEnd : Nat → List Stmt → Parser (List Stmt)
  | 0, _ => fail .nestingTooDeep
  | fuel + 1, done => do
    if ← atEnd then return done.reverse
    match ← recovering (declaration fuel) with
    | some stmt => declarationsToEnd fuel (stmt :: done)
    | none => declarationsToEnd fuel done

/-- A parser's outcome where an error that stops it counts as one more recorded. -/
def State.run {α : Type} (s : State) (p : Parser α) : Reading α × State :=
  match p s with
  | .ok value s => s.conclude value
  | .error error s =>
    (.error (s.errors ++ [error]), { s with errors := [] })

/-- Fuel for what is left to read. -/
def State.fuel (s : State) : Nat := allowance s.rest.length

/-- The program from here to the end. -/
def State.program (s : State) : Reading Program × State :=
  s.run (declarationsToEnd s.fuel [])

/-- An expression that reaches from here to the end. -/
def wholeExpression (fuel : Nat) : Parser Expr := do
  let e ← expression fuel
  unless ← atEnd do report .endOfExpression
  return e

/-- The expression that reaches from here to the end. -/
def State.expression (s : State) : Reading Expr × State :=
  s.run (wholeExpression s.fuel)

/-- Read a program. -/
def Reader.program (reader : Reader) : Reading Program × Reader :=
  let (reading, state) := reader.state.program
  (reading, { reader with state })

/-- Read an expression. -/
def Reader.expression (reader : Reader) : Reading Expr × Reader :=
  let (reading, state) := reader.state.expression
  (reading, { reader with state })

/-- The reader back at the first token, without recorded errors. -/
def Reader.restart (reader : Reader) : Reader :=
  { reader with state := { reader.state with rest := reader.tokens.list, errors := [] } }

/-- Read the program that the whole text is, from the first token on. -/
def Reader.again (reader : Reader) : Reading Input × Reader :=
  let (reading, done) := reader.restart.program
  (reading.map .statements, done)

/-- Read an interactive line: an expression that reaches to the end with no error
recorded, or the program from the first token on. -/
def Reader.input (reader : Reader) : Reading Input × Reader :=
  match Parsing.expression reader.state.fuel reader.state with
  | .ok e state =>
    if state.rest.isEmpty && state.errors.isEmpty then
      (.ok (.expression e), { reader with state })
    else Reader.again { reader with state }
  | .error _ state => Reader.again { reader with state }

/-- An interactive line is an expression exactly where `Reader.expression` reads one: both
ask for the end and for a clean record. What the attempt recorded is forgotten. -/
theorem Reader.input_eq (reader : Reader) : reader.input =
    match reader.expression with
    | (.ok e, after) => (.ok (.expression e), after)
    | (.error _, after) => after.again := by
  unfold Reader.input Reader.expression State.expression State.run wholeExpression
  simp only [bind, EStateM.bind]
  cases Parsing.expression reader.state.fuel reader.state with
  | error error state => rfl
  | ok e state =>
    obtain ⟨rest, line, errors, nextId⟩ := state
    cases rest with
    | cons token rest =>
      -- the missing end is one more error, and is forgotten
      cases errors <;> rfl
    | nil => cases errors <;> rfl

/-- The program that tokens form, and the next identity to draw. -/
def program (tokens : Tokens) (nextId : NodeId) : Reading Program × NodeId :=
  let (reading, reader) := (Reader.start tokens nextId).program
  (reading, reader.state.nextId)

/-- The single expression that tokens form, and the next identity to draw. -/
def singleExpression (tokens : Tokens) (nextId : NodeId) : Reading Expr × NodeId :=
  let (reading, reader) := (Reader.start tokens nextId).expression
  (reading, reader.state.nextId)

/-- The interactive line that tokens form, and the next identity to draw. -/
def input (tokens : Tokens) (nextId : NodeId) : Reading Input × NodeId :=
  let (reading, reader) := (Reader.start tokens nextId).input
  (reading, reader.state.nextId)

end ClassScript.Parsing
