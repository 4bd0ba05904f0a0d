import ClassScript.Session.Basic

/-!
# The interactive prompt

Lines are read one by one. Before each there is a prompt, and the value of a line
that is an expression is shown. A line that fails is reported, and the session goes
on.
-/

namespace ClassScript.Session

/-- What is written before a line is read. -/
def prompt : String := "> "

/-- A prompt in progress: the session, whose output holds the prompts and the values
shown, and the failures reported. -/
structure Interaction where
  session : Session
  reports : String

/-- The first line of some bytes, with its end, and the bytes behind it. -/
def splitLine (bytes : List UInt8) : List UInt8 × List UInt8 :=
  match bytes.dropWhile (· ≠ 10) with
  | [] => (bytes, [])
  | newline :: rest => (bytes.takeWhile (· ≠ 10) ++ [newline], rest)

/-- Run one line, show its value if it has one, and report a failure. -/
def Interaction.line (fuel : Nat) (text : String) (i : Interaction) : Interaction :=
  match i.session.runLine fuel text with
  | (.ok (some shown), session) => { i with session := session.emit (shown ++ "\n") }
  | (.ok none, session) => { i with session }
  | (.failed failure, session) =>
    { session, reports := i.reports ++ failure.message ++ "\n" }
  | (.outOfFuel, session) => { session, reports := i.reports ++ "out of fuel\n" }

/-- What is reported when the input is no text. -/
def notText : String := "Error: stream did not contain valid UTF-8\n"

/-- Write the prompt. -/
def Interaction.ask (i : Interaction) : Interaction :=
  { i with session := i.session.emit prompt }

/-- Run all the lines of an input: the exit status, and the prompt afterwards. The
first line that is no text ends it. `count` bounds the number of lines. -/
def Interaction.lines (fuel : Nat) : Nat → List UInt8 → Interaction → Nat × Interaction
  | 0, _, i => (0, i)
  | count + 1, input, i =>
    match splitLine input with
    | ([], _) => (0, i.ask)
    | (line, rest) =>
      match Text.Utf8.decode ⟨line.toArray⟩ with
      | .ok text => Interaction.lines fuel count rest (i.ask.line fuel text)
      | .error _ => (1, { i.ask with reports := i.reports ++ notText })

end ClassScript.Session
