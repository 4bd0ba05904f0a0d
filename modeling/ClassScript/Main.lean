import ClassScript.CommandLine

/-!
# The program

Reads the arguments, files and input that a call of the program needs, and writes
what it leaves behind. The prompt is served line by line, so that its output stands
before the next line is typed.
-/

open ClassScript ClassScript.Session ClassScript.CommandLine

/-- More calls and rounds than a run can make in a lifetime. -/
def lifetimeFuel : Nat := 1000000000000000000

/-- The bytes of a file. -/
def readFileBytes (path : String) : IO (Except FileError ByteArray) := do
  try
    return .ok (← IO.FS.readBinFile path)
  catch
    | .noFileOrDirectory _ _ _ => return .error .notFound
    | .inappropriateType _ code _ =>
      return .error (if code = 20 then .notADirectory else .isDirectory)
    | failure => return .error (.other (toString failure))

/-- Readings of a clock that starts at a number of milliseconds. -/
def clockFrom (start : Nat) (taken : Nat) : Float := (start + taken).toFloat / 1000

/-- Serve the prompt until the input ends. `shown` is the number of bytes of output
that have been written already. -/
partial def servePrompt (i : Interaction) (shown : Nat) : IO UInt32 := do
  let i := i.ask
  let output ← IO.getStdout
  output.write (i.session.written.extract shown i.session.written.size)
  output.flush
  let line? ← try pure (some (← (← IO.getStdin).getLine)) catch _ => pure none
  match line? with
  | none =>
    IO.eprint notText
    return 1
  | some "" => return 0
  | some line =>
    let next := ({ i with reports := "" }).line lifetimeFuel line
    IO.eprint next.reports
    servePrompt next i.session.written.size

def main (arguments : List String) : IO UInt32 := do
  let readings := clockFrom (← IO.monoMsNow)
  match interpret arguments with
  | .command log command =>
    if log then IO.FS.writeFile "app.log" ""
    match command with
    | .repl => servePrompt ⟨Session.start readings .unlimited, ""⟩ 0
    | .run path | .evaluate path =>
      let contents ← readFileBytes path
      let effects := perform lifetimeFuel readings (fun _ => contents) .empty log command
      (← IO.getStdout).write effects.output
      IO.eprint effects.reports
      return effects.exitCode.toUInt32
  | other =>
    let effects := effects 0 readings (fun _ => .error .notFound) .empty arguments
    (← IO.getStdout).write effects.output
    IO.eprint effects.reports
    return (if other = .misuse then misuseStatus.toUInt32 else 0)
