import ClassScript.Session.Interactive

/-!
# The command line

`run FILE` runs a program, `evaluate FILE` shows the value of a single expression,
and `repl` prompts for lines. What a call of the program does is a function of its
arguments, the files and the input; `Main` does the reading and writing.
-/

namespace ClassScript.CommandLine

open Session

def versionText : String := "treelox 0.1.0\n"

/-- What help can be asked for. -/
inductive Topic where
  | program
  | run
  | evaluate
  | repl
  | help
deriving Repr, DecidableEq

/-- Whether a command is about a file. -/
def Topic.takesFile : Topic → Bool
  | run | evaluate => true
  | program | repl | help => false

/-- What a command does, in a line. -/
def Topic.summary : Topic → String
  | program => "Tree-walking interpreter for a small class-based scripting language"
  | run => "Run a script"
  | evaluate => "Print the value of a file holding a single expression"
  | repl => "Interactive prompt; definitions persist between lines"
  | help => "Print this message or the help of the given subcommand(s)"

/-- The form of a command. -/
def Topic.usage : Topic → String
  | program => "treelox [OPTIONS] <COMMAND>"
  | run => "treelox run [OPTIONS] <SCRIPT>"
  | evaluate => "treelox evaluate [OPTIONS] <SCRIPT>"
  | repl => "treelox repl [OPTIONS]"
  | help => "treelox help [COMMAND]..."

/-- The options that every command has. -/
def commandOptions : List String :=
  ["", "Options:", "      --log   Write debug logs to app.log", "  -h, --help  Print help"]

/-- What can stand behind a command. -/
def Topic.details : Topic → List String
  | program =>
    ["", "Commands:", "  run       " ++ run.summary, "  evaluate  " ++ evaluate.summary,
      "  repl      " ++ repl.summary, "  help      " ++ help.summary, "", "Options:",
      "      --log      Write debug logs to app.log", "  -h, --help     Print help",
      "  -V, --version  Print version"]
  | run | evaluate => ["", "Arguments:", "  <SCRIPT>  "] ++ commandOptions
  | repl => commandOptions
  | help => ["", "Arguments:", "  [COMMAND]...  Print help for the subcommand(s)"]

def helpText (topic : Topic) : String :=
  "\n".intercalate ([topic.summary, "", "Usage: " ++ topic.usage] ++ topic.details) ++ "\n"

/-- What the program is asked to do. -/
inductive Command where
  | run (path : String)
  | evaluate (path : String)
  | repl
deriving Repr, DecidableEq

/-- What the arguments say. -/
inductive Invocation where
  /-- A command, and whether a log is to be kept. -/
  | command (log : Bool) (command : Command)
  | version
  | help (topic : Topic)
  /-- The arguments make no sense. -/
  | misuse
deriving Repr, DecidableEq

/-- A word that names an option and not a file. A lone hyphen is a file name. -/
def isOption (word : String) : Bool :=
  word.startsWith "-" && word != "-"

/-- The first letter of options that are single letters behind one hyphen. -/
def letterOption? (word : String) : Option Char :=
  match word.toList with
  | '-' :: letter :: _ => if letter = '-' then none else some letter
  | _ => none

/-- The file that a word names, where no file has been named yet and the command
takes one. An empty word names no file. -/
def namedFile? (command : Topic) (path : Option String) (word : String) :
    Option String :=
  if command.takesFile && path.isNone && !word.isEmpty then some word else none

/-- The arguments behind a command: whether a log is asked for, and the file. `log`
and `path` are what has been read so far. Each word is judged before the next one is
looked at, so a word that makes no sense is not excused by a later call for help.
Behind `--` there are only names of files. -/
def commandArguments (command : Topic) (log : Bool) (path : Option String) :
    List String → Except Invocation (Bool × Option String)
  | [] => .ok (log, path)
  | "--" :: [] => .ok (log, path)
  | "--" :: file :: rest =>
    match namedFile? command path file, rest with
    | some file, [] => .ok (log, some file)
    | _, _ => .error .misuse
  | word :: rest =>
    if word = "--log" then
      if log then .error .misuse else commandArguments command true path rest
    else if word = "--help" || letterOption? word = some 'h' then .error (.help command)
    else if isOption word then .error .misuse
    else
      match namedFile? command path word with
      | some file => commandArguments command log (some file) rest
      | none => .error .misuse

/-- A command that takes one file. -/
def fileCommand (command : Topic) (log : Bool) (make : String → Command)
    (rest : List String) : Invocation :=
  match commandArguments command false none rest with
  | .ok (own, some path) => .command (log || own) (make path)
  | .ok (_, none) => .misuse
  | .error invocation => invocation

/-- The command that takes no file. -/
def replCommand (log : Bool) (rest : List String) : Invocation :=
  match commandArguments .repl false none rest with
  | .ok (own, _) => .command (log || own) .repl
  | .error invocation => invocation

/-- What the words behind `help` ask for: the program, or the one command named. -/
def helpFor : List String → Invocation
  | [] => .help .program
  | ["run"] => .help .run
  | ["evaluate"] => .help .evaluate
  | ["repl"] => .help .repl
  | ["help"] => .help .help
  | _ => .misuse

/-- The meaning of the arguments, where `log` says whether a log was already asked
for. Arguments are read from left to right, and the first that asks for the version,
asks for help or makes no sense decides. -/
def interpretWith (log : Bool) : List String → Invocation
  | [] => .misuse
  | "--log" :: rest => if log then .misuse else interpretWith true rest
  | "--version" :: _ => .version
  | "--help" :: _ => .help .program
  | "run" :: rest => fileCommand .run log .run rest
  | "evaluate" :: rest => fileCommand .evaluate log .evaluate rest
  | "repl" :: rest => replCommand log rest
  | "help" :: rest => helpFor rest
  | word :: _ =>
    match letterOption? word with
    | some 'V' => .version
    | some 'h' => .help .program
    | _ => .misuse

def interpret (arguments : List String) : Invocation := interpretWith false arguments

/-- What a call of the program leaves behind. -/
structure Effects where
  exitCode : Nat
  output : ByteArray
  reports : String
  /-- Whether a log was begun. -/
  logged : Bool

/-- The exit status of a call whose arguments make no sense. -/
def misuseStatus : Nat := 2

/-- The effects of a finished command. -/
def finish {α : Type} (log : Bool) (result : Outcome α × Session) : Effects :=
  let output := result.2.written
  match result.1 with
  | .ok _ => ⟨0, output, "", log⟩
  | .failed failure => ⟨failure.exitCode, output, failure.message ++ "\n", log⟩
  | .outOfFuel => ⟨1, output, "out of fuel\n", log⟩

/-- Show the text of a value. -/
def showResult (result : Outcome String × Session) : Outcome String × Session :=
  match result with
  | (.ok text, session) => (.ok text, session.emit (text ++ "\n"))
  | other => other

/-- Load a text and do something with it in a session. -/
def withText {α : Type} (contents : Except FileError ByteArray) (session : Session)
    (act : String → Session → Outcome α × Session) : Outcome α × Session :=
  match readText contents with
  | .ok text => act text session
  | .error failure => (.failed failure, session)

/-- Carry out a command. -/
def perform (fuel : Nat) (readings : Nat → Float)
    (file : String → Except FileError ByteArray) (input : ByteArray) (log : Bool)
    (command : Command) : Effects :=
  let session := Session.start readings .unlimited
  match command with
  | .run path => finish log (withText (file path) session (Session.run fuel))
  | .evaluate path =>
    finish log (withText (file path) session fun text s =>
      showResult (s.evaluate fuel text))
  | .repl =>
    let (exitCode, done) := Interaction.lines fuel (input.size + 1) input.toList ⟨session, ""⟩
    ⟨exitCode, done.session.written, done.reports, log⟩

/-- The effects of a call of the program. -/
def effects (fuel : Nat) (readings : Nat → Float)
    (file : String → Except FileError ByteArray) (input : ByteArray)
    (arguments : List String) : Effects :=
  match interpret arguments with
  | .command log command => perform fuel readings file input log command
  | .version => ⟨0, versionText.toUTF8, "", false⟩
  | .help topic => ⟨0, (helpText topic).toUTF8, "", false⟩
  | .misuse => ⟨misuseStatus, .empty, helpText .program, false⟩

end ClassScript.CommandLine
