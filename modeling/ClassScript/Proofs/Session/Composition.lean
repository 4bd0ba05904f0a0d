import ClassScript.Proofs.Session.Checks
import ClassScript.Proofs.Session.Unseen

/-!
# One text or two

A session may be handed two programs one after the other, or both as one text, one below
the other. If the first one succeeds, that makes no difference but for lines: those that
come from the second program are further down in the joined text. To say which ones these
are, lines carry marks: a run whose lines are marked is read as the run of the second
program alone, and as that of the joined text (`run_compose`).
-/

namespace ClassScript.Session

open Source Syntax Parsing Object Binding Machine

/-! ## Marks -/

/-- Lines of what was there before the text at hand. -/
def earlierLines : Renaming := .ofLines (2 * ·)

/-- Lines of the text at hand. -/
def ownLines : Renaming := .ofLines (2 * · + 1)

/-- Lines without their marks, where those of the text at hand are further down. -/
def readMarks (lines : Nat) : Renaming := .ofLines fun line => line / 2 + line % 2 * lines

theorem readMarks_earlier (lines : Nat) : (readMarks lines).comp earlierLines = .same := by
  have line (l : Nat) : 2 * l / 2 + 2 * l % 2 * lines = l := by simp
  exact congrArg (fun f => Renaming.mk f _) (funext line)

theorem readMarks_own (lines : Nat) : (readMarks lines).comp ownLines = down lines := by
  have line (l : Nat) : (2 * l + 1) / 2 + (2 * l + 1) % 2 * lines = l + lines := by
    rw [Nat.mul_add_mod, Nat.mul_add_div Nat.two_pos]
    simp
  exact congrArg (fun f => Renaming.mk f _) (funext line)

/-- What a session answers to a program, and the session afterwards. -/
abbrev Answer := Outcome Unit × Session

def Outcome.rename {α : Type} (r : Renaming) : Outcome α → Outcome α
  | .failed (.fault fault) => .failed (.fault (fault.rename r))
  | other => other

/-- The session with other lines in all code that its machine holds. -/
def rename (r : Renaming) (s : Session) : Session :=
  { s with machine := s.machine.rename r s.machine.locals }

/-- An answer whose lines are marked, as it is without marks. -/
def Answer.read (answer : Answer) (lines : Nat) : Answer :=
  (answer.1.rename (readMarks lines), answer.2.rename (readMarks lines))

/-- Run a program with a mark at every line: at those of its own tokens, and at those of
all that was there before. -/
def runMarked (fuel : Nat) (text : String) (s : Session) : Answer :=
  (s.rename earlierLines).onAccepted (checkProgram text s.nextId) fun program =>
    runProgram fuel (Stmt.renameAll ownLines program.tree) program.locals

/-- What a global name stands for. -/
def global? (s : Session) (name : String) : Option Value :=
  s.machine.scopes.own? s.machine.globals name

theorem Answer.written_read (answer : Answer) (lines : Nat) :
    (answer.read lines).2.written = answer.2.written := rfl

theorem Answer.global?_read (answer : Answer) (lines : Nat) (name : String) :
    (answer.read lines).2.global? name =
      (answer.2.global? name).map (Value.rename (readMarks lines)) :=
  Scopes.own?_rename ..

/-! ## Runs of accepted programs -/

theorem onAccepted_run {s : Session} {program : Program} {locals : Locals} {last : NodeId}
    (fuel : Nat) (edit : Program → Program) :
    s.onAccepted (.ok ⟨program, locals⟩, last)
        (fun accepted => runProgram fuel (edit accepted.tree) accepted.locals) =
      (.of (runStatements fuel (edit program) (enter s.machine locals)),
        ⟨left (runStatements fuel (edit program) (enter s.machine locals)), last⟩) := by
  simp only [onAccepted, onMachine_eq]
  rfl

/-- Running an accepted text runs its statements on the machine with the table taken in. -/
theorem run_accepted {s : Session} {text : String} {program : Program} {locals : Locals}
    {last : NodeId} (accepted : checkProgram text s.nextId = (.ok ⟨program, locals⟩, last))
    (fuel : Nat) : s.run fuel text =
      (.of (runStatements fuel program (enter s.machine locals)),
        ⟨left (runStatements fuel program (enter s.machine locals)), last⟩) := by
  rw [run, accepted]
  exact onAccepted_run fuel id

/-- A program that succeeds was accepted, and all of its statements ended normally. -/
theorem run_succeeds {s : Session} {text : String} {fuel : Nat}
    (succeeds : (s.run fuel text).1 = .ok ()) :
    ∃ program locals last m, checkProgram text s.nextId = (.ok ⟨program, locals⟩, last) ∧
      runStatements fuel program (enter s.machine locals) = .ok () m := by
  cases checked : checkProgram text s.nextId with
  | mk result last =>
    cases result with
    | error rejection =>
      rw [run, checked] at succeeds
      cases succeeds
    | ok accepted =>
      rw [run_accepted checked] at succeeds
      cases ended : runStatements fuel accepted.tree (enter s.machine accepted.locals) with
      | ok value m => exact ⟨_, _, _, m, rfl, ended⟩
      | error e m =>
        simp only [ended] at succeeds
        cases e <;> cases succeeds

/-- Statements in a row are run one part after the other. -/
theorem runStatements_append (fuel : Nat) (first second : List Stmt) :
    runStatements fuel (first ++ second) =
      runStatements fuel first >>= fun _ => runStatements fuel second := by
  induction first with
  | nil => rfl
  | cons s rest ih =>
    simp only [List.cons_append, runStatements, bind_assoc]
    congr 1
    funext completion
    cases completion with
    | normal => exact ih
    | _ => rfl

theorem of_renameEnd {α : Type} (r : Renaming) (table : Locals)
    (ended : EStateM.Result Stop Machine.State α) :
    Outcome.of (renameEnd r table id ended) = (Outcome.of ended).rename r := by
  cases ended with
  | ok value m => rfl
  | error e m => cases e <;> rfl

/-- Reading the marks of a run gives the run of the code without marks. -/
theorem runStatements_read (lines fuel : Nat) (program : Program) {m : Machine.State}
    (hosts : ∀ action ∈ m.hosts, action = .clock) (last : NodeId) :
    Answer.read (.of (runStatements fuel (Stmt.renameAll ownLines program)
          (m.rename earlierLines m.locals)),
        ⟨left (runStatements fuel (Stmt.renameAll ownLines program)
          (m.rename earlierLines m.locals)), last⟩) lines =
      (.of (runStatements fuel (Stmt.renameAll (down lines) program) m),
        ⟨left (runStatements fuel (Stmt.renameAll (down lines) program) m), last⟩) := by
  have fits : Fits (readMarks lines) m.locals m.locals := fun _ => rfl
  have suits : Suits m.locals (m.rename earlierLines m.locals) := ⟨rfl, hosts⟩
  obtain ⟨suits', same⟩ :=
    commutes_runStatements fits fuel (Stmt.renameAll ownLines program) _ suits
  rw [Stmt.renameAll_renameAll, readMarks_own, Machine.State.rename_rename, readMarks_earlier,
    Machine.State.rename_same] at same
  rw [show runStatements fuel (Stmt.renameAll (down lines) program) m = _ from same]
  simp only [Answer.read, of_renameEnd, left_renameEnd, rename, suits'.locals]

theorem after_append_run (s : Session) (steps : List Step) (text : String) (fuel : Nat) :
    s.after (steps ++ [⟨.run, text, fuel⟩]) = ((s.after steps).run fuel text).2 := by
  rw [after, List.foldl_append]
  rfl

/-! ## Both ways -/

section Both

/-- The statements of a joined text run as those of the first program, and then those of
the second one. -/
theorem runStatements_joined {inputs : List Input} {s : Session} (steady : Steady inputs s)
    (unseen : Unseen s.nextId s.machine) {first second : String} {fuel mid last : Nat}
    {above below : Program} {a b : Locals} {m : Machine.State} (edit : Program → Program)
    (accepted : checkProgram first s.nextId = (.ok ⟨above, a⟩, mid))
    (accepted' : checkProgram second mid = (.ok ⟨below, b⟩, last))
    (ran : runStatements fuel above (enter s.machine a) = .ok () m) :
    runStatements fuel (above ++ edit below) (enter s.machine (a.merge b)) =
      runStatements fuel (edit below) (enter m b) := by
  -- the first program has run, and the table of the second is there already
  have early : runStatements fuel above (enter s.machine (a.merge b)) = .ok () (enter m b) :=
    run_early steady unseen (accepts_of_checkProgram accepted)
      (fun id => (accepts_of_checkProgram accepted').unknown) ran
  rw [runStatements_append]
  simp only [bind, EStateM.bind, early]

variable (readings : Nat → Float) (sink : Sink) (steps : List Step) (fuel : Nat)

/-- Whatever a session was handed before, if a program succeeds, then a second one behind
it and the text with one below the other do the same. Both ways give the answer of one
run whose lines carry marks: handed over alone, the second program has the lines that its
own tokens have there, and in the joined text those lines, and no others, are further
down by the lines of the first. So both ways end alike, have printed the same, and leave
the same global names bound to the same values. -/
theorem run_compose {first second : String} (acceptable : Acceptable (checkProgram second))
    (succeeds : (((start readings sink).after steps).run fuel first).1 = .ok ()) :
    let session := (start readings sink).after steps
    let between := (session.run fuel first).2
    let twice := between.run fuel second
    let once := session.run fuel (first ++ "\n" ++ second)
    let marked := between.runMarked fuel second
    let lines := newlines first.toList + 1
    (twice = marked.read 0 ∧ once = marked.read lines) ∧
      once.2.written = twice.2.written ∧
      ∀ name, twice.2.global? name =
          (marked.2.global? name).map (Value.rename (readMarks 0)) ∧
        once.2.global? name =
          (marked.2.global? name).map (Value.rename (readMarks lines)) := by
  intro session between twice once marked lines
  obtain ⟨above, a, mid, m, accepted, ran⟩ := run_succeeds succeeds
  obtain ⟨below, b, last, accepted'⟩ := checkProgram_anywhere acceptable mid
  -- the first text was accepted, or it would not have succeeded
  have between_eq : between = ⟨m, mid⟩ := by
    show (session.run fuel first).2 = _
    rw [run_accepted accepted, ran]
    rfl
  have hosts : ∀ action ∈ (enter m b).hosts, action = .clock := by
    have steady := steady_after readings sink (steps ++ [⟨.run, first, fuel⟩])
    rw [after_append_run, show (session.run fuel first).2 = _ from between_eq] at steady
    exact steady.healthy.hosts
  have twice_eq : twice = (.of (runStatements fuel below (enter m b)),
      ⟨left (runStatements fuel below (enter m b)), last⟩) := by
    show between.run fuel second = _
    rw [between_eq]
    exact run_accepted accepted' fuel
  -- in the joined text the second program starts some lines further down
  have once_eq : once = (.of (runStatements fuel (Stmt.renameAll (down lines) below) (enter m b)),
      ⟨left (runStatements fuel (Stmt.renameAll (down lines) below) (enter m b)), last⟩) := by
    have joined := runStatements_joined (steady_after readings sink steps)
      (unseen_after readings sink steps) (Stmt.renameAll (down lines)) accepted accepted' ran
    rw [← joined]
    exact run_accepted (checkProgram_joined accepted accepted') fuel
  -- the marked run tells lines of the second text from those of earlier ones
  have marked_eq : marked = (.of (runStatements fuel (Stmt.renameAll ownLines below)
        ((enter m b).rename earlierLines (enter m b).locals)),
      ⟨left (runStatements fuel (Stmt.renameAll ownLines below)
        ((enter m b).rename earlierLines (enter m b).locals)), last⟩) := by
    show between.runMarked fuel second = _
    rw [between_eq, runMarked, accepted']
    exact onAccepted_run fuel (Stmt.renameAll ownLines)
  -- reading the marks with no offset gives the separate run, with the lines of the first text the
  -- joined one
  have alone := runStatements_read 0 fuel below hosts last
  have joined := runStatements_read lines fuel below hosts last
  rw [← marked_eq, show Stmt.renameAll (down 0) below = below from Stmt.renameAll_same below,
    ← twice_eq] at alone
  rw [← marked_eq, ← once_eq] at joined
  refine ⟨⟨alone.symm, joined.symm⟩, ?_, fun name => ⟨?_, ?_⟩⟩
  · rw [← alone, ← joined, Answer.written_read, Answer.written_read]
  · rw [← alone, Answer.global?_read]
  · rw [← joined, Answer.global?_read]

end Both

/-- A program that uses what the one before it declared. -/
theorem used_below_declaration :
    let session := (start (fun _ => 0) .unlimited).after []
    let between := (session.run 9 "var a;").2
    let marked := between.runMarked 9 "print -a;"
    ((session.run 9 "var a;").1 = .ok () ∧ Acceptable (checkProgram "print -a;")) ∧
      between.run 9 "print -a;" = marked.read 0 ∧
      session.run 9 ("var a;" ++ "\n" ++ "print -a;") =
        marked.read (newlines "var a;".toList + 1) := by
  intro session between marked
  have succeeds : (session.run 9 "var a;").1 = .ok () := by cbv
  have acceptable : Acceptable (checkProgram "print -a;") := .of_passes (n := 0) (by decide +kernel)
  have both := run_compose (fun _ => 0) .unlimited [] 9 acceptable succeeds
  exact ⟨⟨succeeds, acceptable⟩, both.1⟩

end ClassScript.Session
