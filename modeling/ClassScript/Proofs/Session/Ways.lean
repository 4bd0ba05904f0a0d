import ClassScript.Proofs.Machine.Output
import ClassScript.Proofs.Session.Composition

/-!
# Three ways to evaluate an expression

A text that is a single expression can be evaluated for its value, handed over as an
interactive line, or printed by a program around it. All three are accepted with the same
tree and an empty table, and do the same on the machine; the program writes the value
behind what the expression itself prints (`three_ways`).
-/

namespace ClassScript.Session

open Source Syntax Parsing Object Binding Machine

/-! ## Output of a session -/

theorem mute_planOfProgram (program : List Stmt) : (planOfProgram program).Mute := by
  induction program with
  | nil => exact .ret ()
  | cons s rest ih =>
    refine (Plan.Mute.sub (.execute s)).bind fun completion => ?_
    cases completion with
    | normal => exact ih
    | _ => exact .prim fun _ _ => rfl

/-- No input prints but through its statements. -/
theorem mute_planOfInput (input : Input) : (planOfInput input).Mute := by
  cases input with
  | statements program => exact (mute_planOfProgram program).bind fun _ => .ret _
  | expression e => exact (Plan.Mute.sub (.evaluate e)).bind fun _ => .ret _

/-- A text only adds to the output of a session. -/
theorem Step.adds (step : Step) (s : Session) : Adds s.machine (step.take s).2.machine := by
  cases checked : (step.check s.nextId).1 with
  | error rejection =>
    rw [Step.take_rejected checked]
    exact .of_eq rfl
  | ok input =>
    obtain ⟨r, rfl, taken⟩ := Step.take_accepted checked
    rw [taken]
    exact (mute_planOfInput input.tree).adds.outcome step.fuel (enter s.machine input.locals)

theorem adds_after (s : Session) (steps : List Step) :
    Adds s.machine (s.after steps).machine := by
  induction steps generalizing s with
  | nil => exact .of_eq rfl
  | cons step rest ih => exact (step.adds s).trans (ih _)

/-! ## The three ways -/

/-- What a program that prints an expression answers, where the expression itself gives
this outcome and leaves this session: the value stands behind what was printed so far, on
a line of its own, and a failure is the same. -/
def Answer.printed : Outcome String × Session → Answer
  | (.ok shown, s) => (.ok (), s.emit (shown ++ "\n"))
  | (.failed failure, s) => (.failed failure, s)
  | (.outOfFuel, s) => (.outOfFuel, s)

section Ways

variable {s : Session} {text : String} {e : Expr} {locals : Locals} {last : NodeId}
  (accepted : checkExpression text s.nextId = (.ok ⟨e, locals⟩, last)) (fuel : Nat)
include accepted

/-- The text of an expression's value is all that is told of its run. -/
theorem evaluate_accepted : s.evaluate fuel text =
    ((Outcome.of (Machine.evaluate fuel e (enter s.machine locals))).map Value.display,
      ⟨left (Machine.evaluate fuel e (enter s.machine locals)), last⟩) := by
  have checked : (⟨.evaluate, text, fuel⟩ : Step).check s.nextId =
      (.ok ⟨.expression e, locals⟩, last) := congrArg (Checked.map Input.expression) accepted
  obtain rfl : locals = .empty := (accepts_of_check _ checked).locals_expression
  rw [evaluate, accepted]
  simp only [onAccepted, onMachine_eq, evaluateText_empty, bind, EStateM.bind]
  cases Machine.evaluate fuel e (enter s.machine .empty) with
  | ok v m => rfl
  | error stopped m => cases stopped <;> rfl

theorem runLine_accepted : s.runLine fuel text =
    ((s.evaluate fuel text).1.map some, (s.evaluate fuel text).2) := by
  rw [runLine, checkInput_expression accepted, evaluate, accepted]
  simp only [onAccepted, onMachine_eq, runInput, bind, EStateM.bind]
  cases evaluateText fuel e locals s.machine with
  | ok shown m => rfl
  | error stopped m => cases stopped <;> rfl

/-- The statement around the expression takes one more fuel. -/
theorem run_print_accepted (unlimited : s.machine.sink.room = none) :
    s.run (fuel + 1) ("print " ++ text ++ "\n" ++ ";") =
      Answer.printed (s.evaluate fuel text) := by
  rw [run_accepted (checkProgram_print accepted), evaluate_accepted accepted]
  have adds : Adds (enter s.machine locals) (left (Machine.evaluate fuel e _)) :=
    adds_run fuel (.evaluate e) (enter s.machine locals)
  simp only [runStatements, Machine.execute, bind, EStateM.bind]
  generalize Machine.evaluate fuel e (enter s.machine locals) = ended at adds
  cases ended with
  | ok v m =>
    have room : m.sink.room = none := adds.unlimited unlimited
    have sink : (m.sink.write (v.display ++ "\n").toUTF8).1 = true := by
      simp only [Sink.write, room]
    simp only [Machine.print, sink]
    rfl
  | error stopped m => cases stopped <;> rfl

end Ways

/-- What is written to an output without limit stands behind all that was there. -/
theorem written_emit {s : Session} (unlimited : s.machine.sink.room = none) (text : String) :
    (s.emit text).written = s.written ++ text.toUTF8 := by
  simp only [written, emit, Sink.write, unlimited]

/-- An expression evaluated for its value, as an interactive line, and in a program that
prints it, whatever the session was handed before. All three do the same on the machine,
and print the same on the way. The line gives the value's text, and the program writes it
behind all that was printed, with a line end; where evaluation fails, the others fail in
the same way. The output has no limit, and the program has the fuel for its statement. -/
theorem three_ways (readings : Nat → Float) (steps : List Step) (fuel : Nat) {text : String}
    (acceptable : Acceptable (checkExpression text)) :
    let session := (start readings .unlimited).after steps
    let value := session.evaluate fuel text
    let printed := session.run (fuel + 1) ("print " ++ text ++ "\n" ++ ";")
    (∀ rejection, value.1 ≠ .failed (.rejected rejection)) ∧
      session.runLine fuel text = (value.1.map some, value.2) ∧
      printed = Answer.printed value ∧
      ∀ shown, value.1 = .ok shown →
        printed.2.written = value.2.written ++ (shown ++ "\n").toUTF8 := by
  intro session value printed
  obtain ⟨e, locals, last, accepted⟩ := checkExpression_anywhere acceptable session.nextId
  have value_eq : value = _ := evaluate_accepted accepted fuel
  -- without a limit every print succeeds
  have unlimited : session.machine.sink.room = none :=
    (adds_after (start readings .unlimited) steps).unlimited rfl
  have after : value.2.machine.sink.room = none := by
    rw [value_eq]
    exact (adds_run fuel (.evaluate e) (enter session.machine locals)).unlimited unlimited
  have printed_eq : printed = Answer.printed value := run_print_accepted accepted fuel unlimited
  refine ⟨?_, runLine_accepted accepted fuel, printed_eq, ?_⟩
  · intro rejection
    rw [value_eq]
    cases Machine.evaluate fuel e (enter session.machine locals) with
    | ok v m => exact nofun
    | error stopped m => cases stopped <;> exact nofun
  · intro shown given
    rw [← written_emit after, printed_eq]
    generalize value = ended at given
    obtain ⟨outcome, left⟩ := ended
    subst given
    rfl

/-- A constant, with a comment behind it. -/
theorem constant_three_ways :
    let session := (start (fun _ => 0) .unlimited).after []
    let value := session.evaluate 2 "nil // none"
    Acceptable (checkExpression "nil // none") ∧
      session.runLine 2 "nil // none" = (value.1.map some, value.2) ∧
      session.run 3 ("print " ++ "nil // none" ++ "\n" ++ ";") = Answer.printed value := by
  intro session value
  have acceptable : Acceptable (checkExpression "nil // none") :=
    .of_passes (n := 0) (by decide +kernel)
  have ways := three_ways (fun _ => 0) [] 2 acceptable
  exact ⟨acceptable, ways.2.1, ways.2.2.1⟩

end ClassScript.Session
