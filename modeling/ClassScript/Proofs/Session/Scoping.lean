import ClassScript.Proofs.Session.History
import ClassScript.Proofs.Slots.Simulation
import Mathlib

/-!
# Programs are lexically scoped

The table of a program says for every local occurrence how many scopes to go up. A run
that follows it is the same as a run by slots, which has no table: both give the same
output and the same outcome, and one goes on for ever exactly if the other does
(`lexical_scoping`).
-/

namespace ClassScript.Session

open Syntax Parsing Object Binding Machine Slots

/-! ## The start -/

/-- A machine before its first program, with the program's table taken in, and the
store that goes with it. -/
def startPair (readings : Nat → Float) (sink : Sink) (locals : Locals) : Pair where
  homes := []
  machine := enter (.start readings sink) locals
  store := .start readings sink

section Start

variable {readings : Nat → Float} {sink : Sink} {locals : Locals} {inputs : List Input}

/-- The one scope of the start is that of the globals, which has the clock. -/
theorem own?_start (scope : ScopeId) (name : String) :
    (startPair readings sink locals).machine.scopes.own? scope name =
      if 0 = scope ∧ clockName = name then some (.host ⟨0, clockName, 0⟩) else none := by
  show ((Scopes.empty.push none).2.define 0 clockName _).own? scope name = _
  have unbound : (Scopes.empty.push none).2.own? scope name = none := by
    rw [Scopes.own?_push]
    rfl
  have inside : 0 < (Scopes.empty.push none).2.size := by simp
  rw [Scopes.own?_define, unbound]
  simp only [inside, and_true]
  rfl

/-- A fresh machine and a fresh store hold the same. -/
theorem related_start (healthy : Healthy inputs (enter (.start readings sink) locals)) :
    Related inputs (startPair readings sink locals) where
  size := rfl
  distinct := .nil
  slots _ _ housed := nomatch housed
  inner _ among := nomatch among
  homed scope name outside bound := by
    rw [own?_start, if_neg fun here => outside here.1.symm] at bound
    cases bound
  globals name := by
    rw [show (startPair readings sink locals).machine.globals = 0 from rfl, own?_start]
    show Option.Rel _ _ ((∅ : Std.ExtTreeMap String Value).insert clockName _)[name]?
    rw [Std.ExtTreeMap.getElem?_insert]
    -- the clock is the only global, on both sides
    by_cases here : clockName = name
    · rw [if_pos ⟨rfl, here⟩, if_pos (by simp [here])]
      exact .some (.host _)
    · rw [if_neg fun both => here both.2, if_neg (by simpa using here)]
      simp
  objects := rfl
  fields _ _ := .none
  rest := rfl
  rooted := ⟨healthy.inside, healthy.root⟩
  sound := healthy.sound
  clocks := healthy.hosts

/-- At the start there are no local names. -/
theorem fit_start (healthy : Healthy inputs (enter (.start readings sink) locals)) :
    Fit inputs 1 (startPair readings sink locals) [] where
  related := related_start healthy
  place := by
    refine ⟨⟨⟨rfl, nofun, fun name _ => ?_⟩, fun name among => nomatch among⟩, rfl⟩
    simp [startPair, Store.start]
  below := Nat.zero_lt_one
  size := healthy.inside

end Start

/-! ## Programs -/

/-- The outcome of a program and how its run by slots ends are the same, up to what an
internal fault says. -/
inductive SameOutcome : Outcome Unit → EStateM.Result Stop Store Unit → Prop
  | ok (σ : Store) : SameOutcome (.ok ()) (.ok () σ)
  | fault (fault : Fault) (σ : Store) :
      SameOutcome (.failed (.fault fault)) (.error (.fault fault) σ)
  | internal (f g : InternalFault) (σ : Store) :
      SameOutcome (.failed (.fault (.internal f))) (.error (.fault (.internal g)) σ)
  | outOfFuel (σ : Store) : SameOutcome .outOfFuel (.error .outOfFuel σ)

/-- All that a run by slots has written, however it ended. -/
def output : EStateM.Result Stop Store Unit → ByteArray
  | .ok _ σ | .error _ σ => σ.sink.written

/-- The program of a text does in a new session what it does by slots: it ends alike
and has the same output, with any fuel, so it also goes on for ever alike. -/
structure LexicallyScoped (readings : Nat → Float) (sink : Sink) (text : String)
    (program : Program) : Prop where
  outcome : ∀ fuel, SameOutcome ((start readings sink).run fuel text).1
    (Slots.runProgram fuel program (.start readings sink))
  output : ∀ fuel, ((start readings sink).run fuel text).2.written =
    output (Slots.runProgram fuel program (.start readings sink))
  diverges : (∀ fuel, ((start readings sink).run fuel text).1 = .outOfFuel) ↔
    ∀ fuel, ∃ σ, Slots.runProgram fuel program (.start readings sink) = .error .outOfFuel σ

section Programs

variable (readings : Nat → Float) (sink : Sink) {text : String} {program : Accepted Program}
  (accepted : (checkProgram text 0).1 = .ok program)
include accepted

/-- In a new session the machine is healthy when a program begins, and it knows the
program. -/
theorem healthy_enter :
    Healthy [.statements program.tree] (enter (.start readings sink) program.locals) :=
  (steady_start readings sink).enter (accepts_of_checkProgram (Prod.ext accepted rfl))

/-- A program in a new session is run with its table taken in. -/
theorem run_start (fuel : Nat) :
    ∃ r, r = runStatements fuel program.tree (enter (.start readings sink) program.locals) ∧
      ((start readings sink).run fuel text).1 = .of r ∧
      ((start readings sink).run fuel text).2.machine = left r := by
  refine ⟨_, rfl, ?_⟩
  have first : (start readings sink).nextId = 0 := rfl
  rw [run, first]
  generalize checkProgram text 0 = checked at accepted
  obtain ⟨result, last⟩ := checked
  simp only at accepted
  subst accepted
  simp only [onAccepted, onMachine_eq]
  exact ⟨rfl, rfl⟩

/-- Running a program by its table and by slots is the same. -/
theorem run_agrees (fuel : Nat) :
    SameOutcome ((start readings sink).run fuel text).1
        (Slots.runProgram fuel program.tree (.start readings sink)) ∧
      ((start readings sink).run fuel text).2.written =
        output (Slots.runProgram fuel program.tree (.start readings sink)) := by
  have healthy := healthy_enter readings sink accepted
  have seen : Seen [.statements program.tree] (.ofInput (.statements program.tree)) :=
    ⟨_, List.mem_singleton_self _, .refl⟩
  have agree := sim_program seen (fit_start healthy) fuel
  obtain ⟨r, ran, outcome, machine⟩ := run_start readings sink accepted fuel
  rw [outcome, written, machine]
  rcases agree.cases with
    ⟨q, _, _, left, right, -, related, -⟩ | ⟨e, e', m, σ, left, right, same, sinks⟩
  · rw [ran, show runStatements fuel program.tree (enter (.start readings sink) program.locals) =
        .ok () q.machine from left,
      show Slots.runProgram fuel program.tree (.start readings sink) = .ok () q.store from right]
    exact ⟨.ok q.store, congrArg Sink.written related.sink.symm⟩
  · rw [ran, show runStatements fuel program.tree (enter (.start readings sink) program.locals) =
        .error e m from left,
      show Slots.runProgram fuel program.tree (.start readings sink) = .error e' σ from right]
    refine ⟨?_, congrArg Sink.written sinks.symm⟩
    cases same with
    | outOfFuel => exact .outOfFuel σ
    | fault same =>
      cases same with
      | refl => exact .fault _ σ
      -- the one fault whose wording differs: the other semantics counts no hops
      | missing name hops => exact .internal _ _ σ
      | internal g special => exact .internal _ _ σ

/-- Programs that are accepted are lexically scoped: the depths in their tables do
what a fresh slot for every declaration does. -/
theorem lexical_scoping : LexicallyScoped readings sink text program.tree where
  outcome fuel := (run_agrees readings sink accepted fuel).1
  output fuel := (run_agrees readings sink accepted fuel).2
  diverges := by
    apply forall_congr'
    intro fuel
    have same := (run_agrees readings sink accepted fuel).1
    generalize ((start readings sink).run fuel text).1 = left at same
    generalize Slots.runProgram fuel program.tree (.start readings sink) = right at same
    cases same <;> simp

end Programs

/-- A program whose function keeps the meaning that a name had at its declaration. -/
theorem closure_keeps_binding :
    let text := "var a = true; \x7b fun f() \x7b print a; \x7d var a = nil; f(); \x7d"
    ∃ program, (checkProgram text 0).1 = .ok program ∧
      LexicallyScoped (fun _ => 0) .unlimited text program.tree := by
  intro text
  have passes : (checkProgram text 0).1.toBool = true := by decide +kernel
  cases checked : (checkProgram text 0).1 with
  | error rejection =>
    rw [checked] at passes
    cases passes
  | ok program => exact ⟨program, rfl, lexical_scoping _ _ checked⟩

end ClassScript.Session
