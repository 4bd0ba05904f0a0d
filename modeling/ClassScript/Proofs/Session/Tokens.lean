import ClassScript.Proofs.Session.Checks
import ClassScript.Proofs.Session.Composition
import ClassScript.Proofs.Session.Faults
import ClassScript.Proofs.Session.Scoping
import ClassScript.Proofs.Slots.Core
import ClassScript.Proofs.Slots.Limits

/-!
# Programs as tokens

A program may be given as tokens, which need not be those of a text (`runTokens`). In a new
session it ends as its run by slots does, in every detail (`runTokens_slots`), as the only
internal fault is that of a missing variable. So programs with the same core give the same
answers, up to the fuel that they need (`sameRuns_of_core`).
-/

namespace ClassScript.Session

open Source Syntax Parsing Object Binding Machine Slots

/-- The check of a text behind its tokens. -/
def checkTokens (found : Tokens) (nextId : NodeId) : Checked Program :=
  match Parsing.program found nextId with
  | (.error errors, nextId) => (.error (.syntactic errors), nextId)
  | (.ok tree, nextId) =>
    match ofProgram tree with
    | .error errors => (.error (.binding errors), nextId)
    | .ok locals => (.ok ⟨tree, locals⟩, nextId)

/-- Run a program that is given as tokens. -/
def runTokens (fuel : Nat) (found : Tokens) (s : Session) : Answer :=
  s.onAccepted (checkTokens found s.nextId) fun program =>
    Machine.runProgram fuel program.tree program.locals

section Texts

variable {text : String} {found : Tokens} (scanned : tokens text = .ok found)
include scanned

theorem checkProgram_tokens (n : NodeId) : checkProgram text n = checkTokens found n := by
  simp only [checkProgram, check, scanned, checkTokens]
  rcases Parsing.program found n with ⟨_ | tree, last⟩
  · rfl
  · cases resolved : ofProgram tree <;> simp only [resolved]

/-- A text is run as its tokens are. -/
theorem run_tokens (fuel : Nat) (s : Session) : s.run fuel text = s.runTokens fuel found := by
  rw [run, runTokens, checkProgram_tokens scanned]

end Texts

/-- Tokens are accepted with a program and a table just where the program is their tree and
resolution makes the table. -/
theorem checkTokens_iff {found : Tokens} {n last : NodeId} {program : Program} {locals : Locals} :
    checkTokens found n = (.ok ⟨program, locals⟩, last) ↔
      Tree n found.list (.declarations program) last ∧ ofProgram program = .ok locals := by
  rw [← program_iff, checkTokens]
  rcases Parsing.program found n with ⟨_ | tree, last'⟩
  · simp
  · simp only [Prod.mk.injEq, Except.ok.injEq]
    -- read: the resolver has the last word
    cases resolved : ofProgram tree with
    | error errors =>
      simp only [Prod.mk.injEq, reduceCtorEq, false_and, false_iff]
      rintro ⟨⟨rfl, -⟩, same⟩
      rw [resolved] at same
      cases same
    | ok locals' =>
      simp only [Prod.mk.injEq, Except.ok.injEq, Accepted.mk.injEq]
      constructor
      · rintro ⟨⟨rfl, rfl⟩, rfl⟩
        exact ⟨⟨rfl, rfl⟩, resolved⟩
      · rintro ⟨⟨rfl, rfl⟩, same⟩
        rw [resolved] at same
        exact ⟨⟨rfl, Except.ok.inj same⟩, rfl⟩

theorem accepts_of_checkTokens {found : Tokens} (named : Parsing.Named found.list)
    {n last : NodeId} {program : Program} {locals : Locals}
    (accepted : checkTokens found n = (.ok ⟨program, locals⟩, last)) :
    Accepts n last ⟨.statements program, locals⟩ := by
  obtain ⟨tree, resolved⟩ := checkTokens_iff.mp accepted
  have reads := program_new named n
  rw [program_iff.mpr tree] at reads
  exact ⟨reads.2, reads.1, resolved⟩

/-! ## Runs -/

/-- What a session would tell of a run by slots. -/
def outcomeOf : EStateM.Result Stop Store Unit → Outcome Unit
  | .ok _ _ => .ok ()
  | .error (.fault fault) _ => .failed (.fault fault)
  | .error .outOfFuel _ => .outOfFuel

/-- Reasons to stop that match are equal, where the machine's internal faults are that a
variable is missing. -/
theorem eq_of_matches {e e' : Stop} (same : MatchesStop e e')
    (missing : ∀ fault, e = .fault (.internal fault) →
      ∃ name, fault = .missing name 0 ∧ name ∉ reserved) : e' = e := by
  cases same with
  | outOfFuel => rfl
  | fault same =>
    cases same with
    | refl => rfl
    | missing name hops =>
      obtain ⟨name', same, -⟩ := missing _ rfl
      cases same
      rfl
    | internal g special =>
      obtain ⟨name, rfl, plain⟩ := missing _ rfl
      exact absurd (special name 0 rfl) plain

section Runs

variable (readings : Nat → Float) (sink : Sink)

/-- The only internal fault of a program in a new session is that a variable is missing
in the scope of its declaration. -/
theorem missing_of_runStatements {program : Program} {locals : Locals}
    (healthy : Healthy [.statements program] (enter (.start readings sink) locals))
    {fuel : Nat} {fault : InternalFault} {m : Machine.State}
    (stops : runStatements fuel program (enter (.start readings sink) locals) =
      .error (.fault (.internal fault)) m) :
    ∃ name, fault = .missing name 0 ∧ name ∉ reserved := by
  have planned : (planOfInput (.statements program)).run (Task.tasksAt fuel)
      (enter (.start readings sink) locals) = .error (.fault (.internal fault)) m := by
    rw [planOfInput, Plan.run_bind, run_planOfProgram]
    simp only [bind, EStateM.bind, stops]
  obtain ⟨_, _, _, target, _, _, _, _, _, _, ⟨v, seen, node, _⟩, _, missing⟩ :=
    internal_of_stops healthy List.mem_cons_self (steady_start readings sink).outside planned
  have plain := (healthy.sound v seen).plain
  rw [node] at plain
  exact ⟨target.name.text, missing, plain.1⟩

/-- A program that is given as tokens ends as its run by slots does, and writes the same.
If that ends with an internal fault, a variable is missing. -/
theorem runTokens_slots {found : Tokens} (named : Parsing.Named found.list)
    {program : Accepted Program} (accepted : (checkTokens found 0).1 = .ok program)
    (fuel : Nat) :
    ((start readings sink).runTokens fuel found).1 =
        outcomeOf (Slots.runProgram fuel program.tree (.start readings sink)) ∧
      ((start readings sink).runTokens fuel found).2.written =
        output (Slots.runProgram fuel program.tree (.start readings sink)) ∧
      ∀ fault σ, Slots.runProgram fuel program.tree (.start readings sink) =
        .error (.fault (.internal fault)) σ → ∃ name, fault = .missing name 0 := by
  have healthy : Healthy [.statements program.tree]
      (enter (.start readings sink) program.locals) :=
    (steady_start readings sink).enter (accepts_of_checkTokens named (Prod.ext accepted rfl))
  have seen : Seen [.statements program.tree] (.ofInput (.statements program.tree)) :=
    ⟨_, List.mem_singleton_self _, .refl⟩
  have agree := sim_program seen (fit_start healthy) fuel
  have ran : (start readings sink).runTokens fuel found =
      (.of (runStatements fuel program.tree (enter (.start readings sink) program.locals)),
        ⟨left (runStatements fuel program.tree (enter (.start readings sink) program.locals)),
          (checkTokens found 0).2⟩) := by
    have first : (start readings sink).nextId = 0 := rfl
    have whole : checkTokens found 0 = (.ok program, (checkTokens found 0).2) :=
      Prod.ext accepted rfl
    rw [runTokens, first, whole]
    exact onAccepted_run fuel id
  rw [ran]
  rcases agree.cases with
    ⟨q, _, _, left, right, -, related, -⟩ | ⟨e, e', m, σ, left, right, same, sinks⟩
  · have left : runStatements fuel program.tree (enter (.start readings sink) program.locals) =
        .ok () q.machine := left
    have right : Slots.runProgram fuel program.tree (.start readings sink) = .ok () q.store := right
    rw [left, right]
    exact ⟨rfl, congrArg Sink.written related.sink.symm, nofun⟩
  · have left : runStatements fuel program.tree (enter (.start readings sink) program.locals) =
        .error e m := left
    have right : Slots.runProgram fuel program.tree (.start readings sink) = .error e' σ := right
    have missing : ∀ fault, e = .fault (.internal fault) →
        ∃ name, fault = .missing name 0 ∧ name ∉ reserved := by
      rintro fault rfl
      exact missing_of_runStatements readings sink healthy left
    -- only an internal fault may differ, and a missing name is the same on both sides
    obtain rfl := eq_of_matches same missing
    rw [left, right]
    refine ⟨by cases e' <;> rfl, congrArg Sink.written sinks.symm, ?_⟩
    rintro fault _ ⟨⟩
    obtain ⟨name, same, -⟩ := missing fault rfl
    exact ⟨name, same⟩

end Runs

/-! ## The same answers -/

/-- The first answer is the second one, or it is cut short: no fuel was left, and what was
written until then is a part of what the second one has. -/
def Answer.CutShort (first second : Answer) : Prop :=
  (first.1 = second.1 ∧ first.2.written = second.2.written) ∨
    first.1 = .outOfFuel ∧ ∃ more, second.2.written = first.2.written ++ more

/-- With enough fuel, the second run gives each answer of the first one, where that is not
cut short. -/
def Follows (first second : Nat → Answer) : Prop :=
  ∀ fuel, ∃ enough, ∀ fuel' ≥ enough, (first fuel).CutShort (second fuel')

/-- Two ways to run give the same answers, up to the fuel that they need: the same
outcome where a run comes to an end, and the same output, also where it does not. -/
def SameRuns (first second : Nat → Answer) : Prop :=
  Follows first second ∧ Follows second first

section Core

/-- A run that is cut short writes a part of the output of another that goes on alike. -/
theorem cutShort_of_alike {r r₁ r₂ r' : EStateM.Result Stop Store Unit}
    (first : Slots.CutShort r r₁) (alike : Alike r₁ r₂) (second : Slots.CutShort r₂ r')
    (missing : ∀ fault σ, r = .error (.fault (.internal fault)) σ →
      ∃ name, fault = .missing name 0) :
    (outcomeOf r = outcomeOf r' ∧ output r = output r') ∨
      outcomeOf r = .outOfFuel ∧ ∃ more, output r' = output r ++ more := by
  have sinks : (final r₂).sink = (final r₁).sink := by
    cases alike <;> assumption
  have written (r : EStateM.Result Stop Store Unit) : output r = (final r).sink.written := by
    cases r <;> rfl
  -- a run that is cut short has written a part of what the whole one writes
  have onto : (final r₂).sink.Onto (final r').sink := by
    rcases second with rfl | ⟨σ, rfl, onto⟩
    · exact .refl _
    · exact onto
  rw [written, written]
  rcases first with rfl | ⟨σ, rfl, part⟩
  · cases alike with
    | ok same =>
      rcases second with rfl | ⟨σ, out, -⟩
      · exact .inl ⟨rfl, congrArg Sink.written same.symm⟩
      · cases out
    | error e same =>
      rcases second with rfl | ⟨σ, out, -⟩
      · exact .inl ⟨by cases e <;> rfl, congrArg Sink.written same.symm⟩
      · cases out
        obtain ⟨more, longer⟩ := onto.written
        rw [sinks] at longer
        exact .inr ⟨rfl, more, longer⟩
    | stray c c' same =>
      obtain ⟨name, same⟩ := missing _ _ rfl
      cases same
  · rw [← sinks] at part
    obtain ⟨more, longer⟩ := (part.trans onto).written
    exact .inr ⟨rfl, more, longer⟩

variable (readings : Nat → Float) (sink : Sink) {found found' : Tokens}
  (named : Parsing.Named found.list) (named' : Parsing.Named found'.list)
  {program program' : Accepted Program} (accepted : (checkTokens found 0).1 = .ok program)
  (accepted' : (checkTokens found' 0).1 = .ok program')
include named named' accepted accepted'

theorem follows_of_core (same : Stmt.coreAll program'.tree = Stmt.coreAll program.tree) :
    Follows (fun fuel => (start readings sink).runTokens fuel found)
      (fun fuel => (start readings sink).runTokens fuel found') := by
  intro fuel
  let σ : Store := .start readings sink
  have clock : OnlyClock σ := by
    intro action among
    simpa [σ, Store.start] using among
  obtain ⟨enough, reached⟩ := (reaches_runProgram fuel program'.tree).cut σ
  refine ⟨enough, fun fuel' more => ?_⟩
  obtain ⟨outcome, output, missing⟩ := runTokens_slots readings sink named accepted fuel
  obtain ⟨outcome', output', -⟩ := runTokens_slots readings sink named' accepted' fuel'
  have cut := cutShort_of_alike ((below_runProgram fuel program.tree).cut σ)
    (alike_of_core fuel same clock) (reached fuel' more) missing
  rwa [← outcome, ← outcome', ← output, ← output'] at cut

/-- Programs with the same core give the same answers. -/
theorem sameRuns_of_core (same : Stmt.coreAll program'.tree = Stmt.coreAll program.tree) :
    SameRuns (fun fuel => (start readings sink).runTokens fuel found)
      (fun fuel => (start readings sink).runTokens fuel found') :=
  ⟨follows_of_core readings sink named named' accepted accepted' same,
    follows_of_core readings sink named' named accepted' accepted same.symm⟩

end Core

end ClassScript.Session
