import ClassScript.Proofs.Machine.Truncated
import ClassScript.Proofs.Session.Restored
import ClassScript.Proofs.Session.Traceless

/-!
# Sessions on a sink with a limit

A session whose output has a limit gives the same replies as one whose output has none, up
to the first text with which the latter goes beyond the limit. There it has written as many
bytes as it may, and fails at the print statement that goes beyond
(`failing_sink_truncates`).
-/

namespace ClassScript.Session

open Syntax Parsing Object Binding Machine

/-- The session with a limit for its output that is not reached yet. -/
def capped (limit : Nat) (s : Session) : Session := ⟨s.machine.capped limit, s.nextId⟩

@[simp] theorem written_capped (limit : Nat) (s : Session) :
    (s.capped limit).written = s.written := rfl

section Steps

variable {limit : Nat} {s : Session} {step : Step}

/-- A text that is accepted is run on a limited sink as its plan says. -/
theorem truncates_input (unlimited : s.machine.sink.room = none)
    (total : s.machine.total ≤ limit) (fuel : Nat) (input : Accepted Input) :
    Truncates limit ((planOfInput input.tree).Prints fuel (enter s.machine input.locals))
      ((planOfInput input.tree).run (Task.tasksAt fuel) (enter s.machine input.locals))
      ((planOfInput input.tree).run (Task.tasksAt fuel)
        (enter (s.machine.capped limit) input.locals)) :=
  (mute_planOfInput input.tree).truncates (cuts_tasks limit fuel)
    (enter s.machine input.locals) unlimited total

/-- A step that stays within the limit does the same in the limited session. -/
theorem take_within (unlimited : s.machine.sink.room = none)
    (total : (step.take s).2.machine.total ≤ limit) :
    step.take (s.capped limit) = ((step.take s).1, (step.take s).2.capped limit) := by
  cases h : (step.check s.nextId).1 with
  | error rejection =>
    rw [Step.take_rejected h, Step.take_rejected (s := s.capped limit) h]
    rfl
  | ok input =>
    obtain ⟨r, ran, taken⟩ := Step.take_accepted h
    obtain ⟨r', ran', taken'⟩ := Step.take_accepted (s := s.capped limit) h
    -- what the whole step writes fits, so what was written before it does
    have before : s.machine.total ≤ limit :=
      Nat.le_trans (Adds.total_le (step.adds s)) total
    have cut := truncates_input unlimited before step.fuel input
    rw [taken] at total
    have same : r' = onState (·.capped limit) r := by
      rw [ran', ran]
      exact cut.same_of_le (ran ▸ total)
    rw [taken, taken', same, left_onState]
    cases r with
    | ok value m => rfl
    | error e m => cases e <;> rfl

/-- A step that goes beyond the limit fails in the limited session, at the print statement
that goes beyond. -/
theorem take_beyond (unlimited : s.machine.sink.room = none) (before : s.machine.total ≤ limit)
    (total : limit < (step.take s).2.machine.total) :
    (step.take (s.capped limit)).1 = .failed (.fault .output) ∧
      ∃ n e m value here current,
        step.Moment s (n + 1) (.execute (.print e)) m ∧
        Overruns limit n e m value here ∧
        (∃ rest, (step.take s).2.written = here.sink.written ++ lineOf value ++ rest) ∧
        (step.take (s.capped limit)).2.machine =
          { here.filled limit (lineOf value) with current } := by
  cases h : (step.check s.nextId).1 with
  | error rejection =>
    rw [Step.take_rejected h] at total
    exact absurd before (Nat.not_le.mpr total)
  | ok input =>
    obtain ⟨r, ran, taken⟩ := Step.take_accepted h
    obtain ⟨r', ran', taken'⟩ := Step.take_accepted (s := s.capped limit) h
    rw [taken] at total
    rw [taken, taken', ran']
    cases truncates_input unlimited before step.fuel input with
    -- the step writes past the limit, so some print of it does
    | within within same => exact absurd (ran ▸ within) (Nat.not_le.mpr total)
    | @beyond n e m value here current prints overruns begins stopped =>
      obtain ⟨t, m₁, calls, moment⟩ := prints
      refine ⟨?_, n, e, m, value, here, current, ⟨input, h, t, m₁, calls, moment⟩, overruns, ?_, ?_⟩
      · exact congrArg Outcome.of stopped
      · rw [ran]
        exact begins
      · exact congrArg left stopped

end Steps

/-! ## Sessions -/

theorem unlimited_after {s : Session} (unlimited : s.machine.sink.room = none)
    (steps : List Step) : (s.after steps).machine.sink.room = none :=
  (adds_after s steps).unlimited unlimited

/-- As long as the output stays within the limit, the limited session differs in nothing
but the limit. -/
theorem after_within {limit : Nat} {s : Session} (unlimited : s.machine.sink.room = none)
    (steps : List Step) (total : (s.after steps).machine.total ≤ limit) :
    (s.capped limit).after steps = (s.after steps).capped limit ∧
      (s.capped limit).replies steps = s.replies steps := by
  induction steps generalizing s with
  | nil => exact ⟨rfl, rfl⟩
  | cons step rest ih =>
    -- later steps only add to the output, so the first one fits as well
    have first : (step.take s).2.machine.total ≤ limit :=
      Nat.le_trans (adds_after (step.take s).2 rest).total_le total
    have taken := take_within unlimited first
    obtain ⟨after, replies⟩ := ih ((step.adds s).unlimited unlimited) total
    refine ⟨?_, ?_⟩
    · show (step.take (s.capped limit)).2.after rest = _
      rw [taken]
      exact after
    · have reply : step.reply (s.capped limit) = step.reply s := by
        simp only [Step.reply, taken, printedBetween, written_capped]
      simp only [Session.replies, reply, taken, replies]

/-- Bytes that are added behind a limit are not seen up to it. -/
theorem extract_append_of_le {bytes rest : ByteArray} {limit : Nat} (inside : limit ≤ bytes.size) :
    (bytes ++ rest).extract 0 limit = bytes.extract 0 limit := by
  rw [ByteArray.extract_append, Nat.zero_sub, Nat.sub_eq_zero_of_le inside]
  simp

/-- Two sessions take the same texts, one on a sink without and one on a sink with a limit.
As long as the first one has not written more bytes than the limit, both give the same
replies and have written the same. At the text with which it goes beyond, the second one
fails for want of room and has written the first bytes of the same output, as many as it
may. It stops at a print statement of the first one's run, the one whose line goes beyond:
its machine is the one that the statement had come to, but for the output and the current
scope, which is the global one again. -/
theorem failing_sink_truncates (readings : Nat → Float) (limit : Nat) (steps : List Step) :
    let free := start readings .unlimited
    let cut := start readings (.limited limit)
    ((free.after steps).written.size ≤ limit →
      cut.replies steps = free.replies steps ∧
        (cut.after steps).written = (free.after steps).written) ∧
    ∀ next : Step, (free.after steps).written.size ≤ limit →
      limit < (free.after (steps ++ [next])).written.size →
      (next.take (cut.after steps)).1 = .failed (.fault .output) ∧
      (cut.after (steps ++ [next])).written =
        (free.after (steps ++ [next])).written.extract 0 limit ∧
      ∃ fuel e m value before,
        next.Moment (free.after steps) (fuel + 1) (.execute (.print e)) m ∧
        Overruns limit fuel e m value before ∧
        (cut.after (steps ++ [next])).machine =
          { before.filled limit (lineOf value) with current := before.globals } := by
  intro free cut
  have unlimited : (free.after steps).machine.sink.room = none := unlimited_after rfl steps
  have within (total : (free.after steps).written.size ≤ limit) :
      cut.after steps = (free.after steps).capped limit ∧
        cut.replies steps = free.replies steps :=
    after_within (s := free) rfl steps total
  refine ⟨fun total => ⟨(within total).2, by rw [(within total).1, written_capped]⟩, ?_⟩
  intro next total beyond
  -- up to the step in question the sessions differ in the room left only
  obtain ⟨same, -⟩ := within total
  rw [after_append] at beyond
  rw [after_append, after_append, same]
  obtain ⟨failed, fuel, e, m, value, before, current, moment, overruns, ⟨rest, begins⟩, stopped⟩ :=
    take_beyond unlimited total beyond
  refine ⟨failed, ?_, fuel, e, m, value, before, moment, overruns, ?_⟩
  · show (next.take ((free.after steps).capped limit)).2.machine.sink.written = _
    rw [stopped, begins, extract_append_of_le (Nat.le_of_lt overruns.beyond)]
    rfl
  · -- the step leaves the session at the global scope
    obtain ⟨kept, kept'⟩ := current_take next ((free.after steps).capped limit)
    rw [stopped] at kept kept'
    have globals : current = before.globals :=
      kept.trans ((steps_end_at_globals readings .unlimited steps).1.trans kept'.symm)
    rw [stopped, globals]

end ClassScript.Session
