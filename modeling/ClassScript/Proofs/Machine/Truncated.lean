import ClassScript.Proofs.Machine.Moment
import ClassScript.Proofs.Machine.Output

/-!
# Runs on a sink with a limit

The one step of a run that looks at the sink, `print`, stops the run as soon as its text does
not fit. So a run on a sink with a limit does what the run on an unlimited one does as long as
the output of the latter stays within the limit; and where that goes beyond it, the limited run
ends at that print, with the machine as it was there (`truncated_run`).
-/

namespace ClassScript.Machine

open Syntax Object

/-! ## Runs with a limit -/

/-- The bytes that a value is printed as. -/
def lineOf (value : Value) : ByteArray := (value.display ++ "\n").toUTF8

namespace State

/-- The number of bytes that were written. -/
def total (m : State) : Nat := m.sink.written.size

/-- The machine with a limit for its output that is not reached yet. -/
def capped (limit : Nat) (m : State) : State :=
  m.withSink ⟨m.sink.written, some (limit - m.total)⟩

/-- The machine with its output and some more bytes cut at a limit. -/
def filled (limit : Nat) (m : State) (bytes : ByteArray) : State :=
  m.withSink ⟨(m.sink.written ++ bytes).extract 0 limit, some 0⟩

end State

/-- A print statement comes to print a value when the output is still within the limit,
and goes beyond it with the value's line. -/
structure Overruns (limit fuel : Nat) (e : Expr) (m : State) (value : Value)
    (before : State) : Prop where
  evaluates : evaluate fuel e m = .ok value before
  within : before.total ≤ limit
  beyond : limit < (before.sink.written ++ lineOf value).size

/-- What a run does on a limited sink, next to what it does on an unlimited one. `Prints`
says which print statements the run contains. -/
inductive Truncates {α : Type} (limit : Nat) (Prints : Nat → Expr → State → Prop)
    (free cut : EStateM.Result Stop State α) : Prop
  /-- The output stays within the limit: there is no difference but the limit. -/
  | within (total : (left free).total ≤ limit) (same : cut = onState (·.capped limit) free)
  /-- A print statement goes beyond the limit: it fails, and nothing is done behind it but
  to give back the current scope. -/
  | beyond {fuel : Nat} {e : Expr} {m : State} {value : Value} {before : State}
      {current : ScopeId} (prints : Prints fuel e m)
      (overruns : Overruns limit fuel e m value before)
      (begins : ∃ rest, (left free).sink.written =
        before.sink.written ++ lineOf value ++ rest)
      (stopped : cut =
        .error (.fault .output) { before.filled limit (lineOf value) with current })

/-- The output only becomes longer. -/
theorem Adds.total_le {m m' : State} (adds : Adds m m') : m.total ≤ m'.total := by
  obtain ⟨bytes, same⟩ := adds.written
  rw [State.total, State.total, same, ByteArray.size_append]
  exact Nat.le_add_right ..

namespace Truncates

variable {α β : Type} {limit : Nat} {Prints Prints' : Nat → Expr → State → Prop}
  {free cut : EStateM.Result Stop State α}

/-- A run may be cut at more prints than it was. -/
theorem imp (h : Truncates limit Prints free cut)
    (more : ∀ fuel e m, Prints fuel e m → Prints' fuel e m) :
    Truncates limit Prints' free cut := by
  cases h with
  | within total same => exact .within total same
  | beyond prints overruns begins stopped =>
    exact .beyond (more _ _ _ prints) overruns begins stopped

/-- The output of the unlimited run goes beyond the limit where that of one of its print
statements does. -/
theorem total_gt {e : Expr} {m before : State} {value : Value} {fuel : Nat}
    (overruns : Overruns limit fuel e m value before)
    (begins : ∃ rest, (left free).sink.written =
      before.sink.written ++ lineOf value ++ rest) : limit < (left free).total := by
  obtain ⟨rest, same⟩ := begins
  rw [State.total, same, ByteArray.size_append]
  exact Nat.lt_of_lt_of_le overruns.beyond (Nat.le_add_right ..)

/-- Where the unlimited run stays within the limit, the limited one does the same. -/
theorem same_of_le (h : Truncates limit Prints free cut) (total : (left free).total ≤ limit) :
    cut = onState (·.capped limit) free := by
  cases h with
  | within _ same => exact same
  | beyond prints overruns begins stopped =>
    exact absurd (total_gt overruns begins) (Nat.not_lt.mpr total)

end Truncates

/-- The print statements that a task comes to. -/
def Task.Prints (fuel : Nat) (t : Task) (m : State) (n : Nat) (e : Expr) (m' : State) : Prop :=
  Moment fuel t m (n + 1) (.execute (.print e)) m'

/-- The print statements that a plan comes to. -/
def Plan.Prints {α : Type} (fuel : Nat) (p : Plan α) (m : State) (n : Nat) (e : Expr)
    (m' : State) : Prop :=
  ∃ t m₁, p.Calls (Task.tasksAt fuel) t m₁ m ∧ t.Prints fuel m₁ n e m'

/-- Tasks with the given fuel are cut as they should be, from any machine on whose output
is within the limit. -/
def CutsTasks (limit fuel : Nat) : Prop :=
  ∀ (t : Task) (m : State), m.sink.room = none → m.total ≤ limit →
    Truncates limit (t.Prints fuel m) (t.run fuel m) (t.run fuel (m.capped limit))

/-- A run that cannot see the sink does the same under a limit. -/
theorem Blind.capped {α : Type} {x : Run α} (blind : Blind x) (limit : Nat) (m : State) :
    x (m.capped limit) = onState (·.capped limit) (x m) := by
  have quiet := blind.quiet m
  rw [State.capped, blind]
  cases hx : x m with
  | ok b m' =>
    rw [hx] at quiet
    simp only [onState, State.capped, State.total, show m'.sink = m.sink from quiet]
  | error e m' =>
    rw [hx] at quiet
    simp only [onState, State.capped, State.total, show m'.sink = m.sink from quiet]

section Moves

variable {enter : State → State} {leave : State → State → State}

theorem Moves.enter_sink (moves : Moves enter leave) (m : State) :
    (enter m).sink = m.sink := by
  rcases moves with ⟨rfl, -⟩ | ⟨scope, rfl, -⟩ <;> rfl

theorem Moves.leave_sink (moves : Moves enter leave) (m m' : State) :
    (leave m m').sink = m'.sink := by
  rcases moves with ⟨-, rfl⟩ | ⟨scope, -, rfl⟩ <;> rfl

theorem Moves.enter_capped (moves : Moves enter leave) (limit : Nat) (m : State) :
    enter (m.capped limit) = (enter m).capped limit := by
  rcases moves with ⟨rfl, -⟩ | ⟨scope, rfl, -⟩ <;> rfl

theorem Moves.leave_capped (moves : Moves enter leave) (limit : Nat) (m m' : State) :
    leave (m.capped limit) (m'.capped limit) = (leave m m').capped limit := by
  rcases moves with ⟨-, rfl⟩ | ⟨scope, -, rfl⟩ <;> rfl

/-- Only the current scope is given back. -/
theorem Moves.leave_eq (moves : Moves enter leave) (m m' : State) :
    ∃ current, leave m m' = { m' with current } := by
  rcases moves with ⟨-, rfl⟩ | ⟨scope, -, rfl⟩ <;> exact ⟨_, rfl⟩

end Moves

/-- A plan that does not print itself is cut as its tasks are. -/
theorem Plan.Mute.truncates {α : Type} {limit fuel : Nat} {p : Plan α} (mute : p.Mute)
    (cuts : CutsTasks limit fuel) (m : State) (unlimited : m.sink.room = none)
    (total : m.total ≤ limit) :
    Truncates limit (p.Prints fuel m) (p.run (Task.tasksAt fuel) m)
      (p.run (Task.tasksAt fuel) (m.capped limit)) := by
  induction p generalizing m with
  | ret a => exact .within total rfl
  | step x next ih =>
    have quiet := mute.1.quiet m
    simp only [Plan.run, mute.1.capped limit m]
    cases hx : x m with
    | ok b m' =>
      rw [hx] at quiet
      have sink : m'.sink = m.sink := quiet
      refine (ih b (mute.2 b) m' (by rw [sink, unlimited]) (by rwa [State.total, sink])).imp ?_
      rintro n e m₂ ⟨t, m₁, calls, prints⟩
      exact ⟨t, m₁, .stepped hx calls, prints⟩
    | error e m' =>
      rw [hx] at quiet
      have sink : m'.sink = m.sink := quiet
      exact .within (by rwa [left, State.total, sink]) rfl
  | call enter leave t next ih =>
    obtain ⟨moves, mute⟩ := mute
    have enters := moves.enter_sink m
    have called := cuts t (enter m) (by rw [enters, unlimited]) (by rwa [State.total, enters])
    have adds := adds_run fuel t (enter m)
    simp only [Plan.run, moves.enter_capped]
    cases called with
    | within within same =>
      rw [Task.tasksAt, same]
      cases ht : t.run fuel (enter m) with
      | ok b m' =>
        rw [ht] at within adds
        have leaves := moves.leave_sink m m'
        have unlimited' : m'.sink.room = none :=
          adds.unlimited (by rw [enters, unlimited])
        simp only [onState, moves.leave_capped]
        refine (ih b (mute b) (leave m m') (by rw [leaves, unlimited'])
          (by rwa [State.total, leaves])).imp ?_
        rintro n e m₂ ⟨u, m₁, calls, prints⟩
        exact ⟨u, m₁, .later ht calls, prints⟩
      | error e m' =>
        rw [ht] at within
        simp only [onState, moves.leave_capped]
        exact .within (by rwa [left, State.total, moves.leave_sink]) rfl
    | @beyond n e m₀ value before current prints overruns begins stopped =>
      rw [Task.tasksAt, stopped]
      obtain ⟨current', left'⟩ := moves.leave_eq (m.capped limit)
        { before.filled limit (lineOf value) with current }
      refine .beyond ⟨t, enter m, .here rfl, prints⟩ overruns ?_
        (congrArg (EStateM.Result.error _) left')
      obtain ⟨rest, begins⟩ := begins
      cases ht : t.run fuel (enter m) with
      | ok b m' =>
        rw [ht] at begins
        -- what the rest of the plan writes comes behind
        obtain ⟨more, behind⟩ := ((mute b).adds.outcome fuel (leave m m')).written
        refine ⟨rest ++ more, ?_⟩
        show (left ((next b).run (Task.tasksAt fuel) (leave m m'))).sink.written = _
        rw [behind, moves.leave_sink, show m'.sink.written = _ from begins,
          ByteArray.append_assoc]
      | error e m' =>
        rw [ht] at begins
        exact ⟨rest, (congrArg Sink.written (moves.leave_sink m m')).trans begins⟩

/-! ## The statement that prints -/

/-- What fits is written whole, and of what does not fit the part up to the limit. -/
theorem write_capped {limit : Nat} {m : State} (total : m.total ≤ limit) (bytes : ByteArray) :
    (m.capped limit).sink.write bytes =
      if (m.sink.written ++ bytes).size ≤ limit then
        (true, ⟨m.sink.written ++ bytes, some (limit - (m.sink.written ++ bytes).size)⟩)
      else (false, ⟨(m.sink.written ++ bytes).extract 0 limit, some 0⟩) := by
  rw [State.total] at total
  simp only [State.capped, State.withSink_sink, Sink.write, State.total, ByteArray.size_append]
  by_cases fits : m.sink.written.size + bytes.size ≤ limit
  · have room : bytes.size ≤ limit - m.sink.written.size := by omega
    simp only [fits, room, if_true, Nat.sub_sub]
  · have room : ¬ bytes.size ≤ limit - m.sink.written.size := by omega
    simp only [fits, room, if_false]
    have whole : m.sink.written.extract 0 limit = m.sink.written := by
      apply ByteArray.ext
      rw [ByteArray.data_extract, Array.extract_eq_self_of_le total]
    rw [ByteArray.extract_append, whole, Nat.zero_sub]

/-- A sink without bound takes every line. -/
theorem print_unlimited {m : State} (unlimited : m.sink.room = none) (value : Value) :
    print value m = .ok () (m.withSink ⟨m.sink.written ++ lineOf value, none⟩) := by
  simp [print, Sink.write, unlimited, lineOf, State.withSink]

/-- Under a limit, a line is taken if it fits as a whole; otherwise the sink is filled, and the
print fails. -/
theorem print_capped {limit : Nat} {m : State} (total : m.total ≤ limit) (value : Value) :
    print value (m.capped limit) =
      if (m.sink.written ++ lineOf value).size ≤ limit then
        .ok () ((m.withSink ⟨m.sink.written ++ lineOf value, none⟩).capped limit)
      else .error (.fault .output) (m.filled limit (lineOf value)) := by
  have line : (value.display ++ "\n").toUTF8 = lineOf value := rfl
  simp only [print, line, write_capped total]
  split <;> rfl

/-- The statement that prints a value, once the value is computed. -/
theorem execute_print (fuel : Nat) (e : Expr) (m : State) :
    execute (fuel + 1) (.print e) m =
      match evaluate fuel e m with
      | .ok value m' =>
        match print value m' with
        | .ok _ m'' => .ok .normal m''
        | .error stop m'' => .error stop m''
      | .error stop m' => .error stop m' := by
  rw [execute]
  simp only [bind, EStateM.bind]
  cases evaluate fuel e m with
  | ok value m' =>
    dsimp only
    cases print value m' <;> rfl
  | error stop m' => rfl

/-- A print is cut where its value is evaluated, or where its own line is over the limit. -/
theorem truncates_print {limit fuel : Nat} (cuts : CutsTasks limit fuel) (e : Expr) (m : State)
    (unlimited : m.sink.room = none) (total : m.total ≤ limit) :
    Truncates limit (Task.Prints (fuel + 1) (.execute (.print e)) m)
      (execute (fuel + 1) (.print e) m) (execute (fuel + 1) (.print e) (m.capped limit)) := by
  have adds : Adds m (left (evaluate fuel e m)) := adds_run fuel (.evaluate e) m
  have cut : Truncates limit (Task.Prints fuel (.evaluate e) m) (evaluate fuel e m)
      (evaluate fuel e (m.capped limit)) := cuts (.evaluate e) m unlimited total
  rw [execute_print, execute_print]
  cases cut with
  | within within same =>
    rw [same]
    cases he : evaluate fuel e m with
    | error stop m' =>
      rw [he] at within
      exact .within within rfl
    | ok value m' =>
      rw [he] at within adds
      have within : m'.total ≤ limit := within
      have unlimited' : m'.sink.room = none := adds.unlimited unlimited
      simp only [onState, print_unlimited unlimited', print_capped within]
      by_cases fits : (m'.sink.written ++ lineOf value).size ≤ limit
      · rw [if_pos fits]
        exact .within fits rfl
      · rw [if_neg fits]
        exact .beyond .start ⟨he, within, Nat.lt_of_not_le fits⟩ ⟨.empty, by simp [left]⟩ rfl
  | @beyond n e' m₀ value before current prints overruns begins stopped =>
    -- the value itself cannot be computed within the limit
    have calls : (Task.execute (.print e)).plan.Calls (Task.tasksAt fuel) (.evaluate e) m m :=
      .here rfl
    rw [stopped]
    refine .beyond (prints.within calls) overruns ?_ rfl
    obtain ⟨rest, begins⟩ := begins
    cases he : evaluate fuel e m with
    | error stop m' =>
      rw [he] at begins
      exact ⟨rest, begins⟩
    | ok printed m' =>
      rw [he] at begins adds
      have begins : m'.sink.written = before.sink.written ++ lineOf value ++ rest := begins
      have unlimited' : m'.sink.room = none := adds.unlimited unlimited
      simp only [print_unlimited unlimited']
      refine ⟨rest ++ lineOf printed, ?_⟩
      show m'.sink.written ++ lineOf printed = _
      rw [begins, ByteArray.append_assoc]

/-- Every task is cut as it should be. -/
theorem cuts_tasks (limit fuel : Nat) : CutsTasks limit fuel := by
  induction fuel with
  | zero =>
    intro t m unlimited total
    rw [Task.run_zero, Task.run_zero]
    exact .within total rfl
  | succ fuel ih =>
    intro t m unlimited total
    by_cases prints : ∃ e, t = .execute (.print e)
    · obtain ⟨e, rfl⟩ := prints
      exact truncates_print ih e m unlimited total
    · rw [not_exists] at prints
      rw [Task.run_succ]
      refine ((mute_plan prints).truncates ih m unlimited total).imp ?_
      rintro n e m₂ ⟨u, m₁, calls, inner⟩
      exact inner.within calls

end ClassScript.Machine
