import Mathlib.Data.List.Induction
import ClassScript.Proofs.Machine.Events
import ClassScript.Proofs.Session.Receivers

/-!
# Events of a session

A session begins without objects. So all objects of its machine are those that its texts made,
and their fields have what its texts wrote to them last (`kept_after`), at every moment of
a text as well (`Step.Logged.recorded`).
-/

namespace ClassScript.Session

open Syntax Parsing Object Binding Machine

/-! ## What happens in a session -/

/-- The calls that the run of an accepted text makes, in order. -/
def Step.calls (step : Step) (s : Session) : List (Task × Machine.State) :=
  match (step.check s.nextId).1 with
  | .error _ => []
  | .ok input => (planOfInput input.tree).called (Task.tasksAt step.fuel)
      (enter s.machine input.locals)

/-- What a text does to objects. -/
def Step.events (step : Step) (s : Session) : List Event := eventsOf step.fuel (step.calls s)

/-- What the texts of a session do to objects, in order. -/
def events (s : Session) : List Step → List Event
  | [] => []
  | step :: rest => step.events s ++ events (step.take s).2 rest

/-- A run of a task within the run of a text, and what the text did to objects before. -/
inductive Step.Logged (step : Step) (s : Session) (n : Nat) (t : Task) (m : Machine.State) :
    List Event → Prop
  | of {before u m₁ after log} (calls : step.calls s = before ++ (u, m₁) :: after)
      (logged : Machine.Logged step.fuel u m₁ n t m log) :
      Logged step s n t m (eventsOf step.fuel before ++ log)

theorem events_append (s : Session) (steps : List Step) (next : Step) :
    s.events (steps ++ [next]) = s.events steps ++ next.events (s.after steps) := by
  induction steps generalizing s with
  | nil => exact List.append_nil _
  | cons step rest ih =>
    rw [List.cons_append, events, events, ih, List.append_assoc]
    rfl

/-- The tasks that a run calls have runs of their own. -/
theorem Step.Moment.called {step : Step} {s : Session} {n : Nat} {t u : Task}
    {m m' : Machine.State} (moment : step.Moment s (n + 1) t m)
    (calls : t.plan.Calls (Task.tasksAt n) u m' m) : step.Moment s n u m' := by
  obtain ⟨input, accepted, u₀, m₀, begun, moment⟩ := moment
  exact ⟨input, accepted, u₀, m₀, begun, moment.called calls⟩

theorem Step.Logged.moment {step : Step} {s : Session} {n : Nat} {t : Task} {m : Machine.State}
    {log : List Event} (logged : step.Logged s n t m log) : step.Moment s n t m := by
  obtain @⟨before, u, m₁, after, log, calls, logged⟩ := logged
  cases accepted : (step.check s.nextId).1 with
  | error rejection => simp [Step.calls, accepted] at calls
  | ok input =>
    simp only [Step.calls, accepted] at calls
    exact ⟨input, accepted, u, m₁, (Plan.calls_iff _).mpr (by simp [calls]), logged.moment⟩

/-- Before every moment something happened, or nothing. -/
theorem Step.Moment.logged {step : Step} {s : Session} {n : Nat} {t : Task} {m : Machine.State}
    (moment : step.Moment s n t m) : ∃ log, step.Logged s n t m log := by
  obtain ⟨input, accepted, u, m₁, calls, moment⟩ := moment
  obtain ⟨log, logged⟩ := moment.logged
  obtain ⟨before, after, split⟩ := List.append_of_mem ((Plan.calls_iff _).mp calls)
  have calls : step.calls s = before ++ (u, m₁) :: after := by
    simp only [Step.calls, accepted, split]
  exact ⟨_, .of calls logged⟩

/-! ## Plans of texts -/

section Plans

variable {H : History} {m : Machine.State} {n : Nat}

theorem deals_planOfProgram (program : List Stmt) (filled : Filled (H.Genuine m) m) :
    Deals H m n (planOfProgram program) fun _ _ => True := by
  induction program generalizing m with
  | nil => exact .ret trivial
  | cons s rest ih =>
    refine .bind (deals_execute filled s) ?_
    rintro completion m₁ ⟨first, _⟩
    cases completion with
    | normal => exact ih first.filled
    | _ => exact deals_stop first.filled _

theorem deals_planOfInput (input : Input) (filled : Filled (H.Genuine m) m) :
    Deals H m n (planOfInput input) fun _ _ => True := by
  cases input with
  | statements program => exact .bind (deals_planOfProgram program filled) fun _ _ _ => .ret trivial
  | expression e => exact .bind (deals_evaluate filled e) fun _ _ _ => .ret trivial

theorem quiet_planOfProgram (program : List Stmt) : (planOfProgram program).Quiet := by
  induction program with
  | nil => exact .ret ()
  | cons s rest ih =>
    refine (Plan.Quiet.sub (.execute s)).bind fun completion => ?_
    cases completion with
    | normal => exact ih
    | _ => exact .prim SameObjects.stop

theorem quiet_planOfInput (input : Input) : (planOfInput input).Quiet := by
  cases input with
  | statements program => exact (quiet_planOfProgram program).bind fun _ => .ret _
  | expression e => exact (Plan.Quiet.sub (.evaluate e)).bind fun _ => .ret _

end Plans

/-! ## Machines of a session -/

section Steps

variable (readings : Nat → Float) (sink : Sink) (steps : List Step)

/-- The runs of a session begin in scopes that are there. -/
theorem inside_history : ((start readings sink).history steps).Inside := by
  rintro n t m ⟨before, step, rest, rfl, moment⟩
  have among : m ∈ (start readings sink).states (before ++ step :: rest) :=
    states_after _ before (step :: rest)
      (List.mem_append_left _ (List.mem_cons_of_mem _ moment.mem_states.1))
  exact ((along_session readings sink _).inv m among).current

/-- A session begins with nothing but the clock. -/
theorem filled_start (H : History) :
    Filled (H.Genuine (start readings sink).machine) (start readings sink).machine := by
  have bare : Filled (H.Genuine (start readings sink).machine)
      ⟨(Scopes.empty.push none).2, #[], 0, #[.clock], 0, 0, .empty, ⟨readings, 0⟩, sink⟩ := by
    refine ⟨?_, ?_, ?_⟩
    · intro id name value bound
      rw [Scopes.own?_push] at bound
      cases bound
    · intro o name value set
      cases set
    · intro action inside
      simpa using inside
  have clock : H.Genuine (start readings sink).machine (.host ⟨0, clockName, 0⟩) := trivial
  exact bare.define 0 clockName clock

variable {readings sink steps} {before rest : List Step} {step : Step}

/-- What holds of the machine of a session behind some of its texts: its values are genuine,
and its fields are recorded. -/
structure Kept (H : History) (m : Machine.State) (events : List Event) : Prop where
  filled : Filled (H.Genuine m) m
  recorded : Recorded events m

theorem Kept.enter {H : History} {m : Machine.State} {events : List Event}
    (kept : Kept H m events) (locals : Locals) : Kept H (enter m locals) events :=
  ⟨kept.filled.congr rfl rfl rfl, kept.recorded.congr rfl⟩

/-- The calls of a text are runs of the session. -/
theorem fair_called (split : steps = before ++ step :: rest) {input : Accepted Input}
    (accepted : (step.check ((start readings sink).after before).nextId).1 = .ok input)
    {events : List Event} (kept : Kept ((start readings sink).history steps)
      ((start readings sink).after before).machine events)
    {t : Task} {m : Machine.State}
    (calls : (planOfInput input.tree).Calls (Task.tasksAt step.fuel) t m
      (Session.enter ((start readings sink).after before).machine input.locals)) :
    ((start readings sink).history steps).Fair step.fuel t m := by
  let H := (start readings sink).history steps
  have closed : ClosedRuns H.runs := closed_ran _ steps
  have deals := deals_planOfInput (n := step.fuel) input.tree (kept.enter input.locals).filled
  obtain ⟨filled, handed⟩ := deals.of_calls calls fun t m calls =>
    Course.of_runs closed (heeded_existence (inside_history readings sink steps))
      (ran_of_calls split accepted calls)
  exact ⟨ran_of_calls split accepted calls, filled, handed⟩

/-- What the calls of an accepted text leave behind. -/
theorem kept_records (split : steps = before ++ step :: rest) {input : Accepted Input}
    (accepted : (step.check ((start readings sink).after before).nextId).1 = .ok input)
    {events : List Event} (kept : Kept ((start readings sink).history steps)
      ((start readings sink).after before).machine events) :
    (planOfInput input.tree).Records step.fuel
      (Session.enter ((start readings sink).after before).machine input.locals) events := by
  have closed : ClosedRuns ((start readings sink).history steps).runs := closed_ran _ steps
  have here := inside_history readings sink steps
  refine (quiet_planOfInput input.tree).records (kept.enter input.locals).recorded ?_
  intro u m events listed recorded
  exact (fair_called split accepted kept ((Plan.calls_iff _).mpr listed)).recorded closed here
    recorded

/-- A text leaves such a machine, whatever becomes of it. -/
theorem kept_step (split : steps = before ++ step :: rest) {events : List Event}
    (kept : Kept ((start readings sink).history steps)
      ((start readings sink).after before).machine events) :
    Kept ((start readings sink).history steps)
      (step.take ((start readings sink).after before)).2.machine
      (events ++ step.events ((start readings sink).after before)) := by
  cases checked : (step.check ((start readings sink).after before).nextId).1 with
  | error rejection =>
    rw [Step.take_rejected checked]
    -- a rejected step runs nothing, so it adds no event
    have nothing : step.events ((start readings sink).after before) = [] := by
      simp only [Step.events, Step.calls, checked]
      rfl
    rw [nothing, List.append_nil]
    exact kept
  | ok input =>
    obtain ⟨r, rfl, taken⟩ := Step.take_accepted checked
    have entered := kept.enter input.locals
    have records := kept_records split checked kept
    -- the heap and the log are kept by the same run, each by its own lemma
    have deals := Plan.Heeds.keeps (planOfInput input.tree) _
      (fun t m calls => Course.of_runs (closed_ran _ steps)
        (heeded_existence (inside_history readings sink steps))
        (ran_of_calls split checked calls))
      entered.filled (deals_planOfInput input.tree entered.filled)
    rw [taken]
    simp only [Step.events, Step.calls, checked]
    exact ⟨deals.last, records.left⟩

/-- Behind every text the machine holds genuine values, and its fields have what was written
to them last. -/
theorem kept_after (split : steps = before ++ rest) :
    Kept ((start readings sink).history steps) ((start readings sink).after before).machine
      ((start readings sink).events before) := by
  induction before using List.reverseRecOn generalizing rest with
  | nil =>
    refine ⟨filled_start readings sink _, rfl, fun o name => ?_⟩
    show (#[] : Array Fields)[o.id]?.bind _ = _
    rfl
  | append_singleton before step ih =>
    -- the texts in front of the last one are a beginning of the session too
    rw [List.append_assoc, List.singleton_append] at split
    rw [after_append, events_append]
    exact kept_step split (ih split)

/-- So it is at every moment of a text. -/
theorem Step.Logged.recorded {next : Step} {n : Nat} {t : Task} {m : Machine.State}
    {log : List Event} (logged : next.Logged ((start readings sink).after steps) n t m log) :
    ((start readings sink).history (steps ++ [next])).Fair n t m ∧
      Recorded ((start readings sink).events steps ++ log) m := by
  obtain @⟨earlier, u, m₁, later, log, calls, logged⟩ := logged
  have split : steps ++ [next] = steps ++ next :: [] := rfl
  cases checked : (next.check ((start readings sink).after steps).nextId).1 with
  | error rejection => simp [Step.calls, checked] at calls
  | ok input =>
    simp only [Step.calls, checked] at calls
    have kept : Kept ((start readings sink).history (steps ++ [next]))
        ((start readings sink).after steps).machine ((start readings sink).events steps) :=
      kept_after split
    -- the task logged is one that the input called
    have listed : (planOfInput input.tree).Calls (Task.tasksAt next.fuel) u m₁
        (Session.enter ((start readings sink).after steps).machine input.locals) :=
      (Plan.calls_iff _).mpr (by simp [calls])
    have fair := fair_called split checked kept listed
    have recorded := (kept_records split checked kept).calls earlier u m₁ later calls
    rw [← List.append_assoc]
    exact logged.recorded (closed_ran _ _) (inside_history readings sink _) fair recorded

end Steps

end ClassScript.Session
