import ClassScript.Proofs.Machine.Grounded
import ClassScript.Proofs.Session.History

/-!
# The machines that a session goes through

`Session.states` lists the machine of a session before every text, and all those that the
runs of accepted texts go through. If a session begins grounded, all of these machines are
(`along_states`): the functions that they hold come from the programs that the session
accepted (`Session.programs`).
-/

namespace ClassScript.Session

open Syntax Parsing Object Binding Machine

/-- The program that a step runs, with its table: none if its text is rejected, or a
single expression. -/
def Step.program? (step : Step) (n : NodeId) : Option (Accepted Program) :=
  match (step.check n).1 with
  | .ok ⟨.statements program, locals⟩ => some ⟨program, locals⟩
  | _ => none

/-- The programs that a session runs, with their tables, in order. -/
def programs (s : Session) : List Step → List (Accepted Program)
  | [] => []
  | step :: rest => (step.program? s.nextId).toList ++ programs (step.take s).2 rest

/-- The machines that the run of an accepted text goes through. -/
def Step.states (step : Step) (s : Session) : List Machine.State :=
  match (step.check s.nextId).1 with
  | .error _ => []
  | .ok input => (planOfInput input.tree).trace (Task.tasksAt step.fuel) (Task.trace step.fuel)
      (enter s.machine input.locals)

/-- The machines that a session goes through. -/
def states (s : Session) : List Step → List Machine.State
  | [] => [s.machine]
  | step :: rest => s.machine :: step.states s ++ states (step.take s).2 rest

theorem after_mem_states (s : Session) (steps : List Step) :
    (s.after steps).machine ∈ s.states steps := by
  induction steps generalizing s with
  | nil => exact List.mem_singleton_self _
  | cons step rest ih => exact List.mem_append_right _ (ih _)

/-- What a further step goes through. -/
theorem states_subset_append (s : Session) (steps : List Step) (next : Step) :
    next.states (s.after steps) ⊆ s.states (steps ++ [next]) := by
  induction steps generalizing s with
  | nil => exact fun _ inside => List.mem_append_left _ (List.mem_cons_of_mem _ inside)
  | cons step rest ih => exact fun _ inside => List.mem_append_right _ (ih _ inside)

theorem programs_append (s : Session) (steps more : List Step) :
    s.programs (steps ++ more) = s.programs steps ++ (s.after steps).programs more := by
  induction steps generalizing s with
  | nil => rfl
  | cons step rest ih =>
    rw [List.cons_append, programs, programs, ih, List.append_assoc]
    rfl

/-- The machine of a moment, and the one that its task leaves, are among them. -/
theorem Step.Moment.mem_states {step : Step} {s : Session} {n : Nat} {t : Task}
    {m : Machine.State} (moment : step.Moment s n t m) :
    m ∈ step.states s ∧ left (t.run n m) ∈ step.states s := by
  obtain ⟨input, accepted, u, m₁, calls, moment⟩ := moment
  rw [Step.states, accepted]
  have inner : u.trace step.fuel m₁ ⊆ _ := calls.trace_subset
  exact ⟨inner (moment.trace_subset (t.mem_trace n m)),
    inner (moment.trace_subset (t.left_mem_trace n m))⟩

/-! ## Grounded sessions -/

/-- The inputs that are these programs. -/
def inputsOf (ps : List (Accepted Program)) : List Input :=
  ps.map fun p => .statements p.tree

theorem mem_inputsOf {ps : List (Accepted Program)} {p : Accepted Program} (inside : p ∈ ps) :
    Input.statements p.tree ∈ inputsOf ps :=
  List.mem_map.mpr ⟨p, inside, rfl⟩

theorem grounded_start (inputs : List Input) (readings : Nat → Float) (sink : Sink) :
    Grounded inputs (.start readings sink) := by
  have bare : Grounded inputs
      ⟨(Scopes.empty.push none).2, #[], 0, #[.clock], 0, 0, .empty, ⟨readings, 0⟩, sink⟩ := by
    refine ⟨Scopes.Rooted.start, Scopes.Rooted.start.inside, ?_, ?_⟩
    · intro closure has
      cases has with
      | bound bound has =>
        rw [Scopes.own?_push] at bound
        cases bound
      | field found set has => cases found
    · intro action inside
      simpa using inside
  exact bare.define (placedValue_host ⟨0, clockName, 0⟩) 0 clockName

section Runs

variable {inputs : List Input}

theorem stays_planOfProgram {ss : List Stmt} {m : Machine.State} (grounded : Grounded inputs m)
    (visited : Visited inputs (.statements ss)) :
    Stays inputs (planOfProgram ss) m fun _ _ => True := by
  induction ss generalizing m with
  | nil => exact .ret trivial
  | cons s rest ih =>
    refine .bind grounded (.code (t := .execute s) grounded rfl
      (visited.child fun _ _ => ⟨_, _, .statementsHead⟩) fun _ => id) ?_
    intro c m₁ grounded₁ _ _
    cases c with
    | normal => exact ih grounded₁ (visited.child fun _ _ => ⟨_, _, .statementsTail⟩)
    | _ => exact .stop grounded₁ _

theorem stays_planOfInput {input : Input} {m : Machine.State} (grounded : Grounded inputs m)
    (known : ∀ program, input = .statements program → input ∈ inputs) :
    Stays inputs (planOfInput input) m fun _ _ => True := by
  cases input with
  | statements program =>
    have visited : Visited inputs (.statements program) :=
      ⟨_, ⟨_, known program rfl, .refl⟩, rfl⟩
    exact .bind grounded (stays_planOfProgram grounded visited) fun _ _ _ _ _ => .ret trivial
  | expression e => exact .bind grounded (.evaluate grounded e) fun _ _ _ _ _ => .ret trivial

theorem stays_step {step : Step} {s : Session} {input : Accepted Input}
    (grounded : Grounded inputs s.machine)
    (known : ∀ p ∈ step.program? s.nextId, Input.statements p.tree ∈ inputs)
    (accepted : (step.check s.nextId).1 = .ok input) :
    Stays inputs (planOfInput input.tree) (enter s.machine input.locals) fun _ _ => True := by
  have entered : Grounded inputs (enter s.machine input.locals) :=
    grounded.congr rfl rfl rfl rfl rfl
  refine stays_planOfInput entered fun program same => ?_
  obtain ⟨tree, locals⟩ := input
  obtain rfl : tree = .statements program := same
  exact known ⟨program, locals⟩ (by rw [Step.program?, accepted]; rfl)

/-- A step that accepts a text goes through grounded machines. -/
theorem keeps_step {step : Step} {s : Session} {input : Accepted Input}
    (grounded : Grounded inputs s.machine)
    (known : ∀ p ∈ step.program? s.nextId, Input.statements p.tree ∈ inputs)
    (accepted : (step.check s.nextId).1 = .ok input) :
    (grounding inputs).Keeps (fun _ _ => True) (enter s.machine input.locals)
      (step.states s) ((planOfInput input.tree).run (Task.tasksAt step.fuel)
        (enter s.machine input.locals)) := by
  have entered : Grounded inputs (enter s.machine input.locals) :=
    grounded.congr rfl rfl rfl rfl rfl
  have keeps := Plan.Follows.keeps (Course.holds (followed_grounding inputs) step.fuel)
    _ _ entered (stays_step grounded known accepted)
  rw [Step.states, accepted]
  exact keeps

/-- All machines that a session goes through are grounded, and each is later than those
before it. -/
theorem along_states {s : Session} (grounded : Grounded inputs s.machine) (steps : List Step)
    (known : ∀ p ∈ s.programs steps, Input.statements p.tree ∈ inputs) :
    (grounding inputs).Along s.machine (s.states steps) (s.after steps).machine := by
  induction steps generalizing s with
  | nil => exact .single grounded
  | cons step rest ih =>
    have later (p : Accepted Program) (inside : p ∈ (step.take s).2.programs rest) :
        Input.statements p.tree ∈ inputs := known p (List.mem_append_right _ inside)
    cases checked : (step.check s.nextId).1 with
    | error rejection =>
      have taken := Step.take_rejected checked
      have nothing : step.states s = [] := by rw [Step.states, checked]
      -- a rejected step leaves the machine where it was
      have same : (step.take s).2.machine = s.machine := by rw [taken]
      have rest := ih (s := (step.take s).2) (same ▸ grounded) later
      rw [states, nothing]
      exact (Course.Along.single (C := grounding inputs) grounded).append
        (same ▸ Later.refl s.machine) rest
    | ok input =>
      obtain ⟨r, rfl, taken⟩ := Step.take_accepted checked
      have keeps := keeps_step grounded (fun p inside =>
        known p (List.mem_append_left _ (Option.mem_toList.mpr inside))) checked
      have begins : Later s.machine (enter s.machine input.locals) := ⟨.refl _, rfl⟩
      -- an accepted one goes through its states and hands on the last of them
      have before := Course.Along.cons (C := grounding inputs) grounded begins keeps.along
      have machine : (step.take s).2.machine = left _ := congrArg (fun r => r.2.machine) taken
      have rest := ih (s := (step.take s).2) (machine ▸ keeps.last) later
      exact before.append (machine ▸ Later.refl _) rest

end Runs

/-- So it is from the start on, for the programs that the session runs. -/
theorem along_session (readings : Nat → Float) (sink : Sink) (steps : List Step) :
    (grounding (inputsOf ((start readings sink).programs steps))).Along
      (start readings sink).machine ((start readings sink).states steps)
      ((start readings sink).after steps).machine :=
  along_states (grounded_start _ readings sink) steps fun _ inside => mem_inputsOf inside

end ClassScript.Session
