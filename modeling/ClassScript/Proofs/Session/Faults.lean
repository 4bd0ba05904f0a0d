import ClassScript.Proofs.Session.Chain
import Mathlib

/-!
# Internal faults in sessions

Resolution and runs agree on the scopes of every name, with one exception. Resolution
rejects an initializer that reads the variable that it is for, but not one that writes
to it. The write finds the scope of the variable, and in it no binding; it is the only
way for a session to end with an internal fault (`internal_fault_iff`).
-/

namespace ClassScript.Session

open Syntax Parsing Object Binding Machine

/-- The assignment stands in the initializer of the local variable that it writes to:
where resolution visits it, the variable is declared and not yet defined. -/
def InOwnInitializer (inputs : List Input) (target : Occurrence) (value : Expr) : Prop :=
  ∃ v, Seen inputs v ∧ v.node = .expression (.assign target value) ∧
    v.walk.innermost? target.name.text = some false

section Assignments

variable {inputs : List Input} {n : Nat} {target : Occurrence} {value : Expr}
  {m m' : Machine.State} {x : Value}

/-- Such an assignment fails as soon as it has a value to write. -/
theorem assign_fails {v : Visit} (healthy : Healthy inputs m) (seen : Seen inputs v)
    (node : v.node = .expression (.assign target value)) (here : At m v)
    (open_ : v.walk.innermost? target.name.text = some false)
    (ran : Machine.evaluate n value m = .ok x m') :
    writeVariable target x m' =
      .error (.fault (.internal (.missing target.name.text 0))) m' := by
  obtain ⟨piece, context, w⟩ := v
  obtain rfl := node
  have grows : Grows [] m m' := grows_of_ok (t := .evaluate value) ran
  have here' : At m' ⟨.expression (.assign target value), context, w⟩ :=
    here.still healthy.inside rfl grows rfl
  have noted := (healthy.sound _ seen).assign
  rw [← grows.locals] at noted
  exact writeVariable_undefined here' noted open_ x

/-- An assignment stops of itself only where it writes, with its value at hand. -/
theorem assign_of_breaks {e : Stop}
    (broken : (Task.evaluate (.assign target value)).plan.Breaks (Task.tasksAt n) e m) :
    ∃ x m₁ m₂, Machine.evaluate n value m = .ok x m₁ ∧
      writeVariable target x m₁ = .error e m₂ := by
  obtain ⟨x, m₁, ran, rest⟩ := Plan.breaks_sub.mp broken
  rcases Plan.breaks_prim.mp rest with ⟨_, _, _, none⟩ | ⟨m₂, written⟩
  · exact none.elim
  · exact ⟨x, m₁, m₂, ran, written⟩

end Assignments

variable {readings : Nat → Float} {sink : Sink} {steps : List Step} {next : Step}

/-- A step ends with a fault exactly if its text is accepted and its plan stops with
the fault. -/
theorem take_fault_iff {step : Step} {s : Session} {fault : Fault} :
    (step.take s).1 = .failed (.fault fault) ↔
      ∃ input m', (step.check s.nextId).1 = .ok input ∧
        (planOfInput input.tree).run (Task.tasksAt step.fuel) (enter s.machine input.locals) =
          .error (.fault fault) m' := by
  cases checked : (step.check s.nextId).1 with
  | error rejection =>
    rw [Step.take_rejected checked]
    exact ⟨nofun, fun ⟨input, m', same, _⟩ => nomatch same⟩
  | ok input =>
    obtain ⟨r, ran, taken⟩ := Step.take_accepted checked
    rw [taken]
    refine ⟨fun failed => ⟨input, left r, rfl, ?_⟩, ?_⟩
    · rw [← ran]
      cases r with
      | ok value m => cases failed
      | error e m =>
        cases e with
        | fault f => cases failed; rfl
        -- running out of fuel is not a fault
        | outOfFuel => cases failed
    · rintro ⟨_, m', ⟨⟩, stops⟩
      rw [ran, stops]
      rfl

/-- Where an input on a healthy machine stops with an internal fault, an assignment fails
in the initializer of its own variable. -/
theorem internal_of_stops {inputs : List Input} {input : Input} {m m' : Machine.State}
    {fuel : Nat} {fault : InternalFault} (healthy : Healthy inputs m) (among : input ∈ inputs)
    (place : m.current = m.globals)
    (stops : (planOfInput input).run (Task.tasksAt fuel) m =
      .error (.fault (.internal fault)) m') :
    ∃ u m₁ n target value m₂ x m₃,
      (planOfInput input).Calls (Task.tasksAt fuel) u m₁ m ∧
        Machine.Moment fuel u m₁ (n + 1) (.evaluate (.assign target value)) m₂ ∧
        InOwnInitializer inputs target value ∧
        Machine.evaluate n value m₂ = .ok x m₃ ∧ fault = .missing target.name.text 0 := by
  have goes := goes_input healthy among place
  have keeps := fun t m => (kept_sound inputs).holds fuel t m
  have internal : ¬ (Stop.fault (.internal fault)).External := fun h => h fault rfl
  rcases Plan.breaks_or_calls _ _ _ stops with broken | ⟨u, m₁, m₂, calls, stopped⟩
  · -- at top level nothing stops with an internal fault
    exact absurd (Plan.Meets.of_breaks keeps _ _ broken goes) internal
  · have begins := Plan.Meets.of_calls keeps calls goes
    obtain ⟨n, t, m₂, moment, broken, own⟩ :=
      (kept_sound inputs).blame begins (e := .fault (.internal fault)) nofun stopped
    rcases own with external | ⟨target, value, v, rfl, seen, node, here, open_⟩
    · exact absurd external internal
    -- the value was evaluated, and then its target was not bound yet
    · obtain ⟨x, m₃, m₄, ran, written⟩ := assign_of_breaks broken
      have healthy' := ((kept_sound inputs).moment begins moment).1
      rw [assign_fails healthy' seen node here open_ ran] at written
      obtain ⟨⟩ := written
      exact ⟨u, m₁, n, target, value, m₂, x, m₃, calls, moment, ⟨v, seen, node, open_⟩, ran, rfl⟩

/-- Where a run of an accepted input stops with an internal fault, such an assignment
fails. -/
theorem blamed {input : Accepted Input} {m' : Machine.State} {fault : InternalFault}
    (checked : (next.check ((start readings sink).after steps).nextId).1 = .ok input)
    (stops : (planOfInput input.tree).run (Task.tasksAt next.fuel)
      (enter ((start readings sink).after steps).machine input.locals) =
        .error (.fault (.internal fault)) m') :
    ∃ n target value m x m₁,
      next.Moment ((start readings sink).after steps) (n + 1) (.evaluate (.assign target value)) m ∧
        InOwnInitializer (known readings sink steps next) target value ∧
        Machine.evaluate n value m = .ok x m₁ ∧ fault = .missing target.name.text 0 := by
  have steady := steady_after readings sink steps
  have healthy := steady.enter ((next.check_accepts _).2 input checked)
  obtain ⟨u, m₁, n, target, value, m, x, m₂, calls, moment, own, ran, missing⟩ :=
    internal_of_stops healthy List.mem_cons_self steady.outside stops
  rw [known_accepted checked]
  exact ⟨n, target, value, m, x, m₂, ⟨input, checked, u, m₁, calls, moment⟩, own, ran, missing⟩

/-- Whatever a session was handed before, the step at hand ends with an internal fault
exactly if it comes to an assignment in the initializer of its own variable, and has a
value to assign; the fault says that the variable is missing. -/
theorem internal_fault_iff (readings : Nat → Float) (sink : Sink) (steps : List Step)
    (next : Step) (fault : InternalFault) :
    (next.take ((start readings sink).after steps)).1 = .failed (.fault (.internal fault)) ↔
      ∃ n target value m x m₁,
        next.Moment ((start readings sink).after steps) (n + 1)
            (.evaluate (.assign target value)) m ∧
          InOwnInitializer (known readings sink steps next) target value ∧
          Machine.evaluate n value m = .ok x m₁ ∧ fault = .missing target.name.text 0 := by
  rw [take_fault_iff]
  constructor
  · rintro ⟨input, m', checked, stops⟩
    exact blamed checked stops
  · rintro ⟨n, target, value, m, x, m₁, moment, ⟨v, seen, node, open_⟩, ran, rfl⟩
    obtain ⟨healthy, w, seen', node', here⟩ := moment.sound
    have occurs : v.node.ids ≠ [] := by
      rw [node]
      simp [Node.ids, Expr.ids]
    have visited : IsFor (.evaluate (.assign target value)) v.node := by
      rw [node]
      rfl
    -- the visit that the run is at is the one where the variable was not defined
    obtain rfl := visit_unique seen seen' visited node' occurs
    have fails : (Task.evaluate (.assign target value)).run (n + 1) m =
        .error (.fault (.internal (.missing target.name.text 0))) m₁ := by
      show Machine.evaluate (n + 1) (.assign target value) m = _
      simp only [Machine.evaluate, bind, EStateM.bind, ran,
        assign_fails healthy seen node here open_ ran]
    obtain ⟨input, checked, u, m₂, calls, within⟩ := moment
    obtain ⟨m₃, stopped⟩ := within.error fails
    obtain ⟨m₄, stops⟩ := calls.error stopped
    exact ⟨input, m₄, checked, stops⟩

/-- An accepted program that ends with an internal fault. -/
theorem own_initializer_fails :
    ((⟨.run, "\x7b var a = (a = nil); \x7d", 12⟩ : Step).take
      ((start (fun _ => 0) .unlimited).after [])).1 =
        .failed (.fault (.internal (.missing "a" 0))) := by
  cbv

end ClassScript.Session
