import ClassScript.Proofs.Session.History

/-!
# Jumps in sessions

In the programs of a session a jump leads no further than resolution saw: `break` and
`continue` end or go on with the loop around them, and a returned value goes to the
nearest call around it and reaches it unchanged (`jumps_routed`).
-/

namespace ClassScript.Session

open Syntax Parsing Object Binding Machine

/-- The statement stands in the inputs, and wherever it does, inside the body of a
function or a method. -/
structure InsideFunction (inputs : List Input) (s : Stmt) : Prop where
  stands : ∃ v, Seen inputs v ∧ v.node = .statement s
  inside : ∀ v, Seen inputs v → v.node = .statement s →
    ∃ f d, Seen inputs f ∧ f.node = .function d ∧ Reaches f v

/-- The step runs the statement at top level. -/
def Step.TopLevel (step : Step) (s : Session) (stmt : Stmt) (m : Machine.State) : Prop :=
  ∃ input, (step.check s.nextId).1 = .ok input ∧
    (planOfInput input.tree).Calls (Task.tasksAt step.fuel) (.execute stmt) m
      (enter s.machine input.locals)

/-- Where the jumps go in the run of a step, with everything that it calls. -/
structure Routed (inputs : List Input) (step : Step) (s : Session) : Prop where
  /-- A `break` that leads out of a statement stands in it, outside of nested loops and
  functions. -/
  broke : ∀ n stmt m m', step.Moment s n (.execute stmt) m →
    execute n stmt m = .ok .broke m' → stmt.Escapes .break
  continued : ∀ n stmt m m', step.Moment s n (.execute stmt) m →
    execute n stmt m = .ok .continued m' → stmt.Escapes .continue
  returned : ∀ n stmt m v m', step.Moment s n (.execute stmt) m →
    execute n stmt m = .ok (.returned v) m' →
      stmt.Escapes .return ∧ InsideFunction inputs stmt
  /-- A loop keeps the jumps that are for it. -/
  loops : ∀ n condition body increment m c m',
    step.Moment s n (.execute (.loop condition body increment)) m →
    execute n (.loop condition body increment) m = .ok c m' → c ≠ .broke ∧ c ≠ .continued
  /-- A call sees no jump that is for a loop. -/
  calls : ∀ n closure arguments m scope m₁ c m₂,
    step.Moment s (n + 1) (.invoke closure arguments) m →
    callScope closure arguments m = .ok scope m₁ →
    executeAll n closure.declaration.body { m₁ with current := scope } = .ok c m₂ →
      c ≠ .broke ∧ c ≠ .continued
  /-- At top level statements end normally. -/
  program : ∀ stmt m c m', step.TopLevel s stmt m →
    execute step.fuel stmt m = .ok c m' → c = .normal
  /-- A returned value has a call around it, and reaches the nearest one unchanged. -/
  reaches : ∀ n stmt m v m', step.Moment s n (.execute stmt) m →
    execute n stmt m = .ok (.returned v) m' →
      ∃ k closure arguments m₀, step.Moment s (k + 1) (.invoke closure arguments) m₀ ∧
        InBody k closure arguments m₀ n (.execute stmt) m ∧
        ∃ scope m₁ m₂, callScope closure arguments m₀ = .ok scope m₁ ∧
          executeAll k closure.declaration.body { m₁ with current := scope } =
            .ok (.returned v) m₂ ∧
          (closure.isInitializer = false →
            invoke (k + 1) closure arguments m₀ =
              .ok v { m₂ with current := m₁.current })

section Steps

variable {inputs : List Input} {m m' : Machine.State}

/-- A jump leads out of a statement only where the context of a visit allows it. -/
theorem allows_of_ends {n : Nat} {stmt : Stmt} {c : Completion} {exit : Exit}
    (healthy : Healthy inputs m) (ran : execute n stmt m = .ok c m')
    (ends : c.exit? = some exit) {v : Visit} (seen : Seen inputs v)
    (node : v.node = .statement stmt) : v.context.Allows exit := by
  have accepted := (healthy.sound v seen).accepted
  rw [Visit.after, node] at accepted
  exact allowed (ends_with_jump ran ends) accepted

theorem insideFunction_of_returned {n : Nat} {stmt : Stmt} {v : Value}
    (healthy : Healthy inputs m) (ready : Task.Ready inputs m (.execute stmt))
    (ran : execute n stmt m = .ok (.returned v) m') : InsideFunction inputs stmt where
  stands := by
    obtain ⟨visit, seen, node, -⟩ := ready
    exact ⟨visit, seen, node⟩
  inside visit seen node := by
    have allows := allows_of_ends healthy ran rfl seen node
    obtain ⟨input, inside, reached⟩ := seen
    obtain ⟨f, d, above, function, within⟩ := reached.inside_function allows
    exact ⟨f, d, ⟨input, inside, above⟩, function, within⟩

/-- The body of a function has no `break` and no `continue` that leads out of it. -/
theorem body_ends {n : Nat} {closure : Closure} {arguments : List Value}
    {scope : ScopeId} {m₁ m₂ : Machine.State} {c : Completion} (healthy : Healthy inputs m)
    (ready : Task.Ready inputs m (.invoke closure arguments))
    (made : callScope closure arguments m = .ok scope m₁)
    (ran : executeAll n closure.declaration.body { m₁ with current := scope } = .ok c m₂) :
    c ≠ .broke ∧ c ≠ .continued := by
  obtain ⟨good, values, enough⟩ := ready
  obtain ⟨-, f, body, seen, function, part, rows, context, -⟩ :=
    (safe_callScope healthy good values enough).ok scope m₁ made
  apply Completion.not_for_loop
  intro exit ends
  obtain ⟨stmt, mem, escapes⟩ := all_end_with_jump ran ends
  exact return_of_body healthy seen function part rows context mem escapes

end Steps

variable {readings : Nat → Float} {sink : Sink} {steps : List Step} {next : Step}

/-- What is run at top level is a moment of the step. -/
theorem Step.TopLevel.moment {step : Step} {s : Session} {stmt : Stmt} {m : Machine.State}
    (top : step.TopLevel s stmt m) : step.Moment s step.fuel (.execute stmt) m := by
  obtain ⟨input, accepted, calls⟩ := top
  exact ⟨input, accepted, _, m, calls, .start⟩

/-- A program runs its own statements, and an expression runs none. -/
theorem called_by_input {tasks : (t : Task) → Run t.Result} {input : Input} {t : Task}
    {m m₀ : Machine.State} (calls : (planOfInput input).Calls tasks t m m₀)
    (runs : t.RunsStatements) :
    ∃ program stmt, input = .statements program ∧ t = .execute stmt ∧ stmt ∈ program := by
  cases input with
  | statements program =>
    -- a program calls its own statements, an expression none
    have only (ss : List Stmt) (sub : ss ⊆ program) :
        (planOfProgram ss >>= fun _ => pure none : Plan (Option String)).CallsOnly
          fun t => ∃ stmt, t = .execute stmt ∧ stmt ∈ program := by
      induction ss with
      | nil => trivial
      | cons stmt rest ih =>
        rw [List.cons_subset] at sub
        refine ⟨⟨stmt, rfl, sub.1⟩, fun c => ?_⟩
        cases c with
        | normal => exact ih sub.2
        | _ => exact fun _ => trivial
    obtain ⟨stmt, same, mem⟩ := (only program (List.Subset.refl _)).of_calls calls
    exact ⟨program, stmt, rfl, same, mem⟩
  | expression e =>
    have only : (planOfInput (.expression e)).CallsOnly fun t => ¬ t.RunsStatements :=
      ⟨id, fun _ => trivial⟩
    exact absurd runs (only.of_calls calls)

/-- A statement of a program is visited at top level. -/
theorem seen_of_mem {inputs : List Input} {program : List Stmt} {w : Walk}
    (seen : Seen inputs ⟨.statements program, .top, w⟩) {stmt : Stmt}
    (mem : stmt ∈ program) : ∃ w', Seen inputs ⟨.statement stmt, .top, w'⟩ := by
  induction program generalizing w with
  | nil => cases mem
  | cons first rest ih =>
    rcases List.mem_cons.mp mem with rfl | mem
    · exact ⟨w, seen.child .statementsHead⟩
    · exact ih (seen.child .statementsTail) mem

/-- A statement at top level that ends without an error ends normally. -/
theorem normal_at_top {stmt : Stmt} {m m' : Machine.State} {c : Completion}
    (top : next.TopLevel ((start readings sink).after steps) stmt m)
    (ran : execute next.fuel stmt m = .ok c m') : c = .normal := by
  have sound := top.moment.sound
  obtain ⟨input, accepted, calls⟩ := top
  obtain ⟨program, _, tree, ⟨⟩, mem⟩ := called_by_input calls trivial
  have root : Seen (known readings sink steps next) (.ofInput input.tree) := by
    rw [known_accepted accepted]
    exact ⟨input.tree, List.mem_cons_self, .refl⟩
  rw [tree] at root
  obtain ⟨w, visited⟩ := seen_of_mem root mem
  have free := (sound.1.sound _ visited).accepted
  exact normal_of_top free fun exit ends => ends_with_jump ran ends

/-- A returned value has a call around it. -/
theorem reaches_call {n : Nat} {stmt : Stmt} {m m' : Machine.State} {v : Value}
    (moment : next.Moment ((start readings sink).after steps) n (.execute stmt) m)
    (ran : execute n stmt m = .ok (.returned v) m') :
    ∃ k closure arguments m₀,
      next.Moment ((start readings sink).after steps) (k + 1) (.invoke closure arguments) m₀ ∧
        InBody k closure arguments m₀ n (.execute stmt) m := by
  have returns : (Task.execute stmt).Returns n m v := ⟨_, m', ran, rfl⟩
  obtain ⟨input, accepted, u, m₁, calls, moment⟩ := moment
  rcases moment.around trivial with within | ⟨k, closure, arguments, m₀, call, inside⟩
  · -- without a call around it, the value would leave a statement at top level
    obtain ⟨c, m₂, ended, same⟩ := within.returns returns
    have runs : u.RunsStatements := by cases u <;> trivial
    obtain ⟨program, top, -, rfl, -⟩ := called_by_input calls runs
    have normal := normal_at_top ⟨input, accepted, calls⟩ ended
    rw [normal] at same
    cases same
  · exact ⟨k, closure, arguments, m₀, ⟨input, accepted, u, m₁, calls, call⟩, inside⟩

/-- Jumps in sessions: whatever a session was handed before, and however the step at
hand goes on. -/
theorem jumps_routed (readings : Nat → Float) (sink : Sink) (steps : List Step)
    (next : Step) :
    Routed (known readings sink steps next) next ((start readings sink).after steps) where
  broke _ _ _ _ _ ran := ends_with_jump ran rfl
  continued _ _ _ _ _ ran := ends_with_jump ran rfl
  returned n stmt m v m' moment ran := by
    obtain ⟨healthy, ready⟩ := moment.sound
    exact ⟨ends_with_jump ran rfl, insideFunction_of_returned healthy ready ran⟩
  loops n condition body increment m c m' _ ran := by
    -- what gets out of a loop is neither `break` nor `continue`
    apply Completion.not_for_loop
    intro exit ends
    exact (ends_with_jump ran ends).of_loop
  calls n closure arguments m scope m₁ c m₂ moment made ran := by
    obtain ⟨healthy, ready⟩ := moment.sound
    exact body_ends healthy ready made ran
  program stmt m c m' top ran := normal_at_top top ran
  reaches n stmt m v m' moment ran := by
    obtain ⟨k, closure, arguments, m₀, call, inside⟩ := reaches_call moment ran
    exact ⟨k, closure, arguments, m₀, call, inside, inside.returns ⟨_, m', ran, rfl⟩⟩

end ClassScript.Session
