import ClassScript.Proofs.Machine.Natural
import ClassScript.Proofs.Session.History

/-!
# Identities that are still to be drawn

Between two texts a machine knows none of the identities that later texts will draw: to
put others in their place changes nothing in it (`unseen_after`). The invariant is kept
since a run of renamed code does what the run of the code does; so the table of a later
text can be taken in early (`run_early`).
-/

namespace ClassScript.Session

open Source Syntax Parsing Object Binding Machine

/-- The identities before the given one stay as they are, and the others stay behind it. -/
structure Skips (n : NodeId) (node : NodeId → NodeId) : Prop where
  before : ∀ id, id < n → node id = id
  behind : ∀ id, n ≤ id → n ≤ node id

theorem Skips.mono {n last : NodeId} {node : NodeId → NodeId} (h : Skips last node)
    (ordered : n ≤ last) : Skips n node where
  before id early := h.before id (Nat.lt_of_lt_of_le early ordered)
  behind id late := by
    rcases Nat.lt_or_ge id last with early | later
    · rwa [h.before id early]
    · exact Nat.le_trans ordered (h.behind id later)

/-- The machine has no code with the given identity or a later one. -/
def Unseen (n : NodeId) (m : Machine.State) : Prop :=
  ∀ node, Skips n node → m.rename (.ofNodes node) m.locals = m

theorem Unseen.rename {n : NodeId} {m : Machine.State} (h : Unseen n m) {node : NodeId → NodeId}
    (skips : Skips n node) (table : Locals) :
    m.rename (.ofNodes node) table = { m with locals := table } :=
  congrArg (fun m : Machine.State => { m with locals := table }) (h node skips)

theorem unseen_start (readings : Nat → Float) (sink : Sink) :
    Unseen 0 (.start readings sink) := by
  intro node _
  -- the only value is the host's clock, in the only scope
  let clock : Value := .host ⟨0, clockName, 0⟩
  let bare : Machine.State :=
    ⟨(Scopes.empty.push none).2, #[], 0, #[.clock], 0, 0, .empty, ⟨readings, 0⟩, sink⟩
  have same : bare.rename (.ofNodes node) .empty = bare := by
    simp [Machine.State.rename, bare, Scopes.empty, Scopes.rename, Scopes.push]
  have defined := State.define_rename (r := .ofNodes node) .empty bare 0 clockName clock
  rw [same] at defined
  exact defined.symm

/-- A table that has no entry for the identities that are skipped. -/
theorem fits_of_skips {n : NodeId} {node : NodeId → NodeId} {table : Locals} (skips : Skips n node)
    (unknown : ∀ id, n ≤ id → table.depth? id = none) : Fits (.ofNodes node) table table := by
  intro id
  show table.depth? (node id) = _
  rcases Nat.lt_or_ge id n with early | late
  · rw [skips.before id early]
  · rw [unknown id late, unknown _ (skips.behind id late)]

def renameInput (r : Renaming) : Input → Input
  | .statements program => .statements (Stmt.renameAll r program)
  | .expression e => .expression (e.rename r)

theorem renameInput_of_skips {first last : NodeId} {node : NodeId → NodeId} {input : Input}
    (new : NewInput first last input) (skips : Skips last node) :
    renameInput (.ofNodes node) input = input := by
  cases input with
  | statements program =>
    have same := Stmt.renameAll_congr (r := .ofNodes node) (s := .same) rfl program
      fun id inside => skips.before id (new.2.range id inside).2
    exact congrArg Input.statements (same.trans (Stmt.renameAll_same program))
  | expression e =>
    have same := e.rename_congr (r := .ofNodes node) (s := .same) rfl
      fun id inside => skips.before id (new.2.range id inside).2
    exact congrArg Input.expression (same.trans e.rename_same)

theorem commutes_planOfInput {r : Renaming} {table table' : Locals} (fits : Fits r table table')
    (fuel : Nat) (input : Input) :
    Commutes r table table' id ((planOfInput input).run (Task.tasksAt fuel))
      ((planOfInput (renameInput r input)).run (Task.tasksAt fuel)) := by
  cases input with
  | statements program =>
    simp only [planOfInput, renameInput, Plan.run_bind, run_planOfProgram]
    exact (commutes_runStatements fits fuel program).bind fun _ => .pure rfl
  | expression e =>
    simp only [planOfInput, renameInput, Plan.run_bind, Task.sub_evaluate]
    refine ((natural fits fuel).evaluate e).bind fun v => ?_
    exact .pure (by simp)

theorem left_renameEnd {α β : Type} {r : Renaming} {table : Locals} (act : α → β)
    (ended : EStateM.Result Stop Machine.State α) :
    left (renameEnd r table act ended) = (left ended).rename r table := by
  cases ended <;> rfl

namespace Unseen

variable {inputs : List Input} {s : Session}

/-- A run of an accepted input brings no later identity into the machine. -/
theorem run (unseen : Unseen s.nextId s.machine) (steady : Steady inputs s) {last : NodeId}
    {input : Accepted Input} (accepts : Accepts s.nextId last input) (fuel : Nat) :
    Unseen last (left ((planOfInput input.tree).run (Task.tasksAt fuel)
      (enter s.machine input.locals))) := by
  intro node skips
  have unknown (id : NodeId) (late : last ≤ id) :
      (enter s.machine input.locals).locals.depth? id = none := by
    show (s.machine.locals.merge input.locals).depth? id = none
    rw [Locals.depth?_merge, accepts.unknown (.inr late),
      steady.unknown id (Nat.le_trans accepts.ordered late)]
    rfl
  have suits : Suits (enter s.machine input.locals).locals (enter s.machine input.locals) :=
    ⟨rfl, steady.healthy.hosts⟩
  -- the machine holds no identity that is moved, so renaming leaves it as it is
  have before : (enter s.machine input.locals).rename (.ofNodes node)
      (enter s.machine input.locals).locals = enter s.machine input.locals :=
    unseen.rename (skips.mono accepts.ordered) _
  have commutes := commutes_planOfInput (fits_of_skips skips unknown) fuel input.tree
  rw [renameInput_of_skips accepts.new skips] at commutes
  obtain ⟨suits', same⟩ := commutes _ suits
  rw [before] at same
  rw [suits'.locals, ← left_renameEnd id, ← same]

theorem take (unseen : Unseen s.nextId s.machine) (steady : Steady inputs s) (step : Step) :
    Unseen (step.take s).2.nextId (step.take s).2.machine := by
  have accepts := step.check_accepts s.nextId
  cases h : (step.check s.nextId).1 with
  | error rejection =>
    rw [Step.take_rejected h]
    exact fun node skips => unseen node (skips.mono accepts.1)
  | ok input =>
    obtain ⟨r, rfl, taken⟩ := Step.take_accepted h
    rw [taken]
    exact unseen.run steady (accepts.2 input h) step.fuel

theorem after (unseen : Unseen s.nextId s.machine) (steady : Steady inputs s)
    (steps : List Step) : Unseen (s.after steps).nextId (s.after steps).machine := by
  induction steps generalizing s inputs with
  | nil => exact unseen
  | cons step rest ih => exact ih (unseen.take steady step) (steady.take step)

end Unseen

/-- Between two texts a machine knows no identity that is still to be drawn. -/
theorem unseen_after (readings : Nat → Float) (sink : Sink) (steps : List Step) :
    Unseen ((start readings sink).after steps).nextId ((start readings sink).after steps).machine :=
  (unseen_start readings sink).after (steady_start readings sink) steps

/-! ## Tables that are taken in early -/

/-- A program runs the same if the table of a later one is there already. -/
theorem run_early {inputs : List Input} {s : Session} (steady : Steady inputs s)
    (unseen : Unseen s.nextId s.machine) {mid last : NodeId} {program : Program}
    {locals later : Locals} (accepts : Accepts s.nextId mid ⟨.statements program, locals⟩)
    (between : ∀ id, id < mid ∨ last ≤ id → later.depth? id = none) {fuel : Nat}
    {m : Machine.State} (ran : runStatements fuel program (enter s.machine locals) = .ok () m) :
    runStatements fuel program (enter s.machine (locals.merge later)) = .ok () (enter m later) := by
  -- what comes after the program is moved behind the identities of the later one
  let node : NodeId → NodeId := fun id => if id < mid then id else id + last
  have skips : Skips mid node := by
    refine ⟨fun id early => if_pos early, fun id late => ?_⟩
    rw [show node id = id + last from if_neg (Nat.not_lt.mpr late)]
    exact Nat.le_trans late (Nat.le_add_right ..)
  let table := (enter s.machine locals).locals
  let table' := (enter s.machine (locals.merge later)).locals
  have fits : Fits (.ofNodes node) table table' := by
    intro id
    show (s.machine.locals.merge (locals.merge later)).depth? (node id) =
      (s.machine.locals.merge locals).depth? id
    simp only [Locals.depth?_merge, node]
    split
    · next early => rw [between id (.inl early), Option.none_or]
    · next late =>
      have late : mid ≤ id := Nat.le_of_not_lt late
      rw [between (id + last) (.inr (Nat.le_add_left ..)), accepts.unknown (.inr late),
        accepts.unknown (.inr (Nat.le_trans late (Nat.le_add_right ..))),
        steady.unknown id (Nat.le_trans accepts.ordered late),
        steady.unknown _ (Nat.le_trans accepts.ordered (Nat.le_trans late (Nat.le_add_right ..)))]
      rfl
  have suits : Suits table (enter s.machine locals) := ⟨rfl, steady.healthy.hosts⟩
  obtain ⟨suits', same⟩ := commutes_runStatements fits fuel program _ suits
  have code : Stmt.renameAll (.ofNodes node) program = program :=
    Input.statements.inj (renameInput_of_skips accepts.new skips)
  have before : (enter s.machine locals).rename (.ofNodes node) table' =
      enter s.machine (locals.merge later) :=
    unseen.rename (skips.mono accepts.ordered) table'
  have after : Unseen mid m := by
    have known := unseen.run steady accepts fuel
    have plan : (planOfInput (.statements program)).run (Task.tasksAt fuel) =
        runStatements fuel program >>= fun _ => pure none := by
      simp only [planOfInput, Plan.run_bind, run_planOfProgram]
      rfl
    simp only [plan, bind, EStateM.bind, ran] at known
    exact known
  rw [ran] at suits' same
  rw [code, before] at same
  rw [same]
  refine congrArg (EStateM.Result.ok ()) ((after.rename skips table').trans ?_)
  have joined : table' = m.locals.merge later := by
    rw [show m.locals = table from suits'.locals]
    exact Locals.ext fun id => by simp [table, table', enter, Locals.depth?_merge, Option.or_assoc]
  rw [joined]
  rfl

end ClassScript.Session
