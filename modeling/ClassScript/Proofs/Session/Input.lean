import ClassScript.Proofs.Machine.Soundness
import ClassScript.Proofs.Parsing.Declarations
import ClassScript.Session.Basic

/-!
# Accepted inputs

An input that passes all checks is made of occurrences with new identities, and its
table has the depths that the walk over it noted (`Accepts.sound`). It is run as a
plan whose tasks are its statements, or its single expression (`runInput_eq`); from a
healthy machine on, this plan goes on soundly (`goes_input`).
-/

namespace ClassScript.Session

open Source Syntax Parsing Object Binding Machine

/-! ## The tables of inputs -/

mutual

/-- At top level there are no locals, so an expression there notes nothing. -/
theorem locals_expression_of_top (c : Context) (e : Expr) (w : Walk) (top : w.scopes = []) :
    (w.expression c e).locals = w.locals := by
  -- outside of every scope there is no depth to note
  have note (w : Walk) (top : w.scopes = []) (id : NodeId) (text : String) :
      (w.note id text).locals = w.locals := by
    simp [Walk.note, Walk.depth?, top]
  cases e with
  | literal value => rfl
  | group inner => exact locals_expression_of_top c inner w top
  | unary op line operand => exact locals_expression_of_top c operand w top
  | binary op line left right =>
    rw [Walk.expression, locals_expression_of_top c right _ (by simpa using top),
      locals_expression_of_top c left w top]
  | logical op left right =>
    rw [Walk.expression, locals_expression_of_top c right _ (by simpa using top),
      locals_expression_of_top c left w top]
  | «variable» occurrence =>
    rw [Walk.expression, Walk.read, note _ (by simpa using top), Walk.locals_require]
  | assign target value =>
    rw [Walk.expression, note _ (by simpa using top), locals_expression_of_top c value w top]
  | call callee line arguments =>
    rw [Walk.expression, locals_expressions_of_top c arguments _ (by simpa using top),
      locals_expression_of_top c callee w top]
  | get object name => exact locals_expression_of_top c object w top
  | set object name value =>
    rw [Walk.expression, locals_expression_of_top c object _ (by simpa using top),
      locals_expression_of_top c value w top]
  | this id line =>
    rw [Walk.expression]
    split
    · rfl
    · exact note w top id "this"
  | super id line method =>
    rw [Walk.expression]
    split
    · rw [note _ (by simpa using top), Walk.locals_error]
    · rw [note _ (by simpa using top), Walk.locals_error]
    · exact note w top id "super"

theorem locals_expressions_of_top (c : Context) (es : List Expr) (w : Walk)
    (top : w.scopes = []) : (w.expressions c es).locals = w.locals := by
  cases es with
  | nil => rfl
  | cons e rest =>
    rw [Walk.expressions, locals_expressions_of_top c rest _ (by simpa using top),
      locals_expression_of_top c e w top]

end

/-- The input was read with identities from the first on and before the last, and its
table is the one that resolution made. -/
structure Accepts (first last : Nat) (input : Accepted Input) : Prop where
  new : NewInput first last input.tree
  ordered : first ≤ last
  resolved : resolveInput input.tree = .ok input.locals

namespace Accepts

variable {first last : Nat} {input : Accepted Input} {locals : Locals}

/-- The walk over the input found no error, and its table is the input's. -/
theorem walked (h : Accepts first last input) :
    (Visit.ofInput input.tree).after.errors = [] ∧
      (Visit.ofInput input.tree).after.locals = input.locals := by
  have resolved := h.resolved
  obtain ⟨tree, table⟩ := input
  cases tree with
  | statements program => exact Walk.conclude_iff.mp resolved
  | expression e => exact Walk.conclude_iff.mp resolved

theorem drawn (h : Accepts first last input) :
    Drawn first last (Visit.ofInput input.tree).node.ids := by
  have new := h.new
  obtain ⟨tree, table⟩ := input
  cases tree <;> exact new.2

/-- The table has entries only for occurrences of the input. -/
theorem unknown (h : Accepts first last input) {id : Nat}
    (other : id < first ∨ last ≤ id) : input.locals.depth? id = none := by
  have outside : id ∉ (Visit.ofInput input.tree).node.ids := by
    intro inside
    have := h.drawn.range id inside
    omega
  rw [← h.walked.2, (Visit.notes _).locals id outside]
  cases input.tree <;> exact Locals.depth?_empty id

/-- The table of a single expression is empty. -/
theorem locals_expression {e : Expr} {table : Locals}
    (h : Accepts first last ⟨.expression e, table⟩) : table = .empty := by
  have walked : (Walk.start.expression .top e).locals = table := h.walked.2
  rw [← walked]
  exact locals_expression_of_top .top e .start rfl

/-- The visit of the input is sound for a table that has the entries of the input's
own one. -/
theorem sound (h : Accepts first last input) (agrees : ∀ id, first ≤ id →
    locals.depth? id = input.locals.depth? id) : Sound locals (.ofInput input.tree) where
  plain := by
    have new := h.new
    obtain ⟨tree, table⟩ := input
    cases tree <;> exact new.1
  distinct := h.drawn.distinct
  fresh id _ := by cases input.tree <;> exact Locals.depth?_empty id
  agrees id inside := by
    rw [h.walked.2]
    exact agrees id (h.drawn.range id inside).1
  accepted := h.walked.1
  framed := by cases input.tree <;> trivial
  inOrder := by
    apply InOrder.of_settled
    intro names inside
    cases hi : input.tree <;> rw [hi] at inside <;> cases inside

end Accepts

/-! ## Runs of inputs -/

/-- The statements of a program in order. Each must end normally. -/
def planOfProgram : List Stmt → Plan Unit
  | [] => pure ()
  | s :: rest => do
    match ← Plan.sub (.execute s) with
    | .normal => planOfProgram rest
    | stray => Plan.prim (stop (.internal (.strayCompletion stray)))

def planOfInput : Input → Plan (Option String)
  | .statements program => do
    planOfProgram program
    pure none
  | .expression e => do
    let v ← Plan.sub (.evaluate e)
    pure (some v.display)

/-- The machine with the table of an input taken in. -/
def enter (m : Machine.State) (locals : Locals) : Machine.State :=
  { m with locals := m.locals.merge locals }

theorem run_planOfProgram (fuel : Nat) (program : List Stmt) :
    (planOfProgram program).run (Task.tasksAt fuel) = runStatements fuel program := by
  induction program with
  | nil => rfl
  | cons s rest ih =>
    simp only [planOfProgram, runStatements, Plan.run_bind, Task.sub_execute]
    congr 1
    funext completion
    cases completion <;> simp [ih]

/-- An empty table is taken in for nothing, and given back for nothing. -/
theorem evaluateText_empty (fuel : Nat) (e : Expr) (m : Machine.State) :
    evaluateText fuel e .empty m =
      (Machine.evaluate fuel e >>= fun v => pure v.display) (enter m .empty) := by
  have keep (locals : Locals) : locals.forget .empty = locals :=
    Locals.ext fun id => by simp [Locals.depth?_forget]
  simp only [evaluateText, withLocals, bind, EStateM.bind, enter]
  cases Machine.evaluate fuel e { m with locals := m.locals.merge .empty } with
  | ok v m' => simp only [keep]
  | error e m' => simp only [keep]

/-- An accepted input is run as its plan says, with its table taken in. -/
theorem runInput_eq {first last : Nat} {input : Accepted Input}
    (h : Accepts first last input) (fuel : Nat) (m : Machine.State) :
    runInput fuel input m =
      (planOfInput input.tree).run (Task.tasksAt fuel) (enter m input.locals) := by
  obtain ⟨tree, table⟩ := input
  cases tree with
  | statements program =>
    simp only [runInput, runProgram, planOfInput, Plan.run_bind, run_planOfProgram]
    rfl
  | expression e =>
    -- the table of an expression is empty, so dropping it afterwards changes nothing
    have empty : table = .empty := h.locals_expression
    subst empty
    have plan : (planOfInput (.expression e)).run (Task.tasksAt fuel) =
        Machine.evaluate fuel e >>= fun v => pure (some v.display) := by
      simp only [planOfInput, Plan.run_bind, Task.sub_evaluate]
      rfl
    rw [plan]
    simp only [runInput, bind, EStateM.bind, evaluateText_empty]
    cases Machine.evaluate fuel e (enter m .empty) <;> rfl

/-! ## Sound runs -/

/-- A statement at top level ends normally. -/
theorem normal_of_top {s : Stmt} {w : Walk} (accepted : (w.statement .top s).errors = [])
    {c : Completion} (routed : ∀ exit, c.exit? = some exit → s.Escapes exit) :
    c = .normal := by
  cases c with
  | normal => rfl
  | returned v => exact absurd rfl (allowed (routed .return rfl) accepted)
  | broke => exact absurd (allowed (routed .break rfl) accepted) nofun
  | continued => exact absurd (allowed (routed .continue rfl) accepted) nofun

section Sound

variable {inputs : List Input} {m : Machine.State}

/-- Statements at top level, from their visit on. -/
theorem goes_program {program : List Stmt} {w : Walk} (healthy : Healthy inputs m)
    (seen : Seen inputs ⟨.statements program, .top, w⟩) (outside : w.scopes = [])
    (place : m.current = m.globals) :
    Goes inputs Stop.External (planOfProgram program) m fun _ _ => True := by
  induction program generalizing m w with
  | nil => exact .ret healthy trivial
  | cons s rest ih =>
    have here : At m ⟨.statement s, .top, w⟩ := by
      refine ⟨?_, ?_⟩
      · show Mirrors m.globals m.scopes none w.scopes m.current
        rw [outside, place]
        exact .top
      · show Tight m w.scopes
        rw [outside]
        intro names first
        cases first
    refine Goes.bind (Plan.meets_sub.mpr ⟨⟨healthy, ⟨_, seen.child .statementsHead, rfl, here⟩⟩,
      ?_, fun _ _ stops => stops.1⟩)
    intro completion m₁ ends
    obtain ⟨⟨healthy₁, -⟩, grows, routed⟩ := ends
    have accepted := (healthy.sound _ (seen.child .statementsHead)).accepted
    -- at top level no jump is accepted, so every statement ends normally
    have normal : completion = .normal := normal_of_top accepted (routed completion rfl)
    subst normal
    refine ⟨healthy₁, ih healthy₁ (seen.child .statementsTail) ?_ ?_⟩
    · rw [Walk.scopes_statement, outside]
      exact List.length_eq_zero_iff.mp (declared_length ..)
    · rw [grows.current, grows.globals]
      exact place

/-- An input, on a machine between two inputs. -/
theorem goes_input {input : Input} (healthy : Healthy inputs m) (seen : input ∈ inputs)
    (place : m.current = m.globals) :
    Goes inputs Stop.External (planOfInput input) m fun _ _ => True := by
  have root : Seen inputs (.ofInput input) := ⟨input, seen, .refl⟩
  cases input with
  | statements program =>
    refine .bind ((goes_program healthy root rfl place).imp ?_)
    intro _ m' healthy' _
    exact .ret healthy' trivial
  | expression e =>
    have here : At m (.ofInput (.expression e)) := by
      refine ⟨?_, fun names first => nomatch first⟩
      show Mirrors m.globals m.scopes none [] m.current
      rw [place]
      exact .top
    exact .bind (.sub healthy ⟨_, root, rfl, here⟩ fun _ _ healthy₁ _ _ => .ret healthy₁ trivial)

end Sound

end ClassScript.Session
