import ClassScript.Proofs.Binding.Renamed
import ClassScript.Proofs.Binding.Visit
import ClassScript.Proofs.Parsing.Lined

/-!
# Lines of pieces and of errors

Where every node of a program keeps the line of a token of its own kind, so does every node of
its pieces (`Reaches.lined`). Where other lines leave a program as it is, every error that
resolution finds in it is on a line that stays (`ofProgram_error`).
-/

namespace ClassScript.Binding

open Syntax

/-! ## Pieces -/

/-- Every node of the piece keeps the line of a token of its own kind. -/
def Node.Lined (ts : List Source.Token) : Node → Prop
  | expression e => e.Lined ts
  | expressions es => Expr.AllLined ts es
  | superclass className occurrence =>
    Source.HasName ts className ∧ Source.HasName ts occurrence.name
  | statement s => s.Lined ts
  | statements ss => Stmt.AllLined ts ss
  | function d => d.Lined ts
  | methods ds => FunctionDecl.AllLined ts ds

/-- The parts of a piece keep lines of tokens if the piece does. -/
theorem Child.lined {ts : List Source.Token} {v c : Visit} (h : Child v c)
    (lined : v.node.Lined ts) : c.node.Lined ts := by
  cases h with
  -- the cases are grouped by where the part stands in the conjunction of its node
  | group | expressionStmt | print | block | functionStmt => exact lined
  | logicalLeft | expressionsHead | statementsHead | methodsHead | loopCondition => exact lined.1
  | unary | assign | get | logicalRight | expressionsTail | statementsTail | methodsTail
  | classMethods => exact lined.2
  | binaryLeft | callee | setObject | loopBody => exact lined.2.1
  | binaryRight | arguments | setValue | functionBody | subclassMethods => exact lined.2.2
  | varInitializer | returnValue => exact lined.2 _ rfl
  | loopIncrement => exact lined.2.2 _ rfl
  | classSuperclass => exact ⟨lined.1, lined.2.1⟩
  -- a branch without an else part is a shorter conjunction
  | @branchCondition _ _ no =>
    cases no with
    | none => exact lined.1
    | some _ => exact lined.1
  | @branchYes _ _ no =>
    cases no with
    | none => exact lined.2
    | some _ => exact lined.2.1
  | branchNo => exact lined.2.2

/-- So do all pieces that a walk comes to from there. -/
theorem Reaches.lined {ts : List Source.Token} {root v : Visit} (way : Reaches root v)
    (lined : root.node.Lined ts) : v.node.Lined ts := by
  induction way with
  | refl => exact lined
  | child _ step ih => exact step.lined ih

/-! ## Errors -/

variable {r : Renaming}

/-- A walk that is rejected has errors, and they are the walk's. -/
theorem Walk.conclude_error {w : Walk} {errors : List BindingError}
    (rejected : w.conclude = .error errors) : errors ≠ [] ∧ errors = w.errors := by
  unfold conclude at rejected
  split at rejected
  · cases rejected
  · next other =>
    cases rejected
    exact ⟨other, rfl⟩

/-- Errors that are the same on other lines are on lines that stay. -/
theorem line_of_map_rename {errors : List BindingError}
    (same : errors = errors.map (BindingError.rename r)) :
    ∀ error ∈ errors, r.line error.line = error.line := by
  intro error among
  have each : error.rename r = error :=
    List.map_inj_left.mp (same.symm.trans (List.map_id errors).symm) error among
  exact congrArg BindingError.line each

/-- A program that is the same on other lines is rejected with errors, all of them on lines that
stay. -/
theorem ofProgram_error {program : Program} {errors : List BindingError}
    (keeps : Stmt.renameAll r program = program) (rejected : ofProgram program = .error errors) :
    errors ≠ [] ∧ ∀ error ∈ errors, r.line error.line = error.line := by
  obtain ⟨some, rfl⟩ := Walk.conclude_error rejected
  have alike := (Alike.statements .top (.start r .empty) program).errors
  rw [keeps] at alike
  exact ⟨some, line_of_map_rename alike⟩

/-- The same of an expression that is evaluated by itself. -/
theorem ofExpression_error {e : Expr} {errors : List BindingError} (keeps : e.rename r = e)
    (rejected : ofExpression e = .error errors) :
    errors ≠ [] ∧ ∀ error ∈ errors, r.line error.line = error.line := by
  obtain ⟨some, rfl⟩ := Walk.conclude_error rejected
  have alike := (Alike.expression .top (.start r .empty) e).errors
  rw [keeps] at alike
  exact ⟨some, line_of_map_rename alike⟩

end ClassScript.Binding
