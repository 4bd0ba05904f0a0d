import ClassScript.Proofs.Session.Checks
import ClassScript.Proofs.Session.Unseen

/-!
# Texts that are accepted anywhere

Whether a session accepts a text does not depend on what it was handed before. The
identities that were drawn until then decide with which identity the tree begins, and
nothing else (`Step.check_anywhere`). So an accepted text has one tree, with identities
from 0 on, and what a session runs is this tree moved up.
-/

namespace ClassScript.Session

open Source Syntax Parsing Binding

/-- Identities that begin further up. -/
def moveUp (start : NodeId) : Renaming := .ofNodes (· + start)

/-- What tokens must be a tree of, to be read as the input. -/
def phraseOf : Input → Phrase
  | .statements program => .declarations program
  | .expression e => .assignment e

theorem phraseOf_renameInput (r : Renaming) (input : Input) :
    phraseOf (renameInput r input) = (phraseOf input).rename r := by
  cases input <;> rfl

theorem renameInput_renameInput (r s : Renaming) (input : Input) :
    renameInput r (renameInput s input) = renameInput (r.comp s) input := by
  cases input with
  | statements program => exact congrArg Input.statements (Stmt.renameAll_renameAll r s program)
  | expression e => exact congrArg Input.expression (e.rename_rename r s)

/-- The names in an input are accepted with other identities too. -/
theorem resolveInput_rename (r : Renaming) {input : Input} {locals : Locals}
    (resolved : resolveInput input = .ok locals) :
    ∃ locals', resolveInput (renameInput r input) = .ok locals' := by
  cases input with
  | statements program =>
    obtain ⟨locals', resolved', -⟩ := ofProgram_rename r resolved
    exact ⟨locals', resolved'⟩
  | expression e => exact ofExpression_rename r resolved

/-- The tokens are the input, with identities from the first on and before the last, and
its names are accepted. -/
structure Forms (found : Tokens) (first : NodeId) (input : Input) (last : NodeId) : Prop where
  tree : Tree first found.list (phraseOf input) last
  resolved : ∃ locals, resolveInput input = .ok locals

/-- The input with identities from 0 on, which begins with the given one. -/
def settle (first : NodeId) (input : Input) : Input :=
  renameInput (.ofNodes fun id => id - first + 0) input

theorem Forms.settle {found : Tokens} {first last : NodeId} {input : Input}
    (forms : Forms found first input last) :
    Forms found 0 (settle first input) (last - first + 0) := by
  obtain ⟨locals, resolved⟩ := forms.resolved
  refine ⟨?_, resolveInput_rename _ resolved⟩
  rw [Session.settle, phraseOf_renameInput]
  exact forms.tree.move 0

/-- Tokens are the same input with identities from any number on. -/
theorem Forms.moveUp {found : Tokens} {size : NodeId} {input : Input}
    (forms : Forms found 0 input size) (start : NodeId) :
    Forms found start (renameInput (moveUp start) input) (size + start) := by
  obtain ⟨locals, resolved⟩ := forms.resolved
  refine ⟨?_, resolveInput_rename _ resolved⟩
  rw [phraseOf_renameInput]
  exact forms.tree.move start

/-- The way to hand over a text that is known to be the input. -/
def entryOf : Input → Entry
  | .statements _ => .run
  | .expression _ => .evaluate

theorem entryOf_renameInput (r : Renaming) (input : Input) :
    entryOf (renameInput r input) = entryOf input := by
  cases input <;> rfl

section Texts

variable {text : String} {found : Tokens} {first last : NodeId} {input : Input}

/-- The text is accepted as what its tokens are. -/
theorem Forms.check (forms : Forms found first input last) (scanned : tokens text = .ok found)
    (fuel : Nat) : ∃ locals,
      (⟨entryOf input, text, fuel⟩ : Step).check first = (.ok ⟨input, locals⟩, last) := by
  obtain ⟨tree, locals, resolved⟩ := forms
  cases input with
  | statements program =>
    have accepted : checkProgram text first = (.ok ⟨program, locals⟩, last) :=
      checkProgram_iff.mpr ⟨found, scanned, tree, resolved⟩
    exact ⟨locals, congrArg (Checked.map Input.statements) accepted⟩
  | expression e =>
    have accepted : checkExpression text first = (.ok ⟨e, locals⟩, last) :=
      checkExpression_iff.mpr ⟨found, scanned, tree, resolved⟩
    exact ⟨locals, congrArg (Checked.map Input.expression) accepted⟩

/-- The text is accepted as an interactive line, if it is not an expression where it
should be a program. The attempt at an expression then draws identities before it. -/
theorem Forms.check_line {settled : Input} {size : NodeId} (forms : Forms found 0 settled size)
    (scanned : tokens text = .ok found)
    (other : entryOf settled = .run →
      ∀ e n last, ¬ Tree n found.list (.assignment e) last) (n : NodeId) :
    ∃ first locals, n ≤ first ∧
      checkInput text n =
        (.ok ⟨renameInput (Session.moveUp first) settled, locals⟩, size + first) := by
  cases settled with
  | expression e =>
    obtain ⟨tree, locals, resolved⟩ := forms.moveUp n
    have accepted := checkExpression_iff.mpr ⟨found, scanned, tree, resolved⟩
    exact ⟨n, locals, Nat.le_refl n, checkInput_expression accepted⟩
  -- the line is first tried as an expression, which fails and draws some identities
  | statements program =>
    have drawn := singleExpression_new (named_of_tokens scanned) n
    cases attempt : singleExpression found n with
    | mk read first =>
      rw [attempt] at drawn
      cases read with
      | ok e => exact absurd (singleExpression_iff.mp attempt) (other rfl e n first)
      | error errors =>
        obtain ⟨tree, locals, resolved⟩ := forms.moveUp first
        have read := (input_iff_of_error attempt).mpr ⟨_, rfl, tree⟩
        exact ⟨first, locals, drawn, check_iff.mpr ⟨found, scanned, read, resolved⟩⟩

end Texts

/-- What was accepted is a tree of the text's tokens. A line that was accepted as a
program is no expression. -/
theorem Step.forms {step : Step} {n : NodeId} {input : Accepted Input}
    (accepted : (step.check n).1 = .ok input) :
    ∃ found first last, tokens step.text = .ok found ∧ Forms found first input.tree last ∧
      (step.entry = entryOf input.tree ∨ step.entry = .line ∧
        (entryOf input.tree = .run → ∀ e n last, ¬ Tree n found.list (.assignment e) last)) := by
  obtain ⟨entry, text, fuel⟩ := step
  cases entry with
  | run =>
    obtain ⟨⟨program, locals⟩, read, rfl⟩ := Checked.of_map accepted
    obtain ⟨found, scanned, tree, resolved⟩ := checkProgram_iff.mp (Prod.ext read rfl)
    exact ⟨found, n, _, scanned, ⟨tree, locals, resolved⟩, .inl rfl⟩
  | evaluate =>
    obtain ⟨⟨e, locals⟩, read, rfl⟩ := Checked.of_map accepted
    obtain ⟨found, scanned, tree, resolved⟩ := checkExpression_iff.mp (Prod.ext read rfl)
    exact ⟨found, n, _, scanned, ⟨tree, locals, resolved⟩, .inl rfl⟩
  | line =>
    obtain ⟨tree, locals⟩ := input
    have checked : checkInput text n = (.ok ⟨tree, locals⟩, (checkInput text n).2) :=
      Prod.ext accepted rfl
    obtain ⟨found, scanned, read, resolved⟩ := check_iff.mp checked
    cases attempt : singleExpression found n with
    | mk result first =>
      cases result with
      | ok e =>
        rw [input_of_singleExpression attempt] at read
        obtain rfl := Except.ok.inj (Prod.mk.inj read).1
        exact ⟨found, n, _, scanned, ⟨singleExpression_iff.mp attempt, locals, resolved⟩,
          .inr ⟨rfl, nofun⟩⟩
      | error errors =>
        obtain ⟨program, rfl, declarations⟩ := (input_iff_of_error attempt).mp read
        refine ⟨found, first, _, scanned, ⟨declarations, locals, resolved⟩, .inr ⟨rfl, ?_⟩⟩
        -- an expression would have been read as one from here on, too
        intro _ e m last tree
        rw [singleExpression_iff.mpr (tree.move n)] at attempt
        cases attempt

/-- The tree of an accepted text, and the same text handed over plainly: as a program, or
for the value of an expression. Plainly it begins with the next identity; otherwise it may
skip some. -/
theorem Step.check_anywhere {step : Step} {n : NodeId} {input : Accepted Input}
    (accepted : (step.check n).1 = .ok input) :
    ∃ (plain : Step) (tree : Input) (size : Nat), plain.fuel = step.fuel ∧
      (∀ n, ∃ locals, plain.check n =
        (.ok ⟨renameInput (moveUp n) tree, locals⟩, size + n)) ∧
      ∀ n, ∃ first locals, n ≤ first ∧ step.check n =
        (.ok ⟨renameInput (moveUp first) tree, locals⟩, size + first) := by
  obtain ⟨found, first, last, scanned, forms, entered⟩ := step.forms accepted
  obtain ⟨entry, text, fuel⟩ := step
  let tree := settle first input.tree
  have kind : entryOf tree = entryOf input.tree := entryOf_renameInput ..
  -- the step that enters the tree directly draws the same number wherever it starts
  have plainly (n : NodeId) : ∃ locals, (⟨entryOf tree, text, fuel⟩ : Step).check n =
      (.ok ⟨renameInput (moveUp n) tree, locals⟩, last - first + 0 + n) := by
    rw [← entryOf_renameInput (moveUp n) tree]
    exact (forms.settle.moveUp n).check scanned fuel
  refine ⟨⟨entryOf tree, text, fuel⟩, tree, last - first + 0, rfl, plainly, fun n => ?_⟩
  rcases entered with rfl | ⟨rfl, other⟩
  · obtain ⟨locals, checked⟩ := plainly n
    rw [kind] at checked
    exact ⟨n, locals, Nat.le_refl n, checked⟩
  · rw [← kind] at other
    exact forms.settle.check_line scanned other n

end ClassScript.Session
