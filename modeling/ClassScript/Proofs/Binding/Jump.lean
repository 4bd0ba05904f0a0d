import ClassScript.Proofs.Binding.Visit
import ClassScript.Proofs.Syntax.Exit

/-!
# Jumps that resolution lets pass

A jump leads out of a statement of an accepted program only where the context of the
statement allows it: `break` and `continue` inside a loop, `return` inside a function
(`allowed`), and a context has a function only inside a declaration
(`Reaches.inside_function`).
-/

namespace ClassScript.Binding

open Syntax Walk

/-- A jump may lead out of a statement with this context. -/
def Context.Allows (context : Context) : Exit → Prop
  | .break | .continue => context.inLoop = true
  | .return => context.function ≠ .none

/-- Each of some statements in a row that are accepted is accepted by itself. -/
theorem statements_accepted {context : Context} {s : Stmt} {ss : List Stmt} {w : Walk}
    (part : s ∈ ss) (none : (w.statements context ss).errors = []) :
    ∃ w' : Walk, (w'.statement context s).errors = [] := by
  induction ss generalizing w with
  | nil => simp at part
  | cons first rest ih =>
    rw [statements] at none
    rcases List.mem_cons.mp part with rfl | part
    · exact ⟨w, (notes_statements context rest _).accepted none⟩
    · exact ih part none

/-- A jump leads out of an accepted statement only where its context allows it. -/
theorem allowed {s : Stmt} {exit : Exit} (escapes : s.Escapes exit) {context : Context}
    {w : Walk} (none : (w.statement context s).errors = []) : context.Allows exit := by
  induction escapes generalizing context w with
  | «break» line => exact require_accepted none
  | «continue» line => exact require_accepted none
  | «return» line value =>
    have inFunction : (context.function != .none) = true := by
      cases value with
      | none => exact require_accepted none
      | some e =>
        exact require_accepted ((notes_require ..).accepted
          ((notes_expression context e _).accepted none))
    simpa [Context.Allows] using inFunction
  | block part inner ih =>
    obtain ⟨w', accepted⟩ := statements_accepted part (w := w.enter) none
    exact ih accepted
  | @yes _ condition yes no inner ih =>
    cases no with
    | none => exact ih none
    | some no => exact ih ((notes_statement context no _).accepted none)
  | no inner ih => exact ih none
  | @loop condition body increment inner ih =>
    -- being in a loop changes nothing for a `return`
    exact @ih { context with inLoop := true } _
      ((notes_expression? _ context increment).accepted none)

/-- The only jump that leads out of a row of accepted statements outside of a loop is
a `return`. -/
theorem return_of_escapes {context : Context} {ss : List Stmt} {w : Walk}
    (none : (w.statements context ss).errors = []) (outside : context.inLoop = false)
    {s : Stmt} (part : s ∈ ss) {exit : Exit} (escapes : s.Escapes exit) : exit = .return := by
  obtain ⟨w', accepted⟩ := statements_accepted part none
  have allows := allowed escapes accepted
  cases exit with
  | «return» => rfl
  | «break» => exact absurd (outside.symm.trans allows) (by decide)
  | «continue» => exact absurd (outside.symm.trans allows) (by decide)

/-- A function is visited in a context of its own, outside of all loops. -/
theorem Child.of_function {v c : Visit} (h : Child v c) {d : FunctionDecl}
    (function : c.node = .function d) :
    c.context.function ≠ .none ∧ c.context.inLoop = false := by
  cases h with
  | functionStmt => exact ⟨nofun, rfl⟩
  | @methodsHead d =>
    refine ⟨?_, rfl⟩
    show methodContext d ≠ .none
    unfold methodContext
    split <;> nofun
  | _ => cases function

/-- A declaration is visited as the inside of a function, where no loop is around. -/
theorem Reaches.of_function {input : Parsing.Input} {v : Visit}
    (h : Reaches (.ofInput input) v) {d : FunctionDecl} (function : v.node = .function d) :
    v.context.function ≠ .none ∧ v.context.inLoop = false := by
  cases h with
  | refl => cases input <;> cases function
  | child _ step => exact step.of_function function

/-- Only a function changes which function is around. -/
theorem Child.function_context {v c : Visit} (h : Child v c) :
    (∃ d, c.node = .function d) ∨ c.context.function = v.context.function := by
  cases h with
  | functionStmt => exact .inl ⟨_, rfl⟩
  | methodsHead => exact .inl ⟨_, rfl⟩
  | _ => exact .inr rfl

/-- What has a function around it, in a program that has none, lies inside a
declaration of the program. -/
theorem Reaches.inside_function {input : Parsing.Input} {v : Visit}
    (h : Reaches (.ofInput input) v) (inside : v.context.function ≠ .none) :
    ∃ f d, Reaches (.ofInput input) f ∧ f.node = .function d ∧ Reaches f v := by
  induction h with
  | refl => cases input <;> exact absurd rfl inside
  | @child v c before step ih =>
    rcases step.function_context with ⟨d, function⟩ | same
    · exact ⟨c, d, .child before step, function, .refl⟩
    · obtain ⟨f, d, reached, function, within⟩ := ih (same ▸ inside)
      exact ⟨f, d, reached, function, .child within step⟩

end ClassScript.Binding
