import ClassScript.Proofs.Binding.Walk
import ClassScript.Proofs.Syntax.Rename

/-!
# Walks over renamed trees

A walk over a renamed tree finds the same errors on other lines, and notes the same
depths for other identities (`Alike`). It may have begun with a table of earlier depths,
which then stay where nothing is noted anew. Hence resolution of a program accepts what
it accepts under every renaming, and a program behind another one is resolved as if it
stood alone.
-/

namespace ClassScript.Binding

open Syntax

def BindingError.rename (r : Renaming) (e : BindingError) : BindingError :=
  { e with line := r.line e.line }

theorem methodContext_rename (r : Renaming) (d : FunctionDecl) :
    methodContext (d.rename r) = methodContext d := by
  simp [methodContext]

/-- Two walks in progress, where the second one goes over a renamed tree and began with a
table of earlier depths. Depths can be told apart only if identities stay apart. -/
structure Alike (r : Renaming) (earlier : Locals) (w w' : Walk) : Prop where
  scopes : w'.scopes = w.scopes
  errors : w'.errors = w.errors.map (BindingError.rename r)
  locals : (∀ a b, r.node a = r.node b → a = b) → ∀ id,
    w'.locals.depth? (r.node id) = (w.locals.depth? id).or (earlier.depth? (r.node id))

namespace Alike

open Walk

variable {r : Renaming} {earlier : Locals} {w w' : Walk}

/-- Walks that begin. -/
theorem start (r : Renaming) (earlier : Locals) : Alike r earlier .start ⟨[], earlier, []⟩ :=
  ⟨rfl, rfl, fun _ id => by simp [Walk.start]⟩

/-- An error is noted in both walks, in each on its own line. -/
theorem error (h : Alike r earlier w w') (line : Nat) (lexeme : String) (cause : BindingCause) :
    Alike r earlier (w.error line lexeme cause) (w'.error (r.line line) lexeme cause) :=
  ⟨h.scopes, by simp [Walk.error, h.errors, BindingError.rename], h.locals⟩

/-- A requirement that holds in both or in neither is the same error in both. -/
theorem require (h : Alike r earlier w w') {holds holds' : Bool} (same : holds = holds')
    (line : Nat) (lexeme : String) (cause : BindingCause) :
    Alike r earlier (w.require holds line lexeme cause)
      (w'.require holds' (r.line line) lexeme cause) := by
  subst same
  cases holds with
  | true => exact h
  | false => exact h.error line lexeme cause

theorem enter (h : Alike r earlier w w') : Alike r earlier w.enter w'.enter :=
  ⟨congrArg (∅ :: ·) h.scopes, h.errors, h.locals⟩

theorem leave (h : Alike r earlier w w') : Alike r earlier w.leave w'.leave :=
  ⟨congrArg List.tail h.scopes, h.errors, h.locals⟩

/-- To mark a name is the same in both walks. -/
theorem mark (h : Alike r earlier w w') (text : String) (isDefined : Bool) :
    Alike r earlier (w.mark text isDefined) (w'.mark text isDefined) where
  scopes := by rw [scopes_mark, scopes_mark, h.scopes]
  errors := by rw [errors_mark, errors_mark, h.errors]
  locals := by rw [locals_mark, locals_mark]; exact h.locals

theorem declare (h : Alike r earlier w w') (name : Name) :
    Alike r earlier (w.declare name) (w'.declare (name.rename r)) :=
  (h.mark name.text false).require (by rw [innermost?, innermost?, h.scopes]; rfl) ..

theorem define (h : Alike r earlier w w') (text : String) :
    Alike r earlier (w.define text) (w'.define text) :=
  h.mark text true

theorem declareDefined (h : Alike r earlier w w') (name : Name) :
    Alike r earlier (w.declareDefined name) (w'.declareDefined (name.rename r)) :=
  (h.declare name).define name.text

theorem parameters (h : Alike r earlier w w') (names : List Name) :
    Alike r earlier (names.foldl Walk.declareDefined w)
      ((names.map (Name.rename r)).foldl Walk.declareDefined w') := by
  induction names generalizing w w' with
  | nil => exact h
  | cons name rest ih => exact ih (h.declareDefined name)

/-- The depth of an occurrence is noted in both, under its own identity in each. -/
theorem note (h : Alike r earlier w w') (id : NodeId) (text : String) :
    Alike r earlier (w.note id text) (w'.note (r.node id) text) := by
  have same : w'.depth? text = w.depth? text := by rw [depth?, depth?, h.scopes]
  unfold Walk.note
  rw [same]
  cases w.depth? text with
  | none => exact h
  | some depth =>
    refine ⟨h.scopes, h.errors, fun apart other => ?_⟩
    simp only [Locals.depth?_insert]
    by_cases here : id = other
    · subst here
      simp
    · rw [if_neg here, if_neg fun same => here (apart _ _ same), h.locals apart]

theorem read (h : Alike r earlier w w') (o : Occurrence) :
    Alike r earlier (w.read o) (w'.read (o.rename r)) :=
  (h.require (by rw [innermost?, innermost?, h.scopes]; rfl) ..).note o.id o.name.text

mutual

/-- Two walks that are alike go on alike through an expression and its renaming. -/
theorem expression {w w' : Walk} (c : Context) (h : Alike r earlier w w') (e : Expr) :
    Alike r earlier (w.expression c e) (w'.expression c (e.rename r)) := by
  cases e with
  | literal value => exact h
  | group inner => exact expression c h inner
  | unary op line operand => exact expression c h operand
  | binary op line left right => exact expression c (expression c h left) right
  | logical op left right => exact expression c (expression c h left) right
  | «variable» o => exact h.read o
  | assign target value => exact (expression c h value).note target.id target.name.text
  | call callee line arguments => exact expressions c (expression c h callee) arguments
  | get object name => exact expression c h object
  | set object name value => exact expression c (expression c h value) object
  -- whether this and super are allowed depends on the context, which is the same for both walks
  | this id line =>
    simp only [Walk.expression, Expr.rename]
    split
    · exact h.error line "this" _
    · exact h.note id "this"
  | super id line method =>
    simp only [Walk.expression, Expr.rename]
    split
    · exact (h.error line "super" _).note id "super"
    · exact (h.error line "super" _).note id "super"
    · exact h.note id "super"

theorem expressions {w w' : Walk} (c : Context) (h : Alike r earlier w w') (es : List Expr) :
    Alike r earlier (w.expressions c es) (w'.expressions c (Expr.renameAll r es)) := by
  cases es with
  | nil => exact h
  | cons e rest => exact expressions c (expression c h e) rest

end

theorem expression? {w w' : Walk} (c : Context) (h : Alike r earlier w w') (e : Option Expr) :
    Alike r earlier (w.expression? c e) (w'.expression? c (e.map (Expr.rename r))) := by
  cases e with
  | none => exact h
  | some e => exact expression c h e

/-- A superclass is looked up alike, and rejected alike if it is the class itself. -/
theorem superclass (h : Alike r earlier w w') (name : Name) (o : Occurrence) :
    Alike r earlier (w.superclass name o) (w'.superclass (name.rename r) (o.rename r)) :=
  (((h.require rfl o.name.line o.name.text .inheritsItself).read o).enter).define "super"

mutual

/-- Two walks that are alike go on alike through a statement and its renaming. -/
theorem statement {w w' : Walk} (c : Context) (h : Alike r earlier w w') (s : Stmt) :
    Alike r earlier (w.statement c s) (w'.statement c (s.rename r)) := by
  cases s with
  | expression e => exact expression c h e
  | print e => exact expression c h e
  | var name initializer => exact ((h.declare name).expression? c initializer).define name.text
  | block body => exact (statements c h.enter body).leave
  | branch condition yes no =>
    cases no with
    | none => exact statement c (expression c h condition) yes
    | some no => exact statement c (statement c (expression c h condition) yes) no
  | loop condition body increment =>
    exact (statement _ (expression c h condition) body).expression? c increment
  | function declaration =>
    simp only [Walk.statement, Stmt.rename, FunctionDecl.rename_name]
    exact function _ (h.declareDefined declaration.name) declaration
  -- a return and the jumps only ask for their context
  | «return» line value =>
    cases value with
    | none => exact h.require rfl ..
    | some value => exact ((h.require rfl ..).require rfl ..).expression c value
  | «break» line => exact h.require rfl ..
  | «continue» line => exact h.require rfl ..
  | classDecl name parent ds =>
    cases parent with
    | none => exact (methods _ ((h.declareDefined name).enter.define "this") ds).leave
    | some parent =>
      have opened := (h.declareDefined name).superclass name parent
      exact (methods _ (opened.enter.define "this") ds).leave.leave

theorem statements {w w' : Walk} (c : Context) (h : Alike r earlier w w') (ss : List Stmt) :
    Alike r earlier (w.statements c ss) (w'.statements c (Stmt.renameAll r ss)) := by
  cases ss with
  | nil => exact h
  | cons s rest => exact statements c (statement c h s) rest

theorem function {w w' : Walk} (c : Context) (h : Alike r earlier w w') (d : FunctionDecl) :
    Alike r earlier (w.function c d) (w'.function c (d.rename r)) := by
  obtain ⟨name, parameters, body⟩ := d
  exact (statements c (h.enter.parameters parameters) body).leave

theorem methods {w w' : Walk} (c : Context) (h : Alike r earlier w w') (ds : List FunctionDecl) :
    Alike r earlier (w.methods c ds) (w'.methods c (FunctionDecl.renameAll r ds)) := by
  cases ds with
  | nil => exact h
  | cons d rest =>
    simp only [Walk.methods, FunctionDecl.renameAll, methodContext_rename]
    exact methods c (function _ h d) rest

end

end Alike

/-! ## Resolution of renamed programs -/

/-- A program is accepted with other lines and identities too. Where identities stay
apart, it has the same depths. -/
theorem ofProgram_rename (r : Renaming) {program : Program} {locals : Locals}
    (accepted : ofProgram program = .ok locals) :
    ∃ locals', ofProgram (Stmt.renameAll r program) = .ok locals' ∧
      ((∀ a b, r.node a = r.node b → a = b) →
        ∀ id, locals'.depth? (r.node id) = locals.depth? id) := by
  obtain ⟨none, rfl⟩ := Walk.conclude_iff.mp accepted
  have alike := Alike.statements .top (.start r .empty) program
  refine ⟨_, Walk.conclude_iff.mpr ⟨?_, rfl⟩, fun apart id => ?_⟩
  · exact alike.errors.trans (by rw [none]; rfl)
  · exact (alike.locals apart id).trans (by simp)

/-- An expression that is accepted is accepted with other identities and lines, too. -/
theorem ofExpression_rename (r : Renaming) {e : Expr} {locals : Locals}
    (accepted : ofExpression e = .ok locals) :
    ∃ locals', ofExpression (e.rename r) = .ok locals' := by
  obtain ⟨none, -⟩ := Walk.conclude_iff.mp accepted
  have alike := Alike.expression .top (.start r .empty) e
  exact ⟨_, Walk.conclude_iff.mpr ⟨alike.errors.trans (by rw [none]; rfl), rfl⟩⟩

/-- Other lines change nothing in the table. -/
theorem ofProgram_lines (line : Nat → Nat) {program : Program} {locals : Locals}
    (accepted : ofProgram program = .ok locals) :
    ofProgram (Stmt.renameAll (.ofLines line) program) = .ok locals := by
  obtain ⟨locals', accepted', depths⟩ := ofProgram_rename (.ofLines line) accepted
  rw [accepted', Locals.ext (depths fun _ _ same => same)]

/-- At top level nothing but the table of a program is left for the program behind it. -/
theorem ofProgram_append {first second : Program} {a b : Locals}
    (above : ofProgram first = .ok a) (below : ofProgram second = .ok b) :
    ofProgram (first ++ second) = .ok (a.merge b) := by
  obtain ⟨none, table⟩ := Walk.conclude_iff.mp above
  obtain ⟨none', table'⟩ := Walk.conclude_iff.mp below
  -- after the first program the walk is back outside of every scope, with its table and no error
  have between : Walk.start.statements .top first = ⟨[], a, []⟩ := by
    have scopes := Walk.scopes_statements .top first .start
    have outside : (Walk.start.statements .top first).scopes = [] :=
      List.length_eq_zero_iff.mp (by rw [scopes, declared_length]; rfl)
    generalize Walk.start.statements .top first = w at none table outside
    cases w
    simp_all
  -- the second walk from there differs from one from the start in the earlier entries only
  have alike := Alike.statements .top (.start .same a) second
  rw [Stmt.renameAll_same] at alike
  rw [ofProgram, Walk.statements_append, between, Walk.conclude_iff]
  refine ⟨by rw [alike.errors, none']; rfl, Locals.ext fun id => ?_⟩
  rw [Locals.depth?_merge, ← table']
  exact alike.locals (fun _ _ same => same) id

end ClassScript.Binding
