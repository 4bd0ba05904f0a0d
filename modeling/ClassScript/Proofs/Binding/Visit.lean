import ClassScript.Parsing.Reader
import ClassScript.Proofs.Binding.Walk

/-!
# The visits of a walk

A visit is a piece of a program together with the context and the walk with which
resolution came to it. `Child` says which visits a visit makes, one constructor for
every recursion of the walk, and `Reaches` which ones it makes in all. A sound visit
found no error and its occurrences have in the table the depths that it noted; all
visits that it makes are sound too (`Sound.reaches`).
-/

namespace ClassScript.Binding

open Syntax Walk

/-- A piece of a program that a walk comes to. -/
inductive Node where
  | expression (e : Expr)
  | expressions (es : List Expr)
  /-- The superclass of a class of the given name. -/
  | superclass (className : Name) (occurrence : Occurrence)
  | statement (s : Stmt)
  | statements (ss : List Stmt)
  | function (d : FunctionDecl)
  | methods (ds : List FunctionDecl)

namespace Node

/-- The identities of the occurrences in a piece. -/
def ids : Node → List NodeId
  | expression e => e.ids
  | expressions es => Expr.idsOfAll es
  | superclass _ occurrence => [occurrence.id]
  | statement s => s.ids
  | statements ss => Stmt.idsOfAll ss
  | function d => d.ids
  | methods ds => FunctionDecl.idsOfAll ds

def Plain : Node → Prop
  | expression e => e.Plain
  | expressions es => Expr.AllPlain es
  | superclass _ occurrence => occurrence.name.text ∉ reserved
  | statement s => s.Plain
  | statements ss => Stmt.AllPlain ss
  | function d => d.Plain
  | methods ds => FunctionDecl.AllPlain ds

/-- The name that is defined for the walk and not yet bound by a run: that of a class
whose superclass is looked up. -/
def pending : Node → Option String
  | superclass className _ => some className.text
  | _ => none

/-- The piece is an expression or a row of them. -/
def IsExpression : Node → Prop
  | expression _ | expressions _ => True
  | _ => False

end Node

structure Visit where
  node : Node
  context : Context
  walk : Walk

/-- The visit of a whole input. -/
def Visit.ofInput : Parsing.Input → Visit
  | .statements program => ⟨.statements program, .top, .start⟩
  | .expression e => ⟨.expression e, .top, .start⟩

/-- The walk behind the piece. -/
def Visit.after (v : Visit) : Walk :=
  match v.node with
  | .expression e => v.walk.expression v.context e
  | .expressions es => v.walk.expressions v.context es
  | .superclass name occurrence => v.walk.superclass name occurrence
  | .statement s => v.walk.statement v.context s
  | .statements ss => v.walk.statements v.context ss
  | .function d => v.walk.function v.context d
  | .methods ds => v.walk.methods v.context ds

/-- The visits that a visit makes itself. -/
inductive Child : Visit → Visit → Prop
  | group {e c w} : Child ⟨.expression (.group e), c, w⟩ ⟨.expression e, c, w⟩
  | unary {op line e c w} :
      Child ⟨.expression (.unary op line e), c, w⟩ ⟨.expression e, c, w⟩
  | binaryLeft {op line a b c w} :
      Child ⟨.expression (.binary op line a b), c, w⟩ ⟨.expression a, c, w⟩
  | binaryRight {op line a b c w} :
      Child ⟨.expression (.binary op line a b), c, w⟩
        ⟨.expression b, c, w.expression c a⟩
  | logicalLeft {op a b c w} :
      Child ⟨.expression (.logical op a b), c, w⟩ ⟨.expression a, c, w⟩
  | logicalRight {op a b c w} :
      Child ⟨.expression (.logical op a b), c, w⟩ ⟨.expression b, c, w.expression c a⟩
  | assign {target e c w} :
      Child ⟨.expression (.assign target e), c, w⟩ ⟨.expression e, c, w⟩
  | callee {e line es c w} :
      Child ⟨.expression (.call e line es), c, w⟩ ⟨.expression e, c, w⟩
  | arguments {e line es c w} :
      Child ⟨.expression (.call e line es), c, w⟩ ⟨.expressions es, c, w.expression c e⟩
  | get {e name c w} : Child ⟨.expression (.get e name), c, w⟩ ⟨.expression e, c, w⟩
  | setValue {o name e c w} :
      Child ⟨.expression (.set o name e), c, w⟩ ⟨.expression e, c, w⟩
  | setObject {o name e c w} :
      Child ⟨.expression (.set o name e), c, w⟩ ⟨.expression o, c, w.expression c e⟩
  | expressionsHead {e es c w} :
      Child ⟨.expressions (e :: es), c, w⟩ ⟨.expression e, c, w⟩
  | expressionsTail {e es c w} :
      Child ⟨.expressions (e :: es), c, w⟩ ⟨.expressions es, c, w.expression c e⟩
  | expressionStmt {e c w} :
      Child ⟨.statement (.expression e), c, w⟩ ⟨.expression e, c, w⟩
  | print {e c w} : Child ⟨.statement (.print e), c, w⟩ ⟨.expression e, c, w⟩
  | varInitializer {name e c w} :
      Child ⟨.statement (.var name (some e)), c, w⟩ ⟨.expression e, c, w.declare name⟩
  | block {body c w} :
      Child ⟨.statement (.block body), c, w⟩ ⟨.statements body, c, w.enter⟩
  | branchCondition {e yes no c w} :
      Child ⟨.statement (.branch e yes no), c, w⟩ ⟨.expression e, c, w⟩
  | branchYes {e yes no c w} :
      Child ⟨.statement (.branch e yes no), c, w⟩ ⟨.statement yes, c, w.expression c e⟩
  | branchNo {e yes no c w} :
      Child ⟨.statement (.branch e yes (some no)), c, w⟩
        ⟨.statement no, c, (w.expression c e).statement c yes⟩
  | loopCondition {e body increment c w} :
      Child ⟨.statement (.loop e body increment), c, w⟩ ⟨.expression e, c, w⟩
  | loopBody {e body increment c w} :
      Child ⟨.statement (.loop e body increment), c, w⟩
        ⟨.statement body, { c with inLoop := true }, w.expression c e⟩
  | loopIncrement {e body increment c w} :
      Child ⟨.statement (.loop e body (some increment)), c, w⟩
        ⟨.expression increment, c,
          (w.expression c e).statement { c with inLoop := true } body⟩
  | functionStmt {d c w} :
      Child ⟨.statement (.function d), c, w⟩
        ⟨.function d, c.inFunction .function, w.declareDefined d.name⟩
  | returnValue {line e c w} :
      Child ⟨.statement (.return line (some e)), c, w⟩
        ⟨.expression e, c,
          (w.require (c.function != .none) line "return" .returnAtTop).require
            (c.function != .initializer) line "return" .returnFromInitializer⟩
  | classMethods {name ds c w} :
      Child ⟨.statement (.classDecl name none ds), c, w⟩
        ⟨.methods ds, { c with enclosing := .plain },
          ((w.declareDefined name).enter).define "this"⟩
  | classSuperclass {name occurrence ds c w} :
      Child ⟨.statement (.classDecl name (some occurrence) ds), c, w⟩
        ⟨.superclass name occurrence, c, w.declareDefined name⟩
  | subclassMethods {name occurrence ds c w} :
      Child ⟨.statement (.classDecl name (some occurrence) ds), c, w⟩
        ⟨.methods ds, { c with enclosing := .derived },
          (((w.declareDefined name).superclass name occurrence).enter).define "this"⟩
  | statementsHead {s ss c w} :
      Child ⟨.statements (s :: ss), c, w⟩ ⟨.statement s, c, w⟩
  | statementsTail {s ss c w} :
      Child ⟨.statements (s :: ss), c, w⟩ ⟨.statements ss, c, w.statement c s⟩
  | functionBody {name parameters body c w} :
      Child ⟨.function ⟨name, parameters, body⟩, c, w⟩
        ⟨.statements body, c, parameters.foldl declareDefined w.enter⟩
  | methodsHead {d ds c w} :
      Child ⟨.methods (d :: ds), c, w⟩
        ⟨.function d, c.inFunction (methodContext d), w⟩
  | methodsTail {d ds c w} :
      Child ⟨.methods (d :: ds), c, w⟩
        ⟨.methods ds, c, w.function (c.inFunction (methodContext d)) d⟩

/-- The visits that a visit makes, and itself. -/
inductive Reaches (root : Visit) : Visit → Prop
  | refl : Reaches root root
  | child {v c} (before : Reaches root v) (step : Child v c) : Reaches root c

/-! ## Errors and the table -/

/-- A visit notes its own occurrences. -/
theorem Visit.notes (v : Visit) : Notes v.node.ids v.walk v.after := by
  obtain ⟨node, c, w⟩ := v
  cases node with
  | expression e => exact notes_expression c e w
  | expressions es => exact notes_expressions c es w
  | superclass name occurrence => exact notes_superclass w name occurrence
  | statement s => exact notes_statement c s w
  | statements ss => exact notes_statements c ss w
  | function d => exact notes_function c d w
  | methods ds => exact notes_methods c ds w

/-- The occurrences of a visit are those that it notes before it comes to a visit that
it makes, those of that visit, and those that it notes behind it. -/
theorem Child.split {v c : Visit} (h : Child v c) :
    ∃ before behind, v.node.ids = before ++ (c.node.ids ++ behind) ∧
      Notes before v.walk c.walk ∧ Notes behind c.after v.after := by
  -- where the part has all the occurrences, nothing is noted before or behind it
  have last {ids : List NodeId} : ids = [] ++ (ids ++ []) := by simp
  cases h with
  | group => exact ⟨[], [], last, .refl _, .refl _⟩
  | unary => exact ⟨[], [], last, .refl _, .refl _⟩
  | binaryLeft => exact ⟨[], _, rfl, .refl _, notes_expression ..⟩
  | binaryRight => exact ⟨_, [], by simp [Node.ids, Expr.ids], notes_expression .., .refl _⟩
  | logicalLeft => exact ⟨[], _, rfl, .refl _, notes_expression ..⟩
  | logicalRight =>
    exact ⟨_, [], by simp [Node.ids, Expr.ids], notes_expression .., .refl _⟩
  | @assign target => exact ⟨[], _, rfl, .refl _, notes_note ..⟩
  | callee => exact ⟨[], _, rfl, .refl _, notes_expressions ..⟩
  | arguments => exact ⟨_, [], by simp [Node.ids, Expr.ids], notes_expression .., .refl _⟩
  | get => exact ⟨[], [], last, .refl _, .refl _⟩
  | setValue => exact ⟨[], _, rfl, .refl _, notes_expression ..⟩
  | setObject => exact ⟨_, [], by simp [Node.ids, Expr.ids], notes_expression .., .refl _⟩
  | expressionsHead => exact ⟨[], _, rfl, .refl _, notes_expressions ..⟩
  | expressionsTail =>
    exact ⟨_, [], by simp [Node.ids, Expr.idsOfAll], notes_expression .., .refl _⟩
  | expressionStmt => exact ⟨[], [], last, .refl _, .refl _⟩
  | print => exact ⟨[], [], last, .refl _, .refl _⟩
  | varInitializer => exact ⟨[], [], last, notes_declare .., notes_define ..⟩
  | block => exact ⟨[], [], last, .quiet rfl rfl, .quiet rfl rfl⟩
  | @branchCondition e yes no c w =>
    cases no with
    | none => exact ⟨[], _, rfl, .refl _, notes_statement ..⟩
    | some no =>
      exact ⟨[], _, rfl, .refl _, (notes_statement c yes _).trans (notes_statement c no _)⟩
  | @branchYes e yes no c w =>
    cases no with
    | none =>
      exact ⟨_, [], by simp [Node.ids, Stmt.ids], notes_expression .., .refl _⟩
    | some no => exact ⟨_, _, rfl, notes_expression .., notes_statement ..⟩
  | @branchNo e yes no c w =>
    exact ⟨e.ids ++ yes.ids, [], by simp [Node.ids, Stmt.ids],
      (notes_expression c e w).trans (notes_statement c yes _), .refl _⟩
  | loopCondition =>
    exact ⟨[], _, rfl, .refl _, (notes_statement ..).trans (notes_expression? ..)⟩
  | loopBody => exact ⟨_, _, rfl, notes_expression .., notes_expression? ..⟩
  | @loopIncrement e body increment c w =>
    exact ⟨e.ids ++ body.ids, [], by simp [Node.ids, Stmt.ids, Expr.idsOf?],
      (notes_expression c e w).trans (notes_statement _ body _), .refl _⟩
  | functionStmt => exact ⟨[], [], last, notes_declareDefined .., .refl _⟩
  | returnValue =>
    exact ⟨[], [], last, (notes_require ..).trans (notes_require ..), .refl _⟩
  | @classMethods name ds c w =>
    exact ⟨[], [], last, (notes_declareDefined w name).trans
      (notes_define (w.declareDefined name).enter "this").of_enter, .quiet rfl rfl⟩
  | @classSuperclass name occurrence ds c w =>
    let opened := (w.declareDefined name).superclass name occurrence
    have methods := (notes_define opened.enter "this").trans
      (notes_methods { c with enclosing := .derived } ds _)
    exact ⟨[], _, rfl, notes_declareDefined .., ⟨methods.errors, methods.locals⟩⟩
  | @subclassMethods name occurrence ds c w =>
    -- the superclass is noted before the methods are
    let opened := (w.declareDefined name).superclass name occurrence
    have before := (notes_declareDefined w name).trans
      ((notes_superclass _ name occurrence).trans
        (notes_define opened.enter "this").of_enter)
    exact ⟨[occurrence.id], [], by simp [Node.ids, Stmt.ids], by simpa using before,
      .quiet rfl rfl⟩
  | statementsHead => exact ⟨[], _, rfl, .refl _, notes_statements ..⟩
  | statementsTail =>
    exact ⟨_, [], by simp [Node.ids, Stmt.idsOfAll], notes_statement .., .refl _⟩
  | @functionBody name parameters body c w =>
    exact ⟨[], [], last, (notes_declareDefined_foldl w.enter parameters).of_enter,
      .quiet rfl rfl⟩
  | methodsHead => exact ⟨[], _, rfl, .refl _, notes_methods ..⟩
  | methodsTail =>
    exact ⟨_, [], by simp [Node.ids, FunctionDecl.idsOfAll], notes_function .., .refl _⟩

end ClassScript.Binding
