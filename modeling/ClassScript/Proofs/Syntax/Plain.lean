import ClassScript.Syntax.Tree

/-!
# Trees as a parser makes them

The identities of the occurrences in a tree, the names that a statement declares in
the scope around it, and what the grammar rules out although the type of trees does
not: a variable named `this` or `super`, and a declaration in the place of a branch
or a loop's body.
-/

namespace ClassScript.Syntax

/-- The words that refer to a binding and name no variable. -/
def reserved : List String := ["this", "super"]

mutual

/-- The identities of the occurrences in an expression. -/
def Expr.ids : Expr → List NodeId
  | .literal _ => []
  | .group inner => inner.ids
  | .unary _ _ operand => operand.ids
  | .binary _ _ left right => left.ids ++ right.ids
  | .logical _ left right => left.ids ++ right.ids
  | .variable occurrence => [occurrence.id]
  | .assign target value => value.ids ++ [target.id]
  | .call callee _ arguments => callee.ids ++ Expr.idsOfAll arguments
  | .get object _ => object.ids
  | .set object _ value => value.ids ++ object.ids
  | .this id _ => [id]
  | .super id _ _ => [id]

def Expr.idsOfAll : List Expr → List NodeId
  | [] => []
  | e :: rest => e.ids ++ Expr.idsOfAll rest

end

mutual

/-- No variable of the expression has a reserved name. -/
def Expr.Plain : Expr → Prop
  | .literal _ | .this _ _ | .super _ _ _ => True
  | .group inner => inner.Plain
  | .unary _ _ operand => operand.Plain
  | .binary _ _ left right => left.Plain ∧ right.Plain
  | .logical _ left right => left.Plain ∧ right.Plain
  | .variable occurrence => occurrence.name.text ∉ reserved
  | .assign target value => target.name.text ∉ reserved ∧ value.Plain
  | .call callee _ arguments => callee.Plain ∧ Expr.AllPlain arguments
  | .get object _ => object.Plain
  | .set object _ value => object.Plain ∧ value.Plain

def Expr.AllPlain : List Expr → Prop
  | [] => True
  | e :: rest => e.Plain ∧ Expr.AllPlain rest

end

/-- What holds of an expression that may be missing. -/
def Expr.idsOf? (e : Option Expr) : List NodeId := (e.map Expr.ids).getD []

def Expr.Plain? (e : Option Expr) : Prop := ∀ e' ∈ e, Expr.Plain e'

mutual

/-- The names that a statement may bind in the scope that it is run in. -/
def Stmt.declares : Stmt → List String
  | .var name _ => [name.text]
  | .function declaration => [declaration.name.text]
  | .classDecl name _ _ => [name.text]
  | .branch _ yes none => yes.declares
  | .branch _ yes (some no) => yes.declares ++ no.declares
  | .loop _ body _ => body.declares
  | _ => []

end

/-- The names that statements in a row may bind in the scope that they are run in. -/
def Stmt.declaresAll (ss : List Stmt) : List String := ss.flatMap Stmt.declares

mutual

/-- The identities of the occurrences in a statement. -/
def Stmt.ids : Stmt → List NodeId
  | .expression e => e.ids
  | .print e => e.ids
  | .var _ initializer => Expr.idsOf? initializer
  | .block body => Stmt.idsOfAll body
  | .branch condition yes none => condition.ids ++ yes.ids
  | .branch condition yes (some no) => condition.ids ++ (yes.ids ++ no.ids)
  | .loop condition body increment => condition.ids ++ (body.ids ++ Expr.idsOf? increment)
  | .function declaration => declaration.ids
  | .return _ value => Expr.idsOf? value
  | .break _ => []
  | .continue _ => []
  | .classDecl _ none methods => FunctionDecl.idsOfAll methods
  | .classDecl _ (some superclass) methods => superclass.id :: FunctionDecl.idsOfAll methods

def Stmt.idsOfAll : List Stmt → List NodeId
  | [] => []
  | s :: rest => s.ids ++ Stmt.idsOfAll rest

def FunctionDecl.ids : FunctionDecl → List NodeId
  | ⟨_, _, body⟩ => Stmt.idsOfAll body

def FunctionDecl.idsOfAll : List FunctionDecl → List NodeId
  | [] => []
  | d :: rest => d.ids ++ FunctionDecl.idsOfAll rest

end

mutual

/-- No declared name of the statement is reserved, and a branch or a loop's body
declares nothing outside itself. -/
def Stmt.Plain : Stmt → Prop
  | .expression e => e.Plain
  | .print e => e.Plain
  | .var name initializer => name.text ∉ reserved ∧ Expr.Plain? initializer
  | .block body => Stmt.AllPlain body
  | .branch condition yes none => condition.Plain ∧ yes.Plain ∧ yes.declares = []
  | .branch condition yes (some no) =>
    condition.Plain ∧ (yes.Plain ∧ yes.declares = []) ∧ no.Plain ∧ no.declares = []
  | .loop condition body increment =>
    condition.Plain ∧ (body.Plain ∧ body.declares = []) ∧ Expr.Plain? increment
  | .function declaration => declaration.Plain
  | .return _ value => Expr.Plain? value
  | .break _ => True
  | .continue _ => True
  | .classDecl name none methods => name.text ∉ reserved ∧ FunctionDecl.AllPlain methods
  | .classDecl name (some superclass) methods =>
    name.text ∉ reserved ∧ superclass.name.text ∉ reserved ∧ FunctionDecl.AllPlain methods

def Stmt.AllPlain : List Stmt → Prop
  | [] => True
  | s :: rest => s.Plain ∧ Stmt.AllPlain rest

def FunctionDecl.Plain : FunctionDecl → Prop
  | ⟨name, parameters, body⟩ =>
    name.text ∉ reserved ∧ (∀ p ∈ parameters, p.text ∉ reserved) ∧ Stmt.AllPlain body

def FunctionDecl.AllPlain : List FunctionDecl → Prop
  | [] => True
  | d :: rest => d.Plain ∧ FunctionDecl.AllPlain rest

end

end ClassScript.Syntax
