import ClassScript.Proofs.Binding.Sound

/-!
# Where the reserved names are

Programs declare no reserved name, so only classes put one into a scope. A visit that opens
no scope leaves the reserved names where they are (`Child.depthOf_reserved`), one of the body
of a function finds them one scope further up (`Child.depthOf_body`), and one of the methods
of a class finds `this` in the innermost scope and `super` in the next one, if the class has
a superclass (`Child.depths_methods`).
-/

namespace ClassScript.Binding

open Syntax Walk

variable {v c : Visit}

/-- A name that is declared hides no receiver, since no name is reserved. -/
theorem depthOf_marked_reserved {name text : String} (plain : name ∉ reserved)
    (special : text ∈ reserved) (isDefined : Bool) (scopes : List Names) :
    depthOf text (marked name isDefined scopes) = depthOf text scopes :=
  depthOf_marked (fun same : name = text => plain (same ▸ special)) isDefined scopes

theorem depthOf_declared_reserved {names : List String} {text : String}
    (plain : ∀ name ∈ names, name ∉ reserved) (special : text ∈ reserved)
    (scopes : List Names) : depthOf text (declared names scopes) = depthOf text scopes :=
  depthOf_declared (fun inside => plain text inside special) scopes

/-- The name of a function or a class is no reserved one. -/
theorem FunctionDecl.plain_name {d : FunctionDecl} (plain : d.Plain) :
    d.name.text ∉ reserved := by
  obtain ⟨name, parameters, body⟩ := d
  exact plain.1

namespace Child

/-- A visit that opens no scope leaves the reserved names where they are. -/
theorem depthOf_reserved (h : Child v c) (plain : v.node.Plain)
    (level : c.walk.scopes.length = v.walk.scopes.length) {text : String}
    (special : text ∈ reserved) : depthOf text c.walk.scopes = depthOf text v.walk.scopes := by
  cases h with
  | group | unary | binaryLeft | logicalLeft | assign | callee | get | setValue
  | expressionsHead | expressionStmt | print | branchCondition | loopCondition
  | statementsHead | methodsHead => rfl
  | binaryRight | logicalRight | arguments | setObject | expressionsTail | branchYes
  | loopBody | returnValue => simp
  | methodsTail => rw [scopes_function]
  -- the scope on top has gained a name, which is not a reserved word
  | varInitializer =>
    rw [scopes_declare]
    exact depthOf_marked_reserved plain.1 special false _
  | branchNo =>
    rw [scopes_statement, scopes_expression]
    exact depthOf_declared_reserved (plain_declares plain.2.1.1) special _
  | loopIncrement =>
    rw [scopes_statement, scopes_expression]
    exact depthOf_declared_reserved (plain_declares plain.2.1.1) special _
  | functionStmt =>
    rw [scopes_declareDefined]
    exact depthOf_marked_reserved (FunctionDecl.plain_name plain) special true _
  | classSuperclass =>
    rw [scopes_declareDefined]
    exact depthOf_marked_reserved plain.1 special true _
  | statementsTail =>
    rw [scopes_statement]
    exact depthOf_declared_reserved (plain_declares plain.1) special _
  -- the parts one scope deeper do not have the level of the whole
  | block | functionBody | classMethods => simp [scopes_declareDefined_foldl] at level
  | subclassMethods =>
    simp only [scopes_define, scopes_enter, scopes_superclass, scopes_declareDefined,
      marked_length, List.length_cons] at level
    omega

/-- In the body of a function the reserved names are one scope further up. -/
theorem depthOf_body (h : Child v c) {d : FunctionDecl} (node : v.node = .function d)
    (plain : v.node.Plain) {text : String} (special : text ∈ reserved) :
    depthOf text c.walk.scopes = (depthOf text v.walk.scopes).map (· + 1) := by
  cases h with
  | @functionBody name parameters body context w =>
    rw [scopes_declareDefined_foldl, scopes_enter, depthOf_declared_reserved _ special,
      depthOf_enter]
    intro name inside
    obtain ⟨parameter, among, rfl⟩ := List.mem_map.mp inside
    exact plain.2.1 parameter among
  | _ => cases node

/-- The methods that are visited in a class are those that it declares. -/
theorem eq_methods (h : Child v c) {name : Name} {superclass : Option Occurrence}
    {methods rows : List FunctionDecl}
    (node : v.node = .statement (.classDecl name superclass methods))
    (part : c.node = .methods rows) : rows = methods := by
  cases h with
  | classMethods | subclassMethods =>
    cases node
    cases part
    rfl
  | classSuperclass => cases part
  | _ => cases node

/-- The methods of a class have `this` in a scope of their own, and next to it `super`, if
there is a superclass. -/
theorem depths_methods (h : Child v c) {name : Name} {superclass : Option Occurrence}
    {methods rows : List FunctionDecl}
    (node : v.node = .statement (.classDecl name superclass methods))
    (part : c.node = .methods rows) (plain : v.node.Plain) :
    depthOf "this" c.walk.scopes = some 0 ∧
      depthOf "super" c.walk.scopes =
        if superclass.isSome then some 1 else (depthOf "super" v.walk.scopes).map (· + 1) := by
  cases h with
  | @classMethods _ _ context w =>
    cases node
    cases part
    simp only [scopes_define, scopes_enter, scopes_declareDefined, Option.isSome_none,
      Bool.false_eq_true, if_false]
    -- without a superclass there is one new scope between the methods and the class statement
    refine ⟨depthOf_marked_self _ _ (List.cons_ne_nil _ _), ?_⟩
    rw [depthOf_marked (by decide), depthOf_enter,
      depthOf_marked_reserved plain.1 (by simp [reserved])]
  | @subclassMethods _ _ _ context w =>
    cases node
    cases part
    simp only [scopes_define, scopes_enter, scopes_superclass, Option.isSome_some, if_true]
    -- the superclass has a scope of its own, directly outside the one of the instance
    refine ⟨depthOf_marked_self _ _ (List.cons_ne_nil _ _), ?_⟩
    rw [depthOf_marked (by decide), depthOf_enter,
      depthOf_marked_self _ _ (List.cons_ne_nil _ _)]
    rfl
  | classSuperclass => cases part
  | _ => cases node

/-- A class opens a scope for its methods. -/
theorem length_methods (h : Child v c) {rows : List FunctionDecl}
    (part : c.node = .methods rows) (other : ∀ ds, v.node ≠ .methods ds) :
    v.walk.scopes.length < c.walk.scopes.length := by
  cases h with
  | classMethods =>
    simp only [scopes_define, scopes_enter, scopes_declareDefined, marked_length,
      List.length_cons]
    omega
  | subclassMethods =>
    simp only [scopes_define, scopes_enter, scopes_superclass, scopes_declareDefined,
      marked_length, List.length_cons]
    omega
  | methodsTail => exact absurd rfl (other _)
  | _ => cases part

end Child

end ClassScript.Binding
