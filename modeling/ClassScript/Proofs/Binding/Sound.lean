import ClassScript.Proofs.Binding.Visit

/-!
# Sound visits

What resolution knows at a visit of a program that it accepts: the table has, for the
occurrences of the piece, the depths of their names in the scopes of the visit;
inside a class there are a scope with `this` and, if the class has a superclass, one
with `super` next to it; and every name is defined, unless an initializer is on its
way. All of it holds at every visit if it holds at the first one (`Sound.reaches`).
-/

namespace ClassScript.Binding

open Syntax Walk

/-- The number of scopes between the innermost one and the one that has the name. -/
def depthOf (text : String) (scopes : List Names) : Option Nat :=
  scopes.findIdx? fun names => names.contains text

theorem Walk.depth?_eq (w : Walk) (text : String) : w.depth? text = depthOf text w.scopes :=
  rfl

/-- A name is looked for in the innermost scope first. -/
theorem depthOf_cons (text : String) (names : Names) (outer : List Names) :
    depthOf text (names :: outer) =
      if names.contains text then some 0 else (depthOf text outer).map (· + 1) := by
  rw [depthOf, List.findIdx?_cons]
  rfl

/-- A name that is not set keeps its depth. -/
theorem depthOf_marked {text other : String} (differ : text ≠ other) (isDefined : Bool)
    (scopes : List Names) :
    depthOf other (marked text isDefined scopes) = depthOf other scopes := by
  cases scopes with
  | nil => rfl
  | cons names outer =>
    have same : (names.insert text isDefined).contains other = names.contains other := by
      simp [Std.ExtTreeMap.contains_insert, differ]
    simp only [marked, depthOf_cons, same]

/-- A name that is marked in a local scope is found there. -/
theorem depthOf_marked_self (text : String) (isDefined : Bool) {scopes : List Names}
    (inner : scopes ≠ []) : depthOf text (marked text isDefined scopes) = some 0 := by
  cases scopes with
  | nil => exact absurd rfl inner
  | cons top outer => simp [marked, depthOf_cons]

/-- Whether a name is defined does not count for its depth. -/
theorem depthOf_marked_state (text other : String) (state state' : Bool)
    (scopes : List Names) :
    depthOf other (marked text state scopes) = depthOf other (marked text state' scopes) := by
  cases scopes with
  | nil => rfl
  | cons top outer => simp [marked, depthOf_cons, Std.ExtTreeMap.contains_insert]

/-- Names that are declared hide no others. -/
theorem depthOf_declared {texts : List String} {other : String} (outside : other ∉ texts)
    (scopes : List Names) : depthOf other (declared texts scopes) = depthOf other scopes := by
  induction texts generalizing scopes with
  | nil => rfl
  | cons text rest ih =>
    rw [List.mem_cons, not_or] at outside
    rw [declared_cons, ih outside.2, depthOf_marked (Ne.symm outside.1)]

/-- One of the names that are declared in a local scope is found there. -/
theorem depthOf_declared_of_mem {texts : List String} {text : String} (among : text ∈ texts)
    {scopes : List Names} (inner : scopes ≠ []) :
    depthOf text (declared texts scopes) = some 0 := by
  induction texts generalizing scopes with
  | nil => cases among
  | cons first rest ih =>
    have inner' : marked first true scopes ≠ [] := by
      rw [← List.length_pos_iff, marked_length]
      exact List.length_pos_iff.mpr inner
    rw [declared_cons]
    by_cases later : text ∈ rest
    · exact ih later inner'
    · obtain rfl : text = first := (List.mem_cons.mp among).resolve_right later
      rw [depthOf_declared later]
      exact depthOf_marked_self text true inner

/-- A name that is declared without an error is not in the innermost scope. -/
theorem depthOf_ne_zero {w : Walk} {name : Name} (accepted : (w.declare name).errors = []) :
    depthOf name.text w.scopes ≠ some 0 := by
  have new := Walk.declare_accepted accepted
  unfold Walk.innermost? at new
  cases shape : w.scopes with
  | nil => simp [depthOf]
  | cons top outer =>
    rw [shape, List.head?_cons, Option.bind_some] at new
    have absent : top.contains name.text = false := by
      rw [← Std.ExtTreeMap.isSome_getElem?_eq_contains, new]
      rfl
    rw [depthOf_cons, absent]
    cases depthOf name.text outer <;> simp

/-- Behind a new scope, every name is one deeper. -/
theorem depthOf_enter (text : String) (scopes : List Names) :
    depthOf text (∅ :: scopes) = (depthOf text scopes).map (· + 1) := by
  simp [depthOf_cons]

/-! ## The scopes of classes -/

/-- Inside a class there are the scopes that its methods need. -/
def Framed (context : Context) (scopes : List Names) : Prop :=
  match context.enclosing with
  | .none => True
  | .plain => ∃ depth, depthOf "this" scopes = some depth
  | .derived =>
    ∃ depth, depthOf "this" scopes = some depth ∧ depthOf "super" scopes = some (depth + 1)

namespace Framed

variable {context : Context} {scopes : List Names}

/-- What is known of the scopes for `this` and `super` depends on their depths and on the class
around alone. -/
theorem congr {context' : Context} {scopes' : List Names} (h : Framed context scopes)
    (same : context'.enclosing = context.enclosing)
    (depths : ∀ text ∈ reserved, depthOf text scopes' = depthOf text scopes) :
    Framed context' scopes' := by
  unfold Framed at h ⊢
  rw [same]
  rw [depths "this" (by simp [reserved]), depths "super" (by simp [reserved])]
  exact h

theorem marked (h : Framed context scopes) {text : String} (outside : text ∉ reserved)
    (isDefined : Bool) : Framed context (marked text isDefined scopes) :=
  h.congr rfl fun other special =>
    depthOf_marked (fun same : text = other => outside (same ▸ special)) isDefined scopes

/-- Declarations do not hide the receivers: their names are not reserved. -/
theorem declared (h : Framed context scopes) {texts : List String}
    (outside : ∀ text ∈ texts, text ∉ reserved) : Framed context (declared texts scopes) :=
  h.congr rfl fun _ special =>
    depthOf_declared (fun inside => outside _ inside special) scopes

/-- A new scope has no receiver in it. -/
theorem enter (h : Framed context scopes) : Framed context (∅ :: scopes) := by
  unfold Framed at h ⊢
  simp only [depthOf_enter]
  split
  · trivial
  · next shape =>
    rw [shape] at h
    obtain ⟨depth, this⟩ := h
    exact ⟨depth + 1, by rw [this]; rfl⟩
  · next shape =>
    rw [shape] at h
    obtain ⟨depth, this, super⟩ := h
    exact ⟨depth + 1, by rw [this]; rfl, by rw [super]; rfl⟩

/-- In a class without a superclass, `this` is in the innermost scope. -/
theorem plain (context : Context) (scopes : List Names) :
    Framed { context with enclosing := .plain } (Binding.marked "this" true (∅ :: scopes)) :=
  ⟨0, by simp [Binding.marked, depthOf_cons]⟩

/-- In a subclass, `super` is in the scope around that of `this`. -/
theorem derived (context : Context) (scopes : List Names) :
    Framed { context with enclosing := .derived }
      (Binding.marked "this" true (∅ :: Binding.marked "super" true (∅ :: scopes))) := by
  refine ⟨0, ?_, ?_⟩ <;>
    simp [Binding.marked, depthOf_cons, Std.ExtTreeMap.contains_insert]

end Framed

/-! ## Names that are declared and not defined -/

/-- All names of a scope are defined. -/
def Settled (names : Names) : Prop := ∀ text : String, names[text]? ≠ some false

theorem settled_empty : Settled ∅ := fun text => by simp

/-- A name that is defined is not waiting for its initializer. -/
theorem Settled.insert {names : Names} (h : Settled names) (text : String) :
    Settled (names.insert text true) := fun other => by
  rw [Std.ExtTreeMap.getElem?_insert]
  split
  · simp
  · exact h other

theorem settled_declared {scopes : List Names} (h : ∀ names ∈ scopes, Settled names)
    (texts : List String) : ∀ names ∈ declared texts scopes, Settled names := by
  induction texts generalizing scopes with
  | nil => exact h
  | cons text rest ih =>
    refine ih ?_
    cases scopes with
    | nil => exact h
    | cons first outer =>
      simp only [marked, List.mem_cons, forall_eq_or_imp] at h ⊢
      exact ⟨h.1.insert text, h.2⟩

/-- Only an expression may be visited while a name of the innermost scope is not
defined, and that name is not a reserved one. -/
structure InOrder (node : Node) (scopes : List Names) : Prop where
  outer : ∀ names ∈ scopes.tail, Settled names
  innermost : ∀ names ∈ scopes.head?, ∀ text : String, names[text]? = some false →
    node.IsExpression ∧ text ∉ reserved

namespace InOrder

variable {node : Node} {scopes : List Names}

/-- Scopes without a name that waits are in order for every piece. -/
theorem of_settled (h : ∀ names ∈ scopes, Settled names) : InOrder node scopes where
  outer names inside := h names (List.mem_of_mem_tail inside)
  innermost names first text open_ := absurd open_ (h names (List.mem_of_head? first) text)

/-- Only in expressions may a name wait for its initializer. -/
theorem settled (h : InOrder node scopes) (other : ¬ node.IsExpression) :
    ∀ names ∈ scopes, Settled names := by
  cases scopes with
  | nil => simp
  | cons first outer =>
    simp only [List.mem_cons, forall_eq_or_imp]
    exact ⟨fun text open_ => other (h.innermost first rfl text open_).1, h.outer⟩

/-- Another piece at the same place. -/
theorem move {node' : Node} (h : InOrder node scopes)
    (expression : node.IsExpression → node'.IsExpression) : InOrder node' scopes :=
  ⟨h.outer, fun names first text open_ =>
    (h.innermost names first text open_).imp_left expression⟩

end InOrder

/-! ## Soundness -/

/-- What resolution knows at a visit, where `table` holds the depths of a program
that it accepts. -/
structure Sound (table : Locals) (v : Visit) : Prop where
  plain : v.node.Plain
  distinct : v.node.ids.Nodup
  fresh : ∀ id ∈ v.node.ids, v.walk.locals.depth? id = none
  agrees : ∀ id ∈ v.node.ids, table.depth? id = v.after.locals.depth? id
  accepted : v.after.errors = []
  framed : Framed v.context v.walk.scopes
  inOrder : InOrder v.node v.walk.scopes

/-- Pieces of what a parser makes are so too. -/
theorem Child.plain {v c : Visit} (h : Child v c) (plain : v.node.Plain) : c.node.Plain := by
  cases h with
  -- grouped by the conjunct that speaks of the part
  | group | unary | get | expressionStmt | print | block | functionStmt | classMethods =>
    first | exact plain | exact plain.2
  | binaryLeft | logicalLeft | callee | expressionsHead | statementsHead | methodsHead =>
    exact plain.1
  | binaryRight | logicalRight | assign | arguments | setValue | expressionsTail
  | statementsTail | methodsTail => exact plain.2
  | setObject => exact plain.1
  | varInitializer => exact plain.2 _ rfl
  | @branchCondition _ _ no => cases no <;> exact plain.1
  | @branchYes _ _ no =>
    cases no with
    | none => exact plain.2.1
    | some no => exact plain.2.1.1
  | branchNo => exact plain.2.2.1
  | loopCondition => exact plain.1
  | loopBody => exact plain.2.1.1
  | loopIncrement => exact plain.2.2 _ rfl
  | returnValue => exact plain _ rfl
  | classSuperclass => exact plain.2.1
  | subclassMethods => exact plain.2.2
  | functionBody => exact plain.2.2

/-- No statement of a plain program declares a reserved name. -/
theorem plain_declares {s : Stmt} (plain : s.Plain) : ∀ text ∈ s.declares, text ∉ reserved := by
  cases s with
  | var name initializer => simpa [Stmt.declares] using plain.1
  | function declaration =>
    obtain ⟨name, parameters, body⟩ := declaration
    simpa [Stmt.declares] using plain.1
  | classDecl name superclass methods =>
    cases superclass <;> simpa [Stmt.declares] using plain.1
  | branch condition yes no =>
    cases no with
    | none => simp [Stmt.declares, plain.2.2]
    | some no => simp [Stmt.declares, plain.2.1.2, plain.2.2.2]
  | loop condition body increment => simp [Stmt.declares, plain.2.1.2]
  | _ => simp [Stmt.declares]

/-- Neither a branch nor the statement as a whole declares a name. -/
theorem branch_declares {condition : Expr} {yes : Stmt} {no : Option Stmt}
    (plain : (Stmt.branch condition yes no).Plain) :
    (Stmt.branch condition yes no).declares = [] ∧ yes.declares = [] ∧
      ∀ s ∈ no, Stmt.declares s = [] := by
  cases no with
  | none => exact ⟨plain.2.2, plain.2.2, by simp⟩
  | some no =>
    refine ⟨?_, plain.2.1.2, by simp [plain.2.2.2]⟩
    rw [Stmt.declares, plain.2.1.2, plain.2.2.2]
    rfl

/-- A visit keeps the scopes for `this` and `super` where its context says. -/
theorem Child.framed {v c : Visit} (h : Child v c) (plain : v.node.Plain)
    (framed : Framed v.context v.walk.scopes) : Framed c.context c.walk.scopes := by
  -- for the parts that are reached with unchanged scopes
  have same {context context' : Context} {w w' : Walk} (h : Framed context w.scopes)
      (enclosing : context'.enclosing = context.enclosing) (scopes : w'.scopes = w.scopes) :
      Framed context' w'.scopes :=
    h.congr enclosing fun _ _ => by rw [scopes]
  cases h with
  | group | unary | binaryLeft | logicalLeft | assign | callee | get | setValue
  | expressionsHead | expressionStmt | print | branchCondition | loopCondition
  | statementsHead => exact framed
  | binaryRight | logicalRight | arguments | setObject | expressionsTail | branchYes =>
    exact same framed rfl (by simp)
  | varInitializer =>
    rw [scopes_declare]
    exact framed.marked plain.1 false
  | block => exact framed.enter
  | @branchNo e yes no c w =>
    rw [scopes_statement, scopes_expression]
    exact framed.declared (plain_declares plain.2.1.1)
  | loopBody => exact same framed rfl (by simp)
  | @loopIncrement e body increment c w =>
    rw [scopes_statement, scopes_expression]
    exact framed.declared (plain_declares plain.2.1.1)
  | @functionStmt d c w =>
    rw [scopes_declareDefined]
    obtain ⟨name, parameters, body⟩ := d
    exact (framed.marked plain.1 true).congr rfl fun _ _ => rfl
  | returnValue => exact same framed rfl (by simp)
  -- entering a class sets the context, and with it what the frame must hold
  | @classMethods name ds c w =>
    simp only [scopes_define, scopes_enter, scopes_declareDefined]
    exact Framed.plain c _
  | classSuperclass =>
    rw [scopes_declareDefined]
    exact framed.marked plain.1 true
  | @subclassMethods name occurrence ds c w =>
    simp only [scopes_define, scopes_enter, scopes_superclass]
    exact Framed.derived c _
  | @statementsTail s ss c w =>
    rw [scopes_statement]
    exact framed.declared (plain_declares plain.1)
  | @functionBody name parameters body c w =>
    rw [scopes_declareDefined_foldl, scopes_enter]
    -- the parameters are plain names: they do not hide the instance
    apply framed.enter.declared
    intro text inside
    obtain ⟨parameter, mem, rfl⟩ := List.mem_map.mp inside
    exact plain.2.1 parameter mem
  | methodsHead => exact same framed rfl rfl
  | methodsTail => exact same framed rfl (scopes_function ..)

/-- Each visit comes to its pieces with scopes that are in order for them. -/
theorem Child.inOrder {v c : Visit} (h : Child v c) (plain : v.node.Plain)
    (inOrder : InOrder v.node v.walk.scopes) : InOrder c.node c.walk.scopes := by
  -- for the parts that are reached with unchanged scopes
  have stay {node node' : Node} {w w' : Walk} (h : InOrder node w.scopes)
      (expression : node.IsExpression → node'.IsExpression)
      (scopes : w'.scopes = w.scopes) : InOrder node' w'.scopes :=
    scopes ▸ h.move expression
  cases h with
  | group | unary | binaryLeft | logicalLeft | assign | callee | get | setValue
  | expressionsHead | expressionStmt | print | branchCondition | loopCondition =>
    exact inOrder.move fun _ => trivial
  | binaryRight | logicalRight | arguments | setObject | expressionsTail | returnValue =>
    exact stay inOrder (fun _ => trivial) (by simp)
  | statementsHead => exact inOrder.move id
  | branchYes | loopBody => exact stay inOrder id (by simp)
  | @varInitializer name e c w =>
    have settled := inOrder.settled id
    rw [scopes_declare]
    refine ⟨fun names inside => ?_, fun names first text open_ => ?_⟩
    · rw [marked_tail] at inside
      exact inOrder.outer names inside
    · -- the declared name is the only one that is not defined, and it is plain
      refine ⟨trivial, ?_⟩
      cases shape : w.scopes with
      | nil => simp [shape, marked] at first
      | cons top outer =>
        simp only [shape, marked, List.head?_cons, Option.mem_def, Option.some.injEq] at first
        rw [← first, Std.ExtTreeMap.getElem?_insert] at open_
        split at open_
        · next same =>
          have named : name.text = text := by simpa using same
          exact named ▸ plain.1
        · exact absurd open_ (settled top (by simp [shape]) text)
  | block =>
    refine .of_settled ?_
    simp only [scopes_enter, List.mem_cons, forall_eq_or_imp]
    exact ⟨settled_empty, inOrder.settled id⟩
  | @branchNo e yes no c w =>
    rw [scopes_statement, scopes_expression]
    exact .of_settled (settled_declared (inOrder.settled id) _)
  | @loopIncrement e body increment c w =>
    rw [scopes_statement, scopes_expression]
    exact .of_settled (settled_declared (inOrder.settled id) _)
  | functionStmt | classSuperclass =>
    rw [scopes_declareDefined]
    exact .of_settled (settled_declared (inOrder.settled id) [_])
  -- every new scope starts with defined names only
  | @classMethods name ds c w =>
    refine .of_settled ?_
    simp only [scopes_define, scopes_enter, scopes_declareDefined, marked, List.mem_cons,
      forall_eq_or_imp]
    exact ⟨settled_empty.insert _, settled_declared (inOrder.settled id) [name.text]⟩
  | @subclassMethods name occurrence ds c w =>
    refine .of_settled ?_
    simp only [scopes_define, scopes_enter, scopes_superclass, scopes_declareDefined, marked,
      List.mem_cons, forall_eq_or_imp]
    exact ⟨settled_empty.insert _, settled_empty.insert _,
      settled_declared (inOrder.settled id) [name.text]⟩
  | @statementsTail s ss c w =>
    rw [scopes_statement]
    exact .of_settled (settled_declared (inOrder.settled id) _)
  | @functionBody name parameters body c w =>
    rw [scopes_declareDefined_foldl, scopes_enter]
    refine .of_settled (settled_declared ?_ _)
    simp only [List.mem_cons, forall_eq_or_imp]
    exact ⟨settled_empty, inOrder.settled id⟩
  | methodsHead => exact inOrder.move id
  | methodsTail => exact stay inOrder id (scopes_function ..)

namespace Sound

variable {table : Locals} {v c : Visit}

/-- The visits that a sound visit makes are sound. -/
theorem child (sound : Sound table v) (h : Child v c) : Sound table c := by
  obtain ⟨before, behind, ids, first, last⟩ := h.split
  have part : ∀ id ∈ c.node.ids, id ∈ v.node.ids := by
    intro id inside
    rw [ids]
    simp [inside]
  -- what is noted before and behind the part is not its own
  obtain ⟨-, rest, apart⟩ := List.nodup_append.mp (ids ▸ sound.distinct)
  obtain ⟨own, -, apart'⟩ := List.nodup_append.mp rest
  have earlier : ∀ id ∈ c.node.ids, id ∉ before := by
    intro id inside outside
    exact apart id outside id (List.mem_append_left _ inside) rfl
  have later : ∀ id ∈ c.node.ids, id ∉ behind := by
    intro id inside outside
    exact apart' id inside id outside rfl
  exact {
    plain := h.plain sound.plain
    distinct := own
    fresh := fun id inside => by
      rw [first.locals id (earlier id inside)]
      exact sound.fresh id (part id inside)
    agrees := fun id inside => by
      rw [sound.agrees id (part id inside), last.locals id (later id inside)]
    accepted := last.accepted sound.accepted
    framed := h.framed sound.plain sound.framed
    inOrder := h.inOrder sound.plain sound.inOrder }

/-- All visits below a sound one are sound. -/
theorem reaches (sound : Sound table v) (h : Reaches v c) : Sound table c := by
  induction h with
  | refl => exact sound
  | child _ step ih => exact ih.child step

/-- Another table with the same depths for the occurrences of the piece. -/
theorem congr {table' : Locals} (sound : Sound table v)
    (same : ∀ id ∈ v.node.ids, table'.depth? id = table.depth? id) : Sound table' v :=
  { sound with
    agrees := fun id inside => (same id inside).trans (sound.agrees id inside) }

/-! ## Occurrences -/

section Occurrences

variable {context : Context} {w : Walk} {occurrence : Occurrence} {id : NodeId}

/-- The table has the depth of a variable, which is defined if it is local. -/
theorem «variable» (sound : Sound table ⟨.expression (.variable occurrence), context, w⟩) :
    table.depth? occurrence.id = depthOf occurrence.name.text w.scopes ∧
      w.innermost? occurrence.name.text ≠ some false := by
  refine ⟨?_, read_accepted sound.accepted⟩
  rw [sound.agrees occurrence.id (List.mem_singleton_self _)]
  exact w.depth?_read (sound.fresh occurrence.id (List.mem_singleton_self _))

/-- The table has the depth of a superclass's name, which is not that of the class. -/
theorem superclass {name : Name}
    (sound : Sound table ⟨.superclass name occurrence, context, w⟩) :
    table.depth? occurrence.id = depthOf occurrence.name.text w.scopes ∧
      occurrence.name.text ≠ name.text := by
  have accepted := sound.accepted
  simp only [Visit.after, Walk.superclass, errors_define, errors_enter] at accepted
  refine ⟨?_, ?_⟩
  · rw [sound.agrees occurrence.id (List.mem_singleton_self _)]
    have fresh := sound.fresh occurrence.id (List.mem_singleton_self _)
    simp only [Visit.after, Walk.superclass, locals_define, locals_enter]
    rw [depth?_read _ (by simpa using fresh)]
    simp [depth?_eq]
  · have := require_accepted ((notes_read _ occurrence).accepted accepted)
    simpa using this

/-- The table has the depth of the name that is assigned to. -/
theorem assign {value : Expr}
    (sound : Sound table ⟨.expression (.assign occurrence value), context, w⟩) :
    table.depth? occurrence.id = depthOf occurrence.name.text w.scopes := by
  have inside : occurrence.id ∈ (Expr.assign occurrence value).ids := by simp [Expr.ids]
  -- the value is visited first, and does not note the target
  have apart : occurrence.id ∉ value.ids := by
    intro also
    exact (List.nodup_append.mp sound.distinct).2.2 _ also _ (List.mem_singleton_self _) rfl
  have fresh : (w.expression context value).locals.depth? occurrence.id = none := by
    rw [(notes_expression context value w).locals _ apart]
    exact sound.fresh _ inside
  rw [sound.agrees _ inside]
  simp only [Visit.after, Walk.expression, depth?_note _ fresh, depth?_eq, scopes_expression]

/-- `this` stands in a class, in whose scopes the table finds it. -/
theorem this {line : Nat} (sound : Sound table ⟨.expression (.this id line), context, w⟩) :
    ∃ depth, table.depth? id = some depth ∧ depthOf "this" w.scopes = some depth := by
  have inside : id ∈ (Expr.this id line).ids := List.mem_singleton_self _
  have accepted := sound.accepted
  have framed := sound.framed
  have fresh : w.locals.depth? id = none := sound.fresh id inside
  have agrees := sound.agrees id inside
  simp only [Visit.after, Walk.expression] at accepted agrees
  unfold Framed at framed
  -- the kind of the enclosing class decides: none is an error, the others have this in scope
  cases shape : context.enclosing with
  | none => simp [shape, error] at accepted
  | plain =>
    simp only [shape] at framed agrees
    obtain ⟨depth, found⟩ := framed
    exact ⟨depth, by rw [agrees, depth?_note w fresh, depth?_eq, found], found⟩
  | derived =>
    simp only [shape] at framed agrees
    obtain ⟨depth, found, -⟩ := framed
    exact ⟨depth, by rw [agrees, depth?_note w fresh, depth?_eq, found], found⟩

/-- `super` stands in a class with a superclass, one scope above `this`. -/
theorem super {line : Nat} {method : Name}
    (sound : Sound table ⟨.expression (.super id line method), context, w⟩) :
    ∃ depth, table.depth? id = some (depth + 1) ∧
      depthOf "this" w.scopes = some depth ∧ depthOf "super" w.scopes = some (depth + 1) := by
  have inside : id ∈ (Expr.super id line method).ids := List.mem_singleton_self _
  have accepted := sound.accepted
  have framed := sound.framed
  have fresh : w.locals.depth? id = none := sound.fresh id inside
  have agrees := sound.agrees id inside
  simp only [Visit.after, Walk.expression] at accepted agrees
  unfold Framed at framed
  -- only a class with a superclass is walked without an error
  cases shape : context.enclosing with
  | none => simp [shape, error] at accepted
  | plain => simp [shape, error] at accepted
  | derived =>
    simp only [shape] at framed agrees
    obtain ⟨depth, this, super⟩ := framed
    exact ⟨depth, by rw [agrees, depth?_note w fresh, depth?_eq, super], this, super⟩

end Occurrences

end Sound

end ClassScript.Binding
