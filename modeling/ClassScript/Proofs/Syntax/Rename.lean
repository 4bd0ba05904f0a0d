import ClassScript.Proofs.Syntax.Plain

/-!
# Other lines and other identities

The lines in a tree are cited by errors, and its identities are keys of a table; nothing
else is done with them. A renaming puts other lines and other identities in their place.
Renaming twice is renaming once (`Stmt.rename_rename`), and only what a renaming does to
the identities that occur matters (`Stmt.rename_congr`).
-/

namespace ClassScript.Syntax

/-- What becomes of lines, and of the identities of occurrences. -/
structure Renaming where
  line : Nat → Nat
  node : NodeId → NodeId

namespace Renaming

/-- All stay as they are. -/
def same : Renaming := ⟨fun line => line, fun node => node⟩

/-- One renaming behind another. -/
def comp (r s : Renaming) : Renaming := ⟨r.line ∘ s.line, r.node ∘ s.node⟩

/-- Other lines, with the identities as they are. -/
def ofLines (line : Nat → Nat) : Renaming := ⟨line, fun node => node⟩

/-- Other identities, with the lines as they are. -/
def ofNodes (node : NodeId → NodeId) : Renaming := ⟨fun line => line, node⟩

/-- All identities are forgotten. -/
def nameless : Renaming := ofNodes fun _ => 0

end Renaming

section Definitions

variable (r : Renaming)

def Name.rename (name : Name) : Name := ⟨name.text, r.line name.line⟩

def Occurrence.rename (o : Occurrence) : Occurrence := ⟨r.node o.id, o.name.rename r⟩

mutual

def Expr.rename : Expr → Expr
  | .literal value => .literal value
  | .group inner => .group inner.rename
  | .unary op line operand => .unary op (r.line line) operand.rename
  | .binary op line left right => .binary op (r.line line) left.rename right.rename
  | .logical op left right => .logical op left.rename right.rename
  | .variable occurrence => .variable (occurrence.rename r)
  | .assign target value => .assign (target.rename r) value.rename
  | .call callee line arguments =>
    .call callee.rename (r.line line) (Expr.renameAll arguments)
  | .get object name => .get object.rename (name.rename r)
  | .set object name value => .set object.rename (name.rename r) value.rename
  | .this id line => .this (r.node id) (r.line line)
  | .super id line method => .super (r.node id) (r.line line) (method.rename r)

def Expr.renameAll : List Expr → List Expr
  | [] => []
  | e :: rest => e.rename :: Expr.renameAll rest

end

mutual

def Stmt.rename : Stmt → Stmt
  | .expression e => .expression (e.rename r)
  | .print e => .print (e.rename r)
  | .var name initializer => .var (name.rename r) (initializer.map (Expr.rename r))
  | .block body => .block (Stmt.renameAll body)
  | .branch condition yes none => .branch (condition.rename r) yes.rename none
  | .branch condition yes (some no) => .branch (condition.rename r) yes.rename (some no.rename)
  | .loop condition body increment =>
    .loop (condition.rename r) body.rename (increment.map (Expr.rename r))
  | .function declaration => .function declaration.rename
  | .return line value => .return (r.line line) (value.map (Expr.rename r))
  | .break line => .break (r.line line)
  | .continue line => .continue (r.line line)
  | .classDecl name superclass methods =>
    .classDecl (name.rename r) (superclass.map (Occurrence.rename r))
      (FunctionDecl.renameAll methods)

def Stmt.renameAll : List Stmt → List Stmt
  | [] => []
  | s :: rest => s.rename :: Stmt.renameAll rest

def FunctionDecl.rename : FunctionDecl → FunctionDecl
  | ⟨name, parameters, body⟩ =>
    ⟨name.rename r, parameters.map (Name.rename r), Stmt.renameAll body⟩

def FunctionDecl.renameAll : List FunctionDecl → List FunctionDecl
  | [] => []
  | d :: rest => d.rename :: FunctionDecl.renameAll rest

end

end Definitions

@[simp] theorem Name.rename_text (r : Renaming) (name : Name) :
    (name.rename r).text = name.text := rfl

@[simp] theorem FunctionDecl.rename_name (r : Renaming) (d : FunctionDecl) :
    (d.rename r).name = d.name.rename r := by
  cases d
  rfl

@[simp] theorem FunctionDecl.rename_parameters (r : Renaming) (d : FunctionDecl) :
    (d.rename r).parameters = d.parameters.map (Name.rename r) := by
  cases d
  rfl

@[simp] theorem FunctionDecl.rename_body (r : Renaming) (d : FunctionDecl) :
    (d.rename r).body = Stmt.renameAll r d.body := by
  cases d
  rfl

theorem Expr.renameAll_eq (r : Renaming) (es : List Expr) :
    Expr.renameAll r es = es.map (Expr.rename r) := by
  induction es with
  | nil => rfl
  | cons e rest ih => rw [Expr.renameAll, ih, List.map_cons]

theorem Stmt.renameAll_eq (r : Renaming) (ss : List Stmt) :
    Stmt.renameAll r ss = ss.map (Stmt.rename r) := by
  induction ss with
  | nil => rfl
  | cons s rest ih => rw [Stmt.renameAll, ih, List.map_cons]

theorem FunctionDecl.renameAll_eq (r : Renaming) (ds : List FunctionDecl) :
    FunctionDecl.renameAll r ds = ds.map (FunctionDecl.rename r) := by
  induction ds with
  | nil => rfl
  | cons d rest ih => rw [FunctionDecl.renameAll, ih, List.map_cons]

/-! ## Renaming twice -/

section Twice

variable (r s : Renaming)

theorem Name.rename_rename (name : Name) :
    (name.rename s).rename r = name.rename (r.comp s) := rfl

theorem Occurrence.rename_rename (o : Occurrence) :
    (o.rename s).rename r = o.rename (r.comp s) := rfl

mutual

theorem Expr.rename_rename (e : Expr) : (e.rename s).rename r = e.rename (r.comp s) := by
  cases e with
  | literal | «variable» | this | super => rfl
  | group inner => simp only [rename, inner.rename_rename]
  | unary op line operand => simp only [rename, operand.rename_rename]; rfl
  | binary op line left right =>
    simp only [rename, left.rename_rename, right.rename_rename]; rfl
  | logical op left right =>
    simp only [rename, left.rename_rename, right.rename_rename]
  | assign target value => simp only [rename, value.rename_rename]; rfl
  | call callee line arguments =>
    simp only [rename, callee.rename_rename, Expr.renameAll_renameAll arguments]; rfl
  | get object name => simp only [rename, object.rename_rename]; rfl
  | set object name value =>
    simp only [rename, object.rename_rename, value.rename_rename]; rfl

theorem Expr.renameAll_renameAll (es : List Expr) :
    Expr.renameAll r (Expr.renameAll s es) = Expr.renameAll (r.comp s) es := by
  cases es with
  | nil => rfl
  | cons e rest =>
    simp only [renameAll, e.rename_rename, renameAll_renameAll rest]

end

theorem Expr.map_rename_rename (e : Option Expr) :
    (e.map (Expr.rename s)).map (Expr.rename r) = e.map (Expr.rename (r.comp s)) := by
  cases e with
  | none => rfl
  | some e => exact congrArg some (e.rename_rename r s)

mutual

/-- Renaming twice is renaming once by both. -/
theorem Stmt.rename_rename (t : Stmt) : (t.rename s).rename r = t.rename (r.comp s) := by
  cases t with
  | expression e | print e => simp only [Stmt.rename, e.rename_rename]
  | var name initializer => simp only [Stmt.rename, Expr.map_rename_rename]; rfl
  | block body => simp only [Stmt.rename, Stmt.renameAll_renameAll body]
  | branch condition yes no =>
    cases no with
    | none => simp only [Stmt.rename, condition.rename_rename, yes.rename_rename]
    | some no =>
      simp only [Stmt.rename, condition.rename_rename, yes.rename_rename, no.rename_rename]
  | loop condition body increment =>
    simp only [Stmt.rename, condition.rename_rename, body.rename_rename,
      Expr.map_rename_rename]
  | function declaration => simp only [Stmt.rename, declaration.rename_rename]
  | «return» line value => simp only [Stmt.rename, Expr.map_rename_rename]; rfl
  | «break» | «continue» => rfl
  | classDecl name superclass methods =>
    simp only [Stmt.rename, FunctionDecl.renameAll_renameAll methods, Option.map_map]; rfl

theorem Stmt.renameAll_renameAll (ss : List Stmt) :
    Stmt.renameAll r (Stmt.renameAll s ss) = Stmt.renameAll (r.comp s) ss := by
  cases ss with
  | nil => rfl
  | cons t rest =>
    simp only [Stmt.renameAll, t.rename_rename, Stmt.renameAll_renameAll rest]

theorem FunctionDecl.rename_rename (d : FunctionDecl) :
    (d.rename s).rename r = d.rename (r.comp s) := by
  obtain ⟨name, parameters, body⟩ := d
  simp only [FunctionDecl.rename, Stmt.renameAll_renameAll body, List.map_map]
  rfl

theorem FunctionDecl.renameAll_renameAll (ds : List FunctionDecl) :
    FunctionDecl.renameAll r (FunctionDecl.renameAll s ds) =
      FunctionDecl.renameAll (r.comp s) ds := by
  cases ds with
  | nil => rfl
  | cons d rest =>
    simp only [FunctionDecl.renameAll, d.rename_rename, FunctionDecl.renameAll_renameAll rest]

end

end Twice

/-! ## What matters of a renaming -/

section Congr

-- in a mutual block a theorem may use the variable through the others only
set_option linter.unusedSectionVars false

variable {r s : Renaming} (lines : r.line = s.line)
include lines

theorem Name.rename_congr (name : Name) : name.rename r = name.rename s := by
  simp only [rename, lines]

theorem Occurrence.rename_congr (o : Occurrence) (node : r.node o.id = s.node o.id) :
    o.rename r = o.rename s := by
  simp only [rename, node, Name.rename_congr lines]

mutual

theorem Expr.rename_congr (e : Expr) (nodes : ∀ id ∈ e.ids, r.node id = s.node id) :
    e.rename r = e.rename s := by
  cases e with
  | literal => rfl
  | group inner => simp only [rename, inner.rename_congr nodes]
  | unary op line operand => simp only [rename, operand.rename_congr nodes, lines]
  | binary op line left right | logical op left right =>
    rw [ids, List.forall_mem_append] at nodes
    simp only [rename, left.rename_congr nodes.1, right.rename_congr nodes.2, lines]
  | «variable» occurrence =>
    simp only [rename, occurrence.rename_congr lines (nodes _ List.mem_cons_self)]
  | assign target value =>
    rw [ids, List.forall_mem_append] at nodes
    simp only [rename, value.rename_congr nodes.1,
      target.rename_congr lines (nodes.2 _ List.mem_cons_self)]
  | call callee line arguments =>
    rw [ids, List.forall_mem_append] at nodes
    simp only [rename, callee.rename_congr nodes.1, Expr.renameAll_congr arguments nodes.2, lines]
  | get object name =>
    simp only [rename, object.rename_congr nodes, name.rename_congr lines]
  | set object name value =>
    rw [ids, List.forall_mem_append] at nodes
    simp only [rename, value.rename_congr nodes.1, object.rename_congr nodes.2,
      name.rename_congr lines]
  | this id line => simp only [rename, nodes _ List.mem_cons_self, lines]
  | super id line method =>
    simp only [rename, nodes _ List.mem_cons_self, lines, method.rename_congr lines]

theorem Expr.renameAll_congr (es : List Expr)
    (nodes : ∀ id ∈ Expr.idsOfAll es, r.node id = s.node id) :
    Expr.renameAll r es = Expr.renameAll s es := by
  cases es with
  | nil => rfl
  | cons e rest =>
    rw [idsOfAll, List.forall_mem_append] at nodes
    simp only [renameAll, e.rename_congr nodes.1, renameAll_congr rest nodes.2]

end

theorem Expr.map_rename_congr (e : Option Expr)
    (nodes : ∀ id ∈ Expr.idsOf? e, r.node id = s.node id) :
    e.map (Expr.rename r) = e.map (Expr.rename s) := by
  cases e with
  | none => rfl
  | some e => exact congrArg some (e.rename_congr lines nodes)

mutual

/-- Renamings that agree on the identities of a statement rename it alike. -/
theorem Stmt.rename_congr (t : Stmt) (nodes : ∀ id ∈ t.ids, r.node id = s.node id) :
    t.rename r = t.rename s := by
  cases t with
  | expression e | print e => simp only [Stmt.rename, e.rename_congr lines nodes]
  | var name initializer =>
    simp only [Stmt.rename, Expr.map_rename_congr lines initializer nodes, name.rename_congr lines]
  | block body => simp only [Stmt.rename, Stmt.renameAll_congr body nodes]
  | branch condition yes no =>
    cases no with
    | none =>
      rw [Stmt.ids, List.forall_mem_append] at nodes
      simp only [Stmt.rename, condition.rename_congr lines nodes.1, yes.rename_congr nodes.2]
    | some no =>
      rw [Stmt.ids, List.forall_mem_append, List.forall_mem_append] at nodes
      simp only [Stmt.rename, condition.rename_congr lines nodes.1, yes.rename_congr nodes.2.1,
        no.rename_congr nodes.2.2]
  | loop condition body increment =>
    rw [Stmt.ids, List.forall_mem_append, List.forall_mem_append] at nodes
    simp only [Stmt.rename, condition.rename_congr lines nodes.1, body.rename_congr nodes.2.1,
      Expr.map_rename_congr lines increment nodes.2.2]
  | function declaration => simp only [Stmt.rename, declaration.rename_congr nodes]
  | «return» line value =>
    simp only [Stmt.rename, Expr.map_rename_congr lines value nodes, lines]
  | «break» line | «continue» line => simp only [Stmt.rename, lines]
  | classDecl name superclass methods =>
    cases superclass with
    | none =>
      simp only [Stmt.rename, FunctionDecl.renameAll_congr methods nodes, name.rename_congr lines]
      rfl
    | some superclass =>
      rw [Stmt.ids, List.forall_mem_cons] at nodes
      simp only [Stmt.rename, FunctionDecl.renameAll_congr methods nodes.2, name.rename_congr lines,
        Option.map_some, Option.map_some, superclass.rename_congr lines nodes.1]

theorem Stmt.renameAll_congr (ss : List Stmt)
    (nodes : ∀ id ∈ Stmt.idsOfAll ss, r.node id = s.node id) :
    Stmt.renameAll r ss = Stmt.renameAll s ss := by
  cases ss with
  | nil => rfl
  | cons t rest =>
    rw [Stmt.idsOfAll, List.forall_mem_append] at nodes
    simp only [Stmt.renameAll, t.rename_congr nodes.1, Stmt.renameAll_congr rest nodes.2]

theorem FunctionDecl.rename_congr (d : FunctionDecl)
    (nodes : ∀ id ∈ d.ids, r.node id = s.node id) : d.rename r = d.rename s := by
  obtain ⟨name, parameters, body⟩ := d
  have names : Name.rename r = Name.rename s := funext fun name => name.rename_congr lines
  simp only [FunctionDecl.rename, Stmt.renameAll_congr body nodes, names]

theorem FunctionDecl.renameAll_congr (ds : List FunctionDecl)
    (nodes : ∀ id ∈ FunctionDecl.idsOfAll ds, r.node id = s.node id) :
    FunctionDecl.renameAll r ds = FunctionDecl.renameAll s ds := by
  cases ds with
  | nil => rfl
  | cons d rest =>
    rw [FunctionDecl.idsOfAll, List.forall_mem_append] at nodes
    simp only [FunctionDecl.renameAll, d.rename_congr nodes.1,
      FunctionDecl.renameAll_congr rest nodes.2]

end

end Congr

/-! ## The renaming that changes nothing -/

mutual

@[simp] theorem Expr.rename_same (e : Expr) : e.rename .same = e := by
  cases e with
  | literal | «variable» | this | super => rfl
  | group inner => simp only [rename, inner.rename_same]
  | unary op line operand => simp only [rename, operand.rename_same]; rfl
  | binary op line left right => simp only [rename, left.rename_same, right.rename_same]; rfl
  | logical op left right => simp only [rename, left.rename_same, right.rename_same]
  | assign target value => simp only [rename, value.rename_same]; rfl
  | call callee line arguments =>
    simp only [rename, callee.rename_same, Expr.renameAll_same arguments]; rfl
  | get object name => simp only [rename, object.rename_same]; rfl
  | set object name value => simp only [rename, object.rename_same, value.rename_same]; rfl

@[simp] theorem Expr.renameAll_same (es : List Expr) : Expr.renameAll .same es = es := by
  cases es with
  | nil => rfl
  | cons e rest => simp only [renameAll, e.rename_same, renameAll_same rest]

end

theorem Expr.map_rename_same (e : Option Expr) : e.map (Expr.rename .same) = e := by
  cases e with
  | none => rfl
  | some e => exact congrArg some e.rename_same

theorem Name.rename_same : Name.rename .same = id := rfl

mutual

/-- Renaming by nothing leaves a statement as it is. -/
@[simp] theorem Stmt.rename_same (t : Stmt) : t.rename .same = t := by
  cases t with
  | expression e | print e => simp only [Stmt.rename, e.rename_same]
  | var name initializer => rw [Stmt.rename, Expr.map_rename_same]; rfl
  | block body => simp only [Stmt.rename, Stmt.renameAll_same body]
  | branch condition yes no =>
    cases no with
    | none => simp only [Stmt.rename, condition.rename_same, yes.rename_same]
    | some no => simp only [Stmt.rename, condition.rename_same, yes.rename_same, no.rename_same]
  | loop condition body increment =>
    simp only [Stmt.rename, condition.rename_same, body.rename_same, Expr.map_rename_same]
  | function declaration => simp only [Stmt.rename, declaration.rename_same]
  | «return» line value => rw [Stmt.rename, Expr.map_rename_same]; rfl
  | «break» | «continue» => rfl
  | classDecl name superclass methods =>
    simp only [Stmt.rename, FunctionDecl.renameAll_same methods]
    cases superclass <;> rfl

@[simp] theorem Stmt.renameAll_same (ss : List Stmt) : Stmt.renameAll .same ss = ss := by
  cases ss with
  | nil => rfl
  | cons t rest => simp only [Stmt.renameAll, t.rename_same, Stmt.renameAll_same rest]

@[simp] theorem FunctionDecl.rename_same (d : FunctionDecl) : d.rename .same = d := by
  obtain ⟨name, parameters, body⟩ := d
  simp only [FunctionDecl.rename, Stmt.renameAll_same body, Name.rename_same, List.map_id]
  rfl

@[simp] theorem FunctionDecl.renameAll_same (ds : List FunctionDecl) :
    FunctionDecl.renameAll .same ds = ds := by
  cases ds with
  | nil => rfl
  | cons d rest =>
    simp only [FunctionDecl.renameAll, d.rename_same, FunctionDecl.renameAll_same rest]

end

end ClassScript.Syntax
