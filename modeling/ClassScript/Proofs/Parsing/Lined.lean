import ClassScript.Proofs.Parsing.Tree

/-!
# The lines that a tree keeps

A tree keeps lines of the tokens that it is made of, each for one purpose: an operator keeps
its own line, a call that of its closing parenthesis, a keyword that of the keyword, and a
name the line and the text of the identifier. `Lined` says so of every node, and the trees of
texts are such (`Tree.lined`).
-/

namespace ClassScript.Source

open Syntax

/-- A token of this kind stands on the line. -/
def HasLine (ts : List Token) (kind : Kind) (line : Nat) : Prop :=
  ∃ t ∈ ts, t.kind = kind ∧ t.line = line

/-- The name is an identifier among the tokens. -/
def HasName (ts : List Token) (name : Name) : Prop :=
  ∃ t ∈ ts, t.kind = .identifier ∧ t.asName = name

theorem hasLine {ts : List Token} {t : Token} {kind : Kind} (among : t ∈ ts)
    (same : t.kind = kind) : HasLine ts kind t.line := ⟨t, among, same, rfl⟩

theorem hasName {ts : List Token} {t : Token} (among : t ∈ ts) (name : t.kind = .identifier) :
    HasName ts t.asName := ⟨t, among, name, rfl⟩

end ClassScript.Source

namespace ClassScript.Syntax

open Source

mutual

/-- Every node of the expression keeps the line of a token of its own kind. -/
def Expr.Lined (ts : List Token) : Expr → Prop
  | .literal _ => True
  | .group inner => inner.Lined ts
  | .unary op line operand => HasLine ts op.kind line ∧ operand.Lined ts
  | .binary op line left right => HasLine ts op.kind line ∧ left.Lined ts ∧ right.Lined ts
  | .logical _ left right => left.Lined ts ∧ right.Lined ts
  | .variable occurrence => HasName ts occurrence.name
  | .assign target value => HasName ts target.name ∧ value.Lined ts
  | .call callee line arguments =>
    HasLine ts .rightParen line ∧ callee.Lined ts ∧ Expr.AllLined ts arguments
  | .get object name => HasName ts name ∧ object.Lined ts
  | .set object name value => HasName ts name ∧ object.Lined ts ∧ value.Lined ts
  | .this _ line => HasLine ts .this line
  | .super _ line method => HasLine ts .super line ∧ HasName ts method

def Expr.AllLined (ts : List Token) : List Expr → Prop
  | [] => True
  | e :: rest => e.Lined ts ∧ Expr.AllLined ts rest

end

def Expr.Lined? (ts : List Token) (e : Option Expr) : Prop := ∀ e' ∈ e, Expr.Lined ts e'

mutual

/-- Every node of the statement keeps the line of a token of its own kind. -/
def Stmt.Lined (ts : List Token) : Stmt → Prop
  | .expression e => e.Lined ts
  | .print e => e.Lined ts
  | .var name initializer => HasName ts name ∧ Expr.Lined? ts initializer
  | .block body => Stmt.AllLined ts body
  | .branch condition yes none => condition.Lined ts ∧ yes.Lined ts
  | .branch condition yes (some no) => condition.Lined ts ∧ yes.Lined ts ∧ no.Lined ts
  | .loop condition body increment =>
    condition.Lined ts ∧ body.Lined ts ∧ Expr.Lined? ts increment
  | .function declaration => declaration.Lined ts
  | .return line value => HasLine ts .return line ∧ Expr.Lined? ts value
  | .break line => HasLine ts .break line
  | .continue line => HasLine ts .continue line
  | .classDecl name none methods => HasName ts name ∧ FunctionDecl.AllLined ts methods
  | .classDecl name (some superclass) methods =>
    HasName ts name ∧ HasName ts superclass.name ∧ FunctionDecl.AllLined ts methods

def Stmt.AllLined (ts : List Token) : List Stmt → Prop
  | [] => True
  | s :: rest => s.Lined ts ∧ Stmt.AllLined ts rest

def FunctionDecl.Lined (ts : List Token) : FunctionDecl → Prop
  | ⟨name, parameters, body⟩ =>
    HasName ts name ∧ (∀ p ∈ parameters, HasName ts p) ∧ Stmt.AllLined ts body

def FunctionDecl.AllLined (ts : List Token) : List FunctionDecl → Prop
  | [] => True
  | d :: rest => d.Lined ts ∧ FunctionDecl.AllLined ts rest

end

end ClassScript.Syntax

namespace ClassScript.Parsing

open Source Syntax

/-- Every node in what the tokens are read as keeps the line of a token of its own kind, if
the nodes in what stands before do. -/
def Phrase.Lined (ts : List Token) : Phrase → Prop
  | primary e | call e | unary e | chain _ e | assignment e => e.Lined ts
  | callRest subject e => subject.Lined ts → e.Lined ts
  | chainRest _ left e => left.Lined ts → e.Lined ts
  | arguments es | moreArguments es => Expr.AllLined ts es
  | optional e => Expr.Lined? ts e
  | «variable» s | expressionStatement s | statement _ s | declaration s => s.Lined ts
  | initializer s => ∀ s' ∈ s, Stmt.Lined ts s'
  | declarations ss => Stmt.AllLined ts ss
  | parameters names | moreParameters names => ∀ name ∈ names, HasName ts name
  | function d => d.Lined ts
  | methods ds => FunctionDecl.AllLined ts ds
  | superclass o => ∀ o' ∈ o, HasName ts o'.name

theorem Phrase.lined_operand {ts : List Token} {level : Level} {e : Expr} :
    (operand level e).Lined ts ↔ e.Lined ts := by
  cases level <;> rfl

/-- An operator keeps its own line, and no other. -/
theorem Joins.lined {ts : List Token} {t : Token} {left right node : Expr} {level : Level}
    (joins : Joins t left right level node) (among : t ∈ ts) (before : left.Lined ts)
    (behind : right.Lined ts) : node.Lined ts := by
  cases joins with
  | logical => exact ⟨before, behind⟩
  | binary sign => exact ⟨hasLine among sign, before, behind⟩

/-- The loop that a loop with clauses stands for has no line of its own. -/
theorem Counts.lined {ts : List Token} {condition increment : Option Expr} {body s : Stmt}
    {initializer : Option Stmt} (counts : Counts condition increment body initializer s)
    (first : ∀ s' ∈ initializer, Stmt.Lined ts s') (test : Expr.Lined? ts condition)
    (inner : body.Lined ts) (step : Expr.Lined? ts increment) : s.Lined ts := by
  have condition : (condition.getD (.literal (.bool true))).Lined ts := by
    cases condition with
    | none => trivial
    | some e => exact test e rfl
  cases counts with
  | bare => exact ⟨condition, inner, step⟩
  | block => exact ⟨first _ rfl, ⟨condition, inner, step⟩, trivial⟩

/-- A text is read as a tree that keeps lines of its tokens, each node that of its own. -/
theorem Tree.lined {n n' : NodeId} {ts whole : List Token} {p : Phrase} (tree : Tree n ts p n')
    (part : ts ⊆ whole) : p.Lined whole := by
  induction tree with try simp only [List.append_subset, List.cons_subset, List.nil_subset,
    and_assoc, and_true] at part
  -- tokens that nothing of the tree keeps, or nothing at all
  | literal | noArguments | noMoreArguments | noDeclarations | noMethods => trivial
  | leftOut | noInitializer | noSuperclass | noParameters | noMoreParameters => nofun
  | uncalled | unjoined => exact id
  -- expressions
  | this keyword => exact hasLine part keyword
  | «super» keyword _ name => exact ⟨hasLine part.1 keyword, hasName part.2.2 name⟩
  | identifier name => exact hasName part name
  | group _ _ _ ih => exact ih part.2.1
  | called _ _ closes _ ih ih' =>
    exact fun before => ih' part.2.2.2 ⟨hasLine part.2.2.1 closes, before, ih part.2.1⟩
  | property _ name _ ih =>
    exact fun before => ih part.2.2 ⟨hasName part.2.1 name, before⟩
  | call _ _ ih ih' => exact ih' part.2 (ih part.1)
  | operated sign _ ih => exact ⟨hasLine part.1 sign, ih part.2⟩
  | joined joins _ _ ih ih' =>
    intro before
    have operand := Phrase.lined_operand.mp (ih part.2.1)
    exact ih' part.2.2 (joins.lined part.1 before operand)
  | chain _ _ ih ih' => exact ih' part.2 (Phrase.lined_operand.mp (ih part.1))
  | assigned name _ _ ih => exact ⟨hasName part.1 name, ih part.2.2⟩
  | set _ _ name _ _ ih ih' => exact ⟨hasName part.2.2.1 name, ih part.1, ih' part.2.2.2.2⟩
  | arguments _ _ _ ih ih' => exact ⟨ih part.1, ih' part.2⟩
  | moreArguments _ _ _ ih ih' => exact ⟨ih part.2.1, ih' part.2.2⟩
  | unary _ ih | unassigned _ ih => exact ih part
  | given _ ih =>
    rintro _ ⟨⟩
    exact ih part
  -- statements
  | uninitialized name => exact ⟨hasName part.1 name, nofun⟩
  | initialized name _ _ _ ih =>
    refine ⟨hasName part.1 name, ?_⟩
    rintro _ ⟨⟩
    exact ih part.2.2.1
  | expression _ _ ih => exact ih part.1
  | variableInitializer _ _ ih =>
    rintro _ ⟨⟩
    exact ih part.2
  | expressionInitializer _ ih =>
    rintro _ ⟨⟩
    exact ih part
  | expressionStatement _ ih | statement _ ih => exact ih part
  | forLoop _ _ _ _ _ _ _ _ counts ih ih' ih'' body =>
    obtain ⟨-, -, first, test, -, step, -, inner⟩ := part
    exact counts.lined (ih first) (ih' test) (body inner) (ih'' step)
  | ifThen _ _ _ _ _ ih ih' => exact ⟨ih part.2.2.1, ih' part.2.2.2.2⟩
  | ifElse _ _ _ _ _ _ _ ih ih' ih'' =>
    obtain ⟨-, -, test, -, yes, -, no⟩ := part
    exact ⟨ih test, ih' yes, ih'' no⟩
  | whileLoop _ _ _ _ _ ih ih' => exact ⟨ih part.2.2.1, ih' part.2.2.2.2, nofun⟩
  | returns keyword _ _ ih => exact ⟨hasLine part.1 keyword, ih part.2.1⟩
  | breaks keyword | continues keyword => exact hasLine part.1 keyword
  | block _ _ _ ih | print _ _ _ ih => exact ih part.2.1
  -- declarations
  | @classDecl _ _ _ _ superclass _ _ _ _ _ _ _ named _ _ _ _ ih ih' =>
    obtain ⟨-, name, parent, -, methods, -⟩ := part
    cases superclass with
    | none => exact ⟨hasName name named, ih' methods⟩
    | some o => exact ⟨hasName name named, ih parent _ rfl, ih' methods⟩
  | funDecl _ _ ih | varDecl _ _ ih => exact ih part.2
  | declarations _ _ ih ih' | methods _ _ ih ih' => exact ⟨ih part.1, ih' part.2⟩
  | superclass _ name =>
    rintro _ ⟨⟩
    exact hasName part.2 name
  | function name _ _ _ _ _ _ ih ih' =>
    obtain ⟨named, -, list, -, -, body, -⟩ := part
    exact ⟨hasName named name, ih list, ih' body⟩
  | parameters name _ _ ih => exact List.forall_mem_cons.mpr ⟨hasName part.1 name, ih part.2⟩
  | moreParameters _ name _ ih =>
    exact List.forall_mem_cons.mpr ⟨hasName part.2.1 name, ih part.2.2⟩

end ClassScript.Parsing
