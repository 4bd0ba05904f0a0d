import ClassScript.Proofs.Parsing.Recognition
import ClassScript.Proofs.Source.Joined

/-!
# Trees of other tokens

Tokens on other lines have the same tree with other lines, and where identities are drawn
from another number on, the same tree with other identities (`Tree.rename`). So whether
tokens are a program depends on their kinds and texts alone. Declarations behind others
have their trees one behind the other (`Tree.append`).
-/

namespace ClassScript.Parsing

open Source Syntax

section Definitions

variable (r : Renaming)

def Phrase.rename : Phrase → Phrase
  | primary e => primary (e.rename r)
  | callRest subject e => callRest (subject.rename r) (e.rename r)
  | call e => call (e.rename r)
  | arguments es => arguments (Expr.renameAll r es)
  | moreArguments es => moreArguments (Expr.renameAll r es)
  | unary e => unary (e.rename r)
  | chainRest level left e => chainRest level (left.rename r) (e.rename r)
  | chain level e => chain level (e.rename r)
  | assignment e => assignment (e.rename r)
  | optional e => optional (e.map (Expr.rename r))
  | «variable» s => «variable» (s.rename r)
  | expressionStatement s => expressionStatement (s.rename r)
  | initializer s => initializer (s.map (Stmt.rename r))
  | statement isOpen s => statement isOpen (s.rename r)
  | declaration s => declaration (s.rename r)
  | declarations ss => declarations (Stmt.renameAll r ss)
  | parameters names => parameters (names.map (Name.rename r))
  | moreParameters names => moreParameters (names.map (Name.rename r))
  | function d => function (d.rename r)
  | methods ds => methods (FunctionDecl.renameAll r ds)
  | superclass o => superclass (o.map (Occurrence.rename r))

end Definitions

theorem Phrase.rename_operand (r : Renaming) (level : Level) (e : Expr) :
    (operand level e).rename r = operand level (e.rename r) := by
  cases level <;> rfl

theorem InfixOp.rename_join (r : Renaming) (op : InfixOp) (line : Nat) (left right : Expr) :
    (op.join line left right).rename r =
      op.join (r.line line) (left.rename r) (right.rename r) := by
  cases op <;> rfl

theorem Joins.rename {t : Token} {left right node : Expr} {level : Level}
    (joins : Joins t left right level node) (r : Renaming) :
    Joins (t.rename r) (left.rename r) (right.rename r) level (node.rename r) := by
  cases joins with
  | logical sign => exact .logical sign
  | binary sign => exact .binary sign

theorem rename_denotes {t : Token} {value : Literal} (constant : t.Denotes value)
    (r : Renaming) : (t.rename r).Denotes value := by
  cases constant <;> constructor <;> assumption

theorem rename_countingLoop (r : Renaming) (initializer : Option Stmt) (condition : Expr)
    (body : Stmt) (increment : Option Expr) :
    (countingLoop initializer condition body increment).rename r =
      countingLoop (initializer.map (Stmt.rename r)) (condition.rename r) (body.rename r)
        (increment.map (Expr.rename r)) := by
  cases initializer <;> rfl

theorem rename_condition (r : Renaming) (condition : Option Expr) :
    (condition.getD (.literal (.bool true))).rename r =
      (condition.map (Expr.rename r)).getD (.literal (.bool true)) := by
  cases condition <;> rfl

/-- Identities are drawn upward. -/
theorem Tree.le {n n' : Nat} {ts : List Token} {p : Phrase} (tree : Tree n ts p n') :
    n ≤ n' := by
  induction tree <;> omega

/-- The tree of the tokens on other lines, with identities from another number on. What
the renaming does to identities that were drawn before does not matter. -/
theorem Tree.rename {r : Renaming} {base : NodeId}
    (shifts : ∀ id, base ≤ id → r.node (id + 1) = r.node id + 1) {n n' : NodeId}
    {ts : List Token} {p : Phrase} (tree : Tree n ts p n') (behind : base ≤ n) :
    Tree (r.node n) (ts.map (Token.rename r)) (p.rename r) (r.node n') := by
  induction tree with
  | literal constant => exact .literal (rename_denotes constant r)
  -- where an identity is drawn the counter goes up by one, and so does its image
  | this keyword =>
    rw [shifts _ behind]
    exact .this keyword
  | super keyword separator name =>
    rw [shifts _ behind]
    exact .super keyword separator name
  | identifier name =>
    rw [shifts _ behind]
    exact .identifier name
  | group opens inner closes ih =>
    simp only [List.map_append, List.map_cons, List.map_nil]
    exact .group opens (ih behind) closes
  | uncalled => exact .uncalled
  -- a later part starts behind the earlier ones, hence behind the base as well
  | called opens arguments closes rest ih ih' =>
    simp only [List.map_append, List.map_cons]
    exact .called opens (ih behind) closes (ih' (Nat.le_trans behind arguments.le))
  | property separator name rest ih => exact .property separator name (ih behind)
  | call first rest ih ih' =>
    rw [List.map_append]
    exact .call (ih behind) (ih' (Nat.le_trans behind first.le))
  | noArguments => exact .noArguments
  | arguments first more few ih ih' =>
    rw [List.map_append]
    refine .arguments (ih behind) (ih' (Nat.le_trans behind first.le)) ?_
    rwa [Expr.renameAll_eq, List.length_map]
  | noMoreArguments => exact .noMoreArguments
  | moreArguments separator first more ih ih' =>
    simp only [List.map_append, List.map_cons]
    exact .moreArguments separator (ih behind) (ih' (Nat.le_trans behind first.le))
  | operated sign operand ih => exact .operated sign (ih behind)
  | unary call ih => exact .unary (ih behind)
  | unjoined => exact .unjoined
  | joined joins operand rest ih ih' =>
    simp only [List.map_append, List.map_cons]
    exact .joined (joins.rename r) (Phrase.rename_operand r .. ▸ ih behind)
      (ih' (Nat.le_trans behind operand.le))
  | chain first rest ih ih' =>
    rw [List.map_append]
    exact .chain (Phrase.rename_operand r .. ▸ ih behind)
      (ih' (Nat.le_trans behind first.le))
  | unassigned chain ih => exact .unassigned (ih behind)
  | @assigned n t equals ts e n₁ name sign value ih =>
    -- an assignment draws two: before the value and behind it
    have value' := ih (Nat.le_succ_of_le behind)
    rw [shifts _ behind] at value'
    rw [shifts _ (Nat.le_trans (Nat.le_succ_of_le behind) value.le)]
    exact .assigned name sign value'
  | set owner separator name sign value ih ih' =>
    simp only [List.map_append, List.map_cons]
    exact .set (ih behind) separator name sign (ih' (Nat.le_trans behind owner.le))
  | leftOut => exact .leftOut
  | given given ih => exact .given (ih behind)
  | uninitialized name ends => exact .uninitialized name ends
  | initialized name sign value ends ih =>
    simp only [List.map_append, List.map_cons, List.map_nil]
    exact .initialized name sign (ih behind) ends
  | expression inner ends ih =>
    simp only [List.map_append, List.map_cons, List.map_nil]
    exact .expression (ih behind) ends
  | noInitializer ends => exact .noInitializer ends
  | variableInitializer keyword declared ih => exact .variableInitializer keyword (ih behind)
  | expressionInitializer inner ih => exact .expressionInitializer (ih behind)
  | expressionStatement inner ih => exact .expressionStatement (ih behind)
  | forLoop keyword opens first test ends step closes inner counts ih ih₁ ih₂ ih₃ =>
    obtain rfl := counts_iff.mp counts
    have test' := Nat.le_trans behind first.le
    have step' := Nat.le_trans test' test.le
    simp only [List.map_append, List.map_cons]
    refine .forLoop keyword opens (ih behind) (ih₁ test') ends (ih₂ step') closes
      (ih₃ (Nat.le_trans step' step.le)) (counts_iff.mpr ?_)
    -- the loop built from renamed clauses is the renamed loop
    rw [rename_countingLoop, rename_condition]
  | ifThen keyword opens test closes branch ih ih' =>
    simp only [List.map_append, List.map_cons]
    exact .ifThen keyword opens (ih behind) closes (ih' (Nat.le_trans behind test.le))
  | ifElse keyword opens test closes first otherwise second ih ih₁ ih₂ =>
    have first' := Nat.le_trans behind test.le
    simp only [List.map_append, List.map_cons]
    exact .ifElse keyword opens (ih behind) closes (ih₁ first') otherwise
      (ih₂ (Nat.le_trans first' first.le))
  | whileLoop keyword opens test closes inner ih ih' =>
    simp only [List.map_append, List.map_cons]
    exact .whileLoop keyword opens (ih behind) closes (ih' (Nat.le_trans behind test.le))
  | returns keyword value ends ih =>
    simp only [List.map_append, List.map_cons, List.map_nil]
    exact .returns keyword (ih behind) ends
  | breaks keyword ends => exact .breaks keyword ends
  | continues keyword ends => exact .continues keyword ends
  | block opens inner closes ih =>
    simp only [List.map_append, List.map_cons, List.map_nil]
    exact .block opens (ih behind) closes
  | print keyword value ends ih =>
    simp only [List.map_append, List.map_cons, List.map_nil]
    exact .print keyword (ih behind) ends
  | classDecl keyword named parent opens inner closes ih ih' =>
    simp only [List.map_append, List.map_cons, List.map_nil]
    exact .classDecl keyword named (ih behind) opens (ih' (Nat.le_trans behind parent.le)) closes
  | funDecl keyword declared ih => exact .funDecl keyword (ih behind)
  | varDecl keyword declared ih => exact .varDecl keyword (ih behind)
  | statement inner ih => exact .statement (ih behind)
  | noDeclarations => exact .noDeclarations
  | declarations first rest ih ih' =>
    rw [List.map_append]
    exact .declarations (ih behind) (ih' (Nat.le_trans behind first.le))
  | noSuperclass => exact .noSuperclass
  | superclass sign name =>
    rw [shifts _ behind]
    exact .superclass sign name
  | noMethods => exact .noMethods
  | methods first rest ih ih' =>
    rw [List.map_append]
    exact .methods (ih behind) (ih' (Nat.le_trans behind first.le))
  | function name opens list closes begins inner ends ih ih' =>
    simp only [List.map_append, List.map_cons, List.map_nil]
    exact .function name opens (ih behind) closes begins (ih' (Nat.le_trans behind list.le)) ends
  | noParameters => exact .noParameters
  | parameters name more few ih =>
    exact .parameters name (ih behind) (by rwa [List.length_map])
  | noMoreParameters => exact .noMoreParameters
  | moreParameters separator name more ih => exact .moreParameters separator name (ih behind)

/-- Whatever identities were drawn before, the tokens have the same tree, with identities
from there on. -/
theorem Tree.move {n n' : NodeId} {ts : List Token} {p : Phrase} (tree : Tree n ts p n')
    (start : NodeId) : Tree start ts (p.rename (.ofNodes fun id => id - n + start))
      (n' - n + start) := by
  let move : Renaming := .ofNodes fun id => id - n + start
  have shifts : ∀ id, n ≤ id → move.node (id + 1) = move.node id + 1 := by
    intro id behind
    show id + 1 - n + start = id - n + start + 1
    rw [Nat.sub_add_comm behind, Nat.add_right_comm]
  have moved := tree.rename shifts (Nat.le_refl n)
  have first : move.node n = start := by
    show n - n + start = start
    rw [Nat.sub_self, Nat.zero_add]
  have lines : Token.rename move = id := rfl
  rwa [first, lines, List.map_id] at moved

/-- Declarations behind others. -/
theorem Tree.append {n n₁ n₂ : NodeId} {ts us : List Token} {ss more : List Stmt}
    (first : Tree n ts (.declarations ss) n₁) (second : Tree n₁ us (.declarations more) n₂) :
    Tree n (ts ++ us) (.declarations (ss ++ more)) n₂ := by
  generalize shape : Phrase.declarations ss = p at first
  induction first generalizing ss with
  | noDeclarations =>
    cases shape
    exact second
  | declarations head _ _ ih =>
    cases shape
    rw [List.append_assoc]
    exact .declarations head (ih second rfl)
  | _ => cases shape

end ClassScript.Parsing
