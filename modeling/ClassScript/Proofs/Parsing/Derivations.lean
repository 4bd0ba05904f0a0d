import ClassScript.Proofs.Parsing.Grammar
import ClassScript.Proofs.Parsing.Recognition

/-!
# Trees and derivations

Tokens have a tree if and only if the grammar derives their kinds. A tree is a derivation
(`Tree.derives`). Conversely a derivation is read rule by rule (`Means`), and the only
place where it leaves a choice is an `else` behind more than one open `if`: there the tree
takes the nearest one (`attach`).
-/

namespace ClassScript.Parsing

open Source Syntax Rule

/-! ## From trees to derivations -/

/-- What a phrase is in the grammar. -/
def Phrase.rule : Phrase → Rule
  | .primary _ => .named .primary
  | .callRest _ _ =>
    .many (any [all [.token .leftParen, .optional (.named .arguments), .token .rightParen],
      all [.token .dot, .token .identifier]])
  | .call _ => .named .call
  | .arguments _ => .optional (.named .arguments)
  | .moreArguments es => .upTo es.length (all [.token .comma, .named .expression])
  | .unary _ => .named .unary
  | .chainRest level _ _ =>
    .many (all [anyToken (operators level), .named (operandRule level)])
  | .chain level _ => .named (.level level)
  | .assignment _ => .named .expression
  | .optional _ => .optional (.named .expression)
  | .variable _ =>
    all [.token .identifier, .optional (all [.token .equal, .named .expression]),
      .token .semicolon]
  | .expressionStatement _ => .named .exprStmt
  | .initializer _ => any [.named .varDecl, .named .exprStmt, .token .semicolon]
  | .statement _ _ => .named .statement
  | .declaration _ => .named .declaration
  | .declarations _ => .many (.named .declaration)
  | .parameters _ => .optional (.named .parameters)
  | .moreParameters names => .upTo names.length (all [.token .comma, .token .identifier])
  | .function _ => .named .function
  | .methods _ => .many (.named .function)
  | .superclass _ => .optional (all [.token .less, .token .identifier])

/-- The rules derive the kinds of the tokens one after another. -/
def Spells (rules : List Rule) (ts : List Token) : Prop :=
  Derives (all rules) (ts.map Token.kind)

namespace Spells

variable {rule : Rule} {rules : List Rule} {t : Token} {ts us : List Token}

theorem nil : Spells [] [] := .empty

theorem token {kind : Kind} (same : t.kind = kind) (rest : Spells rules ts) :
    Spells (.token kind :: rules) (t :: ts) := by
  subst same
  exact .seq (.token _) rest

theorem cons (first : Derives rule (ts.map Token.kind)) (rest : Spells rules us) :
    Spells (rule :: rules) (ts ++ us) := by
  unfold Spells
  rw [List.map_append]
  exact .seq first rest

theorem single (first : Derives rule [t.kind]) (rest : Spells rules ts) :
    Spells (rule :: rules) (t :: ts) := .seq first rest

/-- What is left out leaves no token. -/
theorem skip (rest : Spells rules ts) : Spells (.optional rule :: rules) ts :=
  .seq .absent rest

theorem last (only : Derives rule (ts.map Token.kind)) : Spells [rule] ts := by
  have := cons only nil
  rwa [List.append_nil] at this

end Spells

/-- An alternative that derives a text derives it as the choice. -/
theorem derives_any {rule : Rule} {rules : List Rule} {text : List Kind} (among : rule ∈ rules)
    (derives : Derives rule text) : Derives (any rules) text := by
  induction rules with
  | nil => cases among
  | cons first rest ih =>
    rcases List.mem_cons.mp among with rfl | later
    · exact .left derives
    · exact .right (ih later)

theorem derives_token {t : Token} {kind : Kind} (same : t.kind = kind) :
    Derives (.token kind) ([t].map Token.kind) := by
  subst same
  exact .token _

/-- One more repetition before a row of them. -/
theorem derives_more {rule : Rule} {ts us : List Token} (first : Derives rule (ts.map Token.kind))
    (rest : Derives (.many rule) (us.map Token.kind)) :
    Derives (.many rule) ((ts ++ us).map Token.kind) := by
  rw [List.map_append]
  exact .more first rest

/-- One more element before a row with a bound, whose bound grows by one. -/
theorem derives_step {rule : Rule} {bound : Nat} {ts us : List Token}
    (first : Derives rule (ts.map Token.kind))
    (rest : Derives (.upTo bound rule) (us.map Token.kind)) :
    Derives (.upTo (bound + 1) rule) ((ts ++ us).map Token.kind) := by
  rw [List.map_append]
  exact .step first rest

theorem derives_anyToken {kind : Kind} {kinds : List Kind} (among : kind ∈ kinds) :
    Derives (anyToken kinds) [kind] :=
  derives_any (List.mem_map_of_mem among) (.token kind)

/-- A bound may be higher. -/
theorem derives_upTo {bound bound' : Nat} {inner : Rule} {text : List Kind}
    (derives : Derives (.upTo bound inner) text) (le : bound ≤ bound') :
    Derives (.upTo bound' inner) text := by
  generalize shape : Rule.upTo bound inner = rule at derives
  induction derives generalizing bound bound' with
  | stop => exact .stop
  | step first _ _ ih =>
    cases shape
    obtain ⟨less, rfl⟩ : ∃ less, bound' = less + 1 := ⟨bound' - 1, by omega⟩
    exact .step first (ih (Nat.le_of_succ_le_succ le) rfl)
  | _ => cases shape

theorem prefix_mem (op : UnaryOp) : op.kind ∈ [Kind.bang, .minus] := by
  cases op <;> decide

theorem InfixOp.kind_mem (op : InfixOp) : op.kind ∈ operators op.level := by
  rcases op with op | op <;> cases op <;> decide

theorem Joins.kind_mem {t : Token} {left right node : Expr} {level : Level}
    (joins : Joins t left right level node) : t.kind ∈ operators level := by
  cases joins with
  | logical sign | binary sign => exact sign ▸ InfixOp.kind_mem _

/-- What an operand is in the grammar. -/
theorem rule_operand (level : Level) (e : Expr) :
    (Phrase.operand level e).rule = .named (operandRule level) := by
  cases level <;> rfl

theorem denotes_mem {t : Token} {value : Literal} (constant : t.Denotes value) :
    t.kind ∈ [.number, .string, .true, .false, .nil, .this, .identifier] := by
  rcases constant with same | same | same | same | same <;> rw [same] <;> decide

/-- What an expression derives is derived as an assignment. -/
theorem derives_assignment {text : List Kind} (derives : Derives (.named .expression) text) :
    Derives (.named .assignment) text := by
  cases derives with
  | named body => exact body

/-- A statement by the rule of its own. -/
theorem derives_statement (name : Nonterminal) {ts : List Token}
    (among : Rule.named name ∈ [.named .exprStmt, .named .forStmt, .named .ifStmt,
      .named .printStmt, .named .returnStmt, .named .whileStmt, .named .breakStmt,
      .named .continueStmt, Rule.named .block])
    (derives : Derives (grammar name) (ts.map Token.kind)) :
    Derives (.named .statement) (ts.map Token.kind) :=
  .named (derives_any among (.named derives))

/-- Elements with a comma before each behind the first one. -/
theorem derives_commaList {rule : Rule} {ts us : List Token} {count : Nat}
    (first : Derives rule (ts.map Token.kind))
    (more : Derives (.upTo count (all [.token .comma, rule])) (us.map Token.kind))
    (few : count < 255) : Derives (commaList rule) ((ts ++ us).map Token.kind) :=
  Spells.cons first (.last (derives_upTo more (Nat.le_pred_of_lt few)))

section Constructs

variable {t opening closing : Token} {ts us vs ws : List Token} {e e' : Expr}

/-- A call and what follows it is derived by the rule of the rest of a call. -/
theorem derives_called (opens : opening.kind = .leftParen)
    (arguments : Derives (.optional (.named .arguments)) (ts.map Token.kind))
    (closes : closing.kind = .rightParen)
    (more : Derives (Phrase.callRest e e').rule (us.map Token.kind)) :
    Derives (Phrase.callRest e e').rule ((opening :: ts ++ closing :: us).map Token.kind) := by
  have call : Spells [.token .leftParen, .optional (.named .arguments), .token .rightParen]
      (opening :: (ts ++ [closing])) := .token opens (.cons arguments (.token closes .nil))
  have split : opening :: ts ++ closing :: us = (opening :: (ts ++ [closing])) ++ us := by simp
  rw [split]
  exact derives_more (derives_any List.mem_cons_self call) more

/-- An assignment to a property is derived through the call that owns the property. -/
theorem derives_set {dot equals : Token} (owner : Derives (.named .call) (ts.map Token.kind))
    (separator : dot.kind = .dot) (name : t.kind = .identifier) (sign : equals.kind = .equal)
    (value : Derives (.named .expression) (us.map Token.kind)) :
    Derives (.named .expression) ((ts ++ dot :: t :: equals :: us).map Token.kind) := by
  have object : Spells [.named .call, .token .dot] (ts ++ [dot]) :=
    .cons owner (.token separator .nil)
  have whole : Spells [.optional (all [.named .call, .token .dot]), .token .identifier,
      .token .equal, .named .assignment] ((ts ++ [dot]) ++ t :: equals :: us) :=
    .cons (.present object) (.token name (.token sign (.last (derives_assignment value))))
  rw [List.append_assoc] at whole
  exact .named (.named (.left whole))

/-- A loop with its clauses is derived by the rule of loops. -/
theorem derives_forLoop {semicolon : Token} (keyword : t.kind = .for)
    (opens : opening.kind = .leftParen)
    (first : Derives (any [.named .varDecl, .named .exprStmt, .token .semicolon])
      (ts.map Token.kind))
    (test : Derives (.optional (.named .expression)) (us.map Token.kind))
    (ends : semicolon.kind = .semicolon)
    (step : Derives (.optional (.named .expression)) (vs.map Token.kind))
    (closes : closing.kind = .rightParen)
    (inner : Derives (.named .statement) (ws.map Token.kind)) : Derives (.named .statement)
      ((t :: opening :: ts ++ us ++ semicolon :: vs ++ closing :: ws).map Token.kind) := by
  have whole : Spells _ (t :: opening :: (ts ++ (us ++ semicolon :: (vs ++ closing :: ws)))) :=
    .token keyword (.token opens (.cons first (.cons test (.token ends (.cons step
      (.token closes (.last inner)))))))
  have split : t :: opening :: ts ++ us ++ semicolon :: vs ++ closing :: ws =
      t :: opening :: (ts ++ (us ++ semicolon :: (vs ++ closing :: ws))) := by simp
  rw [split]
  exact derives_statement .forStmt (by simp) whole

/-- An `if` with or without an `else` behind it. -/
theorem derives_if (keyword : t.kind = .if) (opens : opening.kind = .leftParen)
    (test : Derives (.named .expression) (ts.map Token.kind))
    (closes : closing.kind = .rightParen)
    (branch : Derives (.named .statement) (us.map Token.kind))
    (other : Derives (.optional (all [.token .else, .named .statement])) (vs.map Token.kind)) :
    Derives (.named .statement)
      ((t :: opening :: ts ++ closing :: us ++ vs).map Token.kind) := by
  have whole : Spells _ (t :: opening :: (ts ++ closing :: (us ++ vs))) :=
    .token keyword (.token opens (.cons test (.token closes (.cons branch (.last other)))))
  have split : t :: opening :: ts ++ closing :: us ++ vs =
      t :: opening :: (ts ++ closing :: (us ++ vs)) := by simp
  rw [split]
  exact derives_statement .ifStmt (by simp) whole

/-- A class with its superclass and its methods is derived by the rule of classes. -/
theorem derives_class {name : Token} (keyword : t.kind = .classWord)
    (named : name.kind = .identifier)
    (parent : Derives (.optional (all [.token .less, .token .identifier])) (ts.map Token.kind))
    (opens : opening.kind = .leftBrace)
    (inner : Derives (.many (.named .function)) (us.map Token.kind))
    (closes : closing.kind = .rightBrace) : Derives (.named .declaration)
      ((t :: name :: ts ++ opening :: us ++ [closing]).map Token.kind) := by
  have whole : Spells _ (t :: name :: (ts ++ opening :: (us ++ [closing]))) :=
    .token keyword (.token named (.cons parent (.token opens (.cons inner (.token closes .nil)))))
  have split : t :: name :: ts ++ opening :: us ++ [closing] =
      t :: name :: (ts ++ opening :: (us ++ [closing])) := by simp
  rw [split]
  exact .named (.left (.named whole))

/-- A function with its parameters and its body is derived by the rule of functions. -/
theorem derives_function {brace closingBrace : Token} (name : t.kind = .identifier)
    (opens : opening.kind = .leftParen)
    (list : Derives (.optional (.named .parameters)) (ts.map Token.kind))
    (closes : closing.kind = .rightParen) (begins : brace.kind = .leftBrace)
    (inner : Derives (.many (.named .declaration)) (us.map Token.kind))
    (ends : closingBrace.kind = .rightBrace) : Derives (.named .function)
      ((t :: opening :: ts ++ closing :: brace :: us ++ [closingBrace]).map Token.kind) := by
  have block : Derives (.named .block) ((brace :: (us ++ [closingBrace])).map Token.kind) :=
    .named (Spells.token begins (.cons inner (.token ends .nil)))
  have whole : Spells _ (t :: opening :: (ts ++ closing :: (brace :: (us ++ [closingBrace])))) :=
    .token name (.token opens (.cons list (.token closes (.last block))))
  have split : t :: opening :: ts ++ closing :: brace :: us ++ [closingBrace] =
      t :: opening :: (ts ++ closing :: (brace :: (us ++ [closingBrace]))) := by simp
  rw [split]
  exact .named whole

end Constructs

/-- A tree is a derivation. -/
theorem Tree.derives {n n' : NodeId} {ts : List Token} {p : Phrase} (tree : Tree n ts p n') :
    Derives p.rule (ts.map Token.kind) := by
  induction tree with
  -- expressions
  | literal constant => exact .named (.left (derives_anyToken (denotes_mem constant)))
  | this keyword | identifier keyword =>
    refine .named (.left (derives_anyToken ?_))
    rw [keyword]
    decide
  | super keyword separator name =>
    refine .named (.right (.right (.left ?_)))
    exact Spells.token keyword (.token separator (.token name .nil))
  | group opens _ closes inner =>
    refine .named (.right (.left ?_))
    exact Spells.token opens (.cons inner (.token closes .nil))
  | uncalled => exact .done
  | called opens _ closes _ arguments more => exact derives_called opens arguments closes more
  | property separator name _ more =>
    have access := Spells.token separator (.token name .nil)
    exact .more (derives_any (List.mem_cons_of_mem _ List.mem_cons_self) access) more
  | call _ _ first more => exact .named (Spells.cons first (.last more))
  | noArguments => exact .absent
  | arguments _ _ few first more =>
    exact .present (.named (derives_commaList first more few))
  | noMoreArguments => exact .stop
  | moreArguments separator _ _ first more =>
    exact derives_step (Spells.token separator (.last first)) more
  | operated sign _ operand =>
    have operator := derives_anyToken (sign ▸ prefix_mem _)
    exact .named (.left (Spells.single operator (.last operand)))
  | unary _ call => exact .named (.right (.left call))
  | unjoined => exact .done
  | @joined _ t level ts _ _ us _ _ _ _ joins _ _ operand more =>
    rw [rule_operand] at operand
    have joined : Spells [anyToken (operators level), .named (operandRule level)] (t :: ts) :=
      .single (derives_anyToken joins.kind_mem) (.last operand)
    exact derives_more joined more
  | chain _ _ first more =>
    rw [rule_operand] at first
    exact .named (Spells.cons first (.last more))
  | unassigned _ chain => exact .named (.named (.right (.left chain)))
  | assigned name sign _ value =>
    have bare : Spells _ _ := .token name (.token sign (.last (derives_assignment value)))
    exact .named (.named (.left (Spells.skip bare)))
  | set _ separator name sign _ owner value => exact derives_set owner separator name sign value
  | leftOut => exact .absent
  | given _ inner => exact .present inner
  -- statements, whose rules are alternatives of one
  | uninitialized name ends =>
    exact Spells.token name (.skip (.token ends .nil))
  | initialized name sign _ ends value =>
    have initializer := Spells.token sign (.last value)
    exact Spells.token name (.cons (.present initializer) (.token ends .nil))
  | expression _ ends inner => exact .named (Spells.cons inner (.token ends .nil))
  | noInitializer ends =>
    exact .right (.right (.left (derives_token ends)))
  | variableInitializer keyword _ declared =>
    exact .left (.named (Spells.token keyword declared))
  | expressionInitializer _ inner => exact .right (.left inner)
  | expressionStatement _ inner =>
    cases inner with
    | named body => exact derives_statement .exprStmt (by simp) body
  | forLoop keyword opens _ _ ends _ closes _ _ first test step inner =>
    exact derives_forLoop keyword opens first test ends step closes inner
  | ifThen keyword opens _ closes _ test branch =>
    have nothing : Derives (.optional (all [.token .else, .named .statement]))
        (([] : List Token).map Token.kind) := .absent
    have alone := derives_if keyword opens test closes branch nothing
    rwa [List.append_nil] at alone
  | ifElse keyword opens _ closes _ otherwise _ test first second =>
    have alternative : Spells _ _ := .token otherwise (.last second)
    exact derives_if keyword opens test closes first (.present alternative)
  | whileLoop keyword opens _ closes _ test inner =>
    have whole : Spells _ _ :=
      .token keyword (.token opens (.cons test (.token closes (.last inner))))
    exact derives_statement .whileStmt (by simp) whole
  | returns keyword _ ends value =>
    have whole : Spells _ _ := .token keyword (.cons value (.token ends .nil))
    exact derives_statement .returnStmt (by simp) whole
  | breaks keyword ends =>
    have whole : Spells _ _ := .token keyword (.token ends .nil)
    exact derives_statement .breakStmt (by simp) whole
  | continues keyword ends =>
    have whole : Spells _ _ := .token keyword (.token ends .nil)
    exact derives_statement .continueStmt (by simp) whole
  | block opens _ closes inner =>
    have whole : Spells _ _ := .token opens (.cons inner (.token closes .nil))
    exact derives_statement .block (by simp) whole
  | print keyword _ ends value =>
    have whole : Spells _ _ := .token keyword (.cons value (.token ends .nil))
    exact derives_statement .printStmt (by simp) whole
  -- declarations
  | classDecl keyword named _ opens _ closes parent inner =>
    exact derives_class keyword named parent opens inner closes
  | funDecl keyword _ declared =>
    have whole : Spells _ _ := .token keyword (.last declared)
    exact .named (.right (.left (.named whole)))
  | varDecl keyword _ declared =>
    have whole : Spells _ _ := .token keyword declared
    exact .named (.right (.right (.left (.named whole))))
  | statement _ inner => exact .named (.right (.right (.right (.left inner))))
  | noDeclarations | noMethods => exact .done
  | declarations _ _ first more | methods _ _ first more => exact derives_more first more
  | noSuperclass | noParameters => exact .absent
  | superclass sign name => exact .present (Spells.token sign (.token name .nil))
  | function name opens _ closes begins _ ends list inner =>
    exact derives_function name opens list closes begins inner ends
  | parameters name _ few more =>
    exact .present (.named (derives_commaList (derives_token name) more few))
  | noMoreParameters => exact .stop
  | moreParameters separator name _ more =>
    exact derives_step (Spells.token separator (.token name .nil)) more

/-! ## From derivations to trees -/

theorem Tree.of_eq {n n' : NodeId} {ts us : List Token} {p : Phrase} (tree : Tree n ts p n')
    (same : us = ts) : Tree n us p n' := same ▸ tree

/-- An `else` behind an open statement belongs to the nearest `if` in it that is open. -/
theorem attach {n n₁ n₂ : NodeId} {ts us : List Token} {isOpen : Bool} {s no : Stmt}
    {other : Token} (tree : Tree n ts (.statement true s) n₁) (otherwise : other.kind = .else)
    (alternative : Tree n₁ us (.statement isOpen no) n₂) :
    ∃ isOpen s, Tree n (ts ++ other :: us) (.statement isOpen s) n₂ := by
  generalize shape : Phrase.statement true s = p at tree
  induction tree generalizing s with
  | forLoop keyword opens first test ends step closes _ _ _ _ _ inner =>
    cases shape
    obtain ⟨isOpen, body, inner⟩ := inner alternative rfl
    exact ⟨isOpen, _, (Tree.forLoop keyword opens first test ends step closes inner
      (counts_iff.mpr rfl)).of_eq (by simp)⟩
  -- the else goes to the innermost if that is open, here or further in
  | @ifThen _ _ _ _ _ _ _ _ branchOpen _ _ keyword opens test closes branch _ nested =>
    cases shape
    cases branchOpen with
    | false =>
      exact ⟨isOpen, _, (Tree.ifElse keyword opens test closes branch otherwise alternative).of_eq
        (by simp)⟩
    | true =>
      obtain ⟨isOpen, yes, branch⟩ := nested alternative rfl
      exact ⟨true, _, (Tree.ifThen keyword opens test closes branch).of_eq (by simp)⟩
  | ifElse keyword opens test closes first otherwise' _ _ _ nested =>
    cases shape
    obtain ⟨isOpen, no, second⟩ := nested alternative rfl
    exact ⟨isOpen, _, (Tree.ifElse keyword opens test closes first otherwise' second).of_eq
      (by simp)⟩
  | whileLoop keyword opens test closes _ _ inner =>
    cases shape
    obtain ⟨isOpen, body, inner⟩ := inner alternative rfl
    exact ⟨isOpen, _, (Tree.whileLoop keyword opens test closes inner).of_eq (by simp)⟩
  | _ => cases shape

/-- The tokens have a tree as the nonterminal, whatever the first identity is. -/
def Nonterminal.HasTree (ts : List Token) : Nonterminal → Prop
  | .program => ∀ n, ∃ ss n', Tree n ts (.declarations ss) n'
  | .declaration | .classDecl | .funDecl => ∀ n, ∃ s n', Tree n ts (.declaration s) n'
  | .function => ∀ n, ∃ d n', Tree n ts (.function d) n'
  | .varDecl => ∃ t us, ts = t :: us ∧ t.kind = .var ∧
    ∀ n, ∃ s n', Tree n us (.variable s) n'
  | .exprStmt => ∀ n, ∃ s n', Tree n ts (.expressionStatement s) n'
  | .block => ∃ opening us closing, ts = opening :: us ++ [closing] ∧
    opening.kind = .leftBrace ∧ closing.kind = .rightBrace ∧
      ∀ n, ∃ ss n', Tree n us (.declarations ss) n'
  | .statement | .forStmt | .ifStmt | .printStmt | .returnStmt | .whileStmt | .breakStmt
  | .continueStmt => ∀ n, ∃ isOpen s n', Tree n ts (.statement isOpen s) n'
  | .parameters => ∀ n, ∃ names n', Tree n ts (.parameters names) n'
  | .arguments => ∀ n, ∃ es n', Tree n ts (.arguments es) n'
  | .expression | .assignment => ∀ n, ∃ e n', Tree n ts (.assignment e) n'
  | .level l => ∀ n, ∃ e n', Tree n ts (.chain l e) n'
  | .unary => ∀ n, ∃ e n', Tree n ts (.unary e) n'
  | .call => ∀ n, ∃ e n', Tree n ts (.call e) n'
  | .primary => ∀ n, ∃ e n', Tree n ts (.primary e) n'

/-- What tokens that a rule derives are made of. -/
def Means : Rule → List Token → Prop
  | .token kind, ts => ∃ t, ts = [t] ∧ t.kind = kind
  | .named name, ts => name.HasTree ts
  | .empty, ts => ts = []
  | .seq first second, ts => ∃ us vs, ts = us ++ vs ∧ Means first us ∧ Means second vs
  | .never, _ => False
  | .choice left right, ts => Means left ts ∨ Means right ts
  | .optional inner, ts => ts = [] ∨ Means inner ts
  | .many inner, ts => ∃ parts : List (List Token), ts = parts.flatten ∧
    ∀ part ∈ parts, Means inner part
  | .upTo bound inner, ts => ∃ parts : List (List Token), ts = parts.flatten ∧
    parts.length ≤ bound ∧ ∀ part ∈ parts, Means inner part

/-- Tokens with a meaning under a choice have one under one of its alternatives. -/
theorem means_any {rules : List Rule} {ts : List Token} (means : Means (any rules) ts) :
    ∃ rule ∈ rules, Means rule ts := by
  induction rules with
  | nil => cases means
  | cons first rest ih =>
    rcases means with here | later
    · exact ⟨first, List.mem_cons_self, here⟩
    · obtain ⟨rule, among, means⟩ := ih later
      exact ⟨rule, List.mem_cons_of_mem _ among, means⟩

theorem means_anyToken {kinds : List Kind} {ts : List Token} (means : Means (anyToken kinds) ts) :
    ∃ t, ts = [t] ∧ t.kind ∈ kinds := by
  obtain ⟨rule, among, means⟩ := means_any means
  obtain ⟨kind, inside, rfl⟩ := List.mem_map.mp among
  obtain ⟨t, rfl, rfl⟩ := means
  exact ⟨t, rfl, inside⟩

/-! ### Lists of phrases -/

/-- Declarations that each have a tree, whatever identity is next, form a row with a tree. -/
theorem means_declarations {ts : List Token} (means : Means (.many (.named .declaration)) ts)
    (n : NodeId) : ∃ ss n', Tree n ts (.declarations ss) n' := by
  obtain ⟨parts, rfl, each⟩ := means
  induction parts generalizing n with
  | nil => exact ⟨[], n, .noDeclarations⟩
  | cons part parts ih =>
    obtain ⟨here, later⟩ := List.forall_mem_cons.mp each
    obtain ⟨s, n₁, first⟩ := here n
    obtain ⟨ss, n₂, rest⟩ := ih n₁ later
    exact ⟨s :: ss, n₂, .declarations first rest⟩

/-- Methods that each have a tree form a row with a tree. -/
theorem means_methods {ts : List Token} (means : Means (.many (.named .function)) ts)
    (n : NodeId) : ∃ ds n', Tree n ts (.methods ds) n' := by
  obtain ⟨parts, rfl, each⟩ := means
  induction parts generalizing n with
  | nil => exact ⟨[], n, .noMethods⟩
  | cons part parts ih =>
    obtain ⟨here, later⟩ := List.forall_mem_cons.mp each
    obtain ⟨d, n₁, first⟩ := here n
    obtain ⟨ds, n₂, rest⟩ := ih n₁ later
    exact ⟨d :: ds, n₂, .methods first rest⟩

/-- Further arguments with a tree each form a list with a tree, no longer than the bound. -/
theorem means_moreArguments {ts : List Token} {bound : Nat}
    (means : Means (.upTo bound (all [.token .comma, .named .expression])) ts) (n : NodeId) :
    ∃ es n', Tree n ts (.moreArguments es) n' ∧ es.length ≤ bound := by
  obtain ⟨parts, rfl, few, each⟩ := means
  have read : ∃ es n', Tree n parts.flatten (.moreArguments es) n' ∧ es.length = parts.length := by
    clear few
    induction parts generalizing n with
    | nil => exact ⟨[], n, .noMoreArguments, rfl⟩
    | cons part parts ih =>
      obtain ⟨here, later⟩ := List.forall_mem_cons.mp each
      obtain ⟨_, _, rfl, ⟨comma, rfl, separator⟩, us, _, rfl, argument, rfl⟩ := here
      obtain ⟨e, n₁, first⟩ := argument n
      obtain ⟨es, n₂, rest, same⟩ := ih n₁ later
      exact ⟨e :: es, n₂, (Tree.moreArguments separator first rest).of_eq (by simp), by simp [same]⟩
  obtain ⟨es, n', tree, same⟩ := read
  exact ⟨es, n', tree, same ▸ few⟩

/-- Further parameters form a list with a tree, no longer than the bound. -/
theorem means_moreParameters {ts : List Token} {bound : Nat}
    (means : Means (.upTo bound (all [.token .comma, .token .identifier])) ts) (n : NodeId) :
    ∃ names n', Tree n ts (.moreParameters names) n' ∧ names.length ≤ bound := by
  obtain ⟨parts, rfl, few, each⟩ := means
  have read : ∃ names n', Tree n parts.flatten (.moreParameters names) n' ∧
      names.length = parts.length := by
    clear few
    induction parts with
    | nil => exact ⟨[], n, .noMoreParameters, rfl⟩
    | cons part parts ih =>
      obtain ⟨here, later⟩ := List.forall_mem_cons.mp each
      obtain ⟨_, _, rfl, ⟨comma, rfl, separator⟩, _, _, rfl, ⟨t, rfl, name⟩, rfl⟩ := here
      obtain ⟨names, n₁, rest, same⟩ := ih later
      exact ⟨t.asName :: names, n₁, (Tree.moreParameters separator name rest).of_eq (by simp),
        by simp [same]⟩
  obtain ⟨names, n', tree, same⟩ := read
  exact ⟨names, n', tree, same ▸ few⟩

/-- Every kind among the operators of a level is an operator of it. -/
theorem exists_operator {kind : Kind} {level : Level} (among : kind ∈ operators level) :
    ∃ op, infixOp? kind = some (level, op) := by
  have all : ∀ kind ∈ operators level, (infixOp? kind).map Prod.fst = some level := by
    cases level <;> decide
  have found := all kind among
  cases shape : infixOp? kind with
  | none => rw [shape] at found; cases found
  | some pair =>
    rw [shape] at found
    cases found
    exact ⟨pair.2, rfl⟩

/-- An operator of a level makes a node of any operands. -/
theorem exists_joins {t : Token} {level : Level} (among : t.kind ∈ operators level)
    (left right : Expr) : ∃ node, Joins t left right level node := by
  obtain ⟨op, operator⟩ := exists_operator among
  exact ⟨_, joins_iff.mpr ⟨op, operator, rfl⟩⟩

theorem hasTree_operand {level : Level} {ts : List Token} (has : (operandRule level).HasTree ts)
    (n : NodeId) : ∃ e n', Tree n ts (.operand level e) n' := by
  cases level <;> exact has n

/-- Operators and operands after an expression have a tree that grows to the left. -/
theorem means_chainRest {ts : List Token} {level : Level}
    (means : Means (.many (all [anyToken (operators level), .named (operandRule level)])) ts)
    (n : NodeId) (left : Expr) : ∃ e n', Tree n ts (.chainRest level left e) n' := by
  obtain ⟨parts, rfl, each⟩ := means
  induction parts generalizing n left with
  | nil => exact ⟨left, n, .unjoined⟩
  | cons part parts ih =>
    obtain ⟨here, later⟩ := List.forall_mem_cons.mp each
    obtain ⟨_, _, rfl, operator, us, _, rfl, operand, rfl⟩ := here
    obtain ⟨t, rfl, among⟩ := means_anyToken operator
    obtain ⟨right, n₁, operand⟩ := hasTree_operand operand n
    obtain ⟨node, joins⟩ := exists_joins among left right
    obtain ⟨e, n₂, rest⟩ := ih n₁ node later
    exact ⟨e, n₂, (Tree.joined joins operand rest).of_eq (by simp)⟩

theorem means_optional_arguments {ts : List Token}
    (means : Means (.optional (.named .arguments)) ts) (n : NodeId) :
    ∃ es n', Tree n ts (.arguments es) n' := by
  rcases means with rfl | has
  · exact ⟨[], n, .noArguments⟩
  · exact has n

theorem means_optional_expression {ts : List Token}
    (means : Means (.optional (.named .expression)) ts) (n : NodeId) :
    ∃ e n', Tree n ts (.optional e) n' := by
  rcases means with rfl | has
  · exact ⟨none, n, .leftOut⟩
  · obtain ⟨e, n', tree⟩ := has n
    exact ⟨some e, n', .given tree⟩

/-- Calls and property reads after an expression have a tree that grows to the left. -/
theorem means_callRest {ts : List Token} (means : Means (.many (any
      [all [.token .leftParen, .optional (.named .arguments), .token .rightParen],
        all [.token .dot, .token .identifier]])) ts)
    (n : NodeId) (subject : Expr) : ∃ e n', Tree n ts (.callRest subject e) n' := by
  obtain ⟨parts, rfl, each⟩ := means
  induction parts generalizing n subject with
  | nil => exact ⟨subject, n, .uncalled⟩
  | cons part parts ih =>
    obtain ⟨here, later⟩ := List.forall_mem_cons.mp each
    rcases here with ⟨_, _, rfl, ⟨opening, rfl, opens⟩, us, _, rfl, arguments, _, _, rfl,
      ⟨closing, rfl, closes⟩, rfl⟩ | ⟨_, _, rfl, ⟨dot, rfl, separator⟩, _, _, rfl, ⟨t, rfl, name⟩,
      rfl⟩ | ⟨⟨⟩⟩
    · obtain ⟨es, n₁, arguments⟩ := means_optional_arguments arguments n
      obtain ⟨e, n₂, rest⟩ := ih n₁ (.call subject closing.line es) later
      exact ⟨e, n₂, (Tree.called opens arguments closes rest).of_eq (by simp)⟩
    · obtain ⟨e, n₁, rest⟩ := ih n (.get subject t.asName) later
      exact ⟨e, n₁, (Tree.property separator name rest).of_eq (by simp)⟩

/-! ### Rule by rule -/

/-- Every primary expression of the grammar has a tree. -/
theorem hasTree_primary {ts : List Token} (means : Means (grammar .primary) ts) :
    Nonterminal.primary.HasTree ts := by
  intro n
  rcases means with single | ⟨_, _, rfl, ⟨opening, rfl, opens⟩, us, _, rfl, inner, _, _, rfl,
    ⟨closing, rfl, closes⟩, rfl⟩ | ⟨_, _, rfl, ⟨t, rfl, keyword⟩, _, _, rfl, ⟨dot, rfl, separator⟩,
    _, _, rfl, ⟨method, rfl, name⟩, rfl⟩ | ⟨⟨⟩⟩
  · obtain ⟨t, rfl, among⟩ := means_anyToken single
    by_cases keyword : t.kind = .this
    · exact ⟨_, _, .this keyword⟩
    by_cases name : t.kind = .identifier
    · exact ⟨_, _, .identifier name⟩
    simp only [List.mem_cons, List.not_mem_nil, or_false, keyword, name] at among
    -- what is left are the five literals
    obtain same | same | same | same | same := among
    · exact ⟨_, _, .literal (.number same)⟩
    · exact ⟨_, _, .literal (.string same)⟩
    · exact ⟨_, _, .literal (.true same)⟩
    · exact ⟨_, _, .literal (.false same)⟩
    · exact ⟨_, _, .literal (.nil same)⟩
  · obtain ⟨e, n₁, inner⟩ := inner n
    exact ⟨_, _, (Tree.group opens inner closes).of_eq (by simp)⟩
  · exact ⟨_, _, .super keyword separator name⟩

/-- Every call of the grammar has a tree. -/
theorem hasTree_call {ts : List Token} (means : Means (grammar .call) ts) :
    Nonterminal.call.HasTree ts := by
  intro n
  obtain ⟨us, _, rfl, subject, vs, _, rfl, rest, rfl⟩ := means
  obtain ⟨subject, n₁, first⟩ := subject n
  obtain ⟨e, n₂, rest⟩ := means_callRest rest n₁ subject
  exact ⟨e, n₂, (Tree.call first rest).of_eq (by simp)⟩

/-- Every unary expression of the grammar has a tree. -/
theorem hasTree_unary {ts : List Token} (means : Means (grammar .unary) ts) :
    Nonterminal.unary.HasTree ts := by
  intro n
  rcases means with ⟨_, _, rfl, operator, us, _, rfl, operand, rfl⟩ | call | ⟨⟨⟩⟩
  · obtain ⟨t, rfl, among⟩ := means_anyToken operator
    have found : ∃ op : UnaryOp, t.kind = op.kind := by
      simp only [List.mem_cons, List.not_mem_nil, or_false] at among
      rcases among with same | same
      · exact ⟨.not, same⟩
      · exact ⟨.negate, same⟩
    obtain ⟨op, sign⟩ := found
    obtain ⟨e, n₁, operand⟩ := operand n
    exact ⟨_, _, (Tree.operated sign operand).of_eq (by simp)⟩
  · obtain ⟨e, n₁, call⟩ := call n
    exact ⟨e, n₁, .unary call⟩

/-- Every chain of operators of the grammar has a tree. -/
theorem hasTree_level {ts : List Token} {level : Level}
    (means : Means (grammar (.level level)) ts) : (Nonterminal.level level).HasTree ts := by
  intro n
  obtain ⟨us, _, rfl, first, vs, _, rfl, rest, rfl⟩ := means
  obtain ⟨left, n₁, first⟩ := hasTree_operand first n
  obtain ⟨e, n₂, rest⟩ := means_chainRest rest n₁ left
  exact ⟨e, n₂, (Tree.chain first rest).of_eq (by simp)⟩

/-- Every assignment of the grammar has a tree: to a name, to a property, or none at all. -/
theorem hasTree_assignment {ts : List Token} (means : Means (grammar .assignment) ts) :
    Nonterminal.assignment.HasTree ts := by
  intro n
  rcases means with ⟨us, _, rfl, owner, _, _, rfl, ⟨t, rfl, name⟩, _, _, rfl, ⟨equals, rfl, sign⟩,
    vs, _, rfl, value, rfl⟩ | chain | ⟨⟨⟩⟩
  · rcases owner with rfl | ⟨us, _, rfl, owner, _, _, rfl, ⟨dot, rfl, separator⟩, rfl⟩
    · obtain ⟨e, n₁, value⟩ := value (n + 1)
      exact ⟨_, _, (Tree.assigned name sign value).of_eq (by simp)⟩
    · obtain ⟨object, n₁, owner⟩ := owner n
      obtain ⟨e, n₂, value⟩ := value n₁
      exact ⟨_, _, (Tree.set owner separator name sign value).of_eq (by simp)⟩
  · obtain ⟨e, n₁, chain⟩ := chain n
    exact ⟨e, n₁, .unassigned chain⟩

theorem hasTree_arguments {ts : List Token} (means : Means (grammar .arguments) ts) :
    Nonterminal.arguments.HasTree ts := by
  intro n
  obtain ⟨us, _, rfl, first, vs, _, rfl, more, rfl⟩ := means
  obtain ⟨e, n₁, first⟩ := first n
  obtain ⟨es, n₂, more, few⟩ := means_moreArguments more n₁
  have short : es.length < 255 := Nat.lt_of_le_of_lt few (by decide)
  exact ⟨_, _, (Tree.arguments first more short).of_eq (by simp)⟩

theorem hasTree_parameters {ts : List Token} (means : Means (grammar .parameters) ts) :
    Nonterminal.parameters.HasTree ts := by
  intro n
  obtain ⟨_, _, rfl, ⟨t, rfl, name⟩, vs, _, rfl, more, rfl⟩ := means
  obtain ⟨names, n₁, more, few⟩ := means_moreParameters more n
  have short : names.length < 255 := Nat.lt_of_le_of_lt few (by decide)
  exact ⟨_, _, (Tree.parameters name more short).of_eq (by simp)⟩

/-- Every function of the grammar has a tree. -/
theorem hasTree_function {ts : List Token} (means : Means (grammar .function) ts) :
    Nonterminal.function.HasTree ts := by
  intro n
  obtain ⟨_, _, rfl, ⟨t, rfl, name⟩, _, _, rfl, ⟨opening, rfl, opens⟩, us, _, rfl, list, _, _, rfl,
    ⟨closing, rfl, closes⟩, _, _, rfl, ⟨brace, vs, closingBrace, rfl, begins, ends, body⟩, rfl⟩ :=
    means
  have list : ∃ names n₁, Tree n us (.parameters names) n₁ := by
    rcases list with rfl | has
    · exact ⟨[], n, .noParameters⟩
    · exact has n
  obtain ⟨names, n₁, list⟩ := list
  obtain ⟨body, n₂, inner⟩ := body n₁
  exact ⟨_, _, (Tree.function name opens list closes begins inner ends).of_eq (by simp)⟩

theorem hasTree_varDecl {ts : List Token} (means : Means (grammar .varDecl) ts) :
    Nonterminal.varDecl.HasTree ts := by
  obtain ⟨_, _, rfl, ⟨keyword, rfl, var⟩, _, _, rfl, ⟨t, rfl, name⟩, us, _, rfl, value, _, _, rfl,
    ⟨semicolon, rfl, ends⟩, rfl⟩ := means
  refine ⟨keyword, _, rfl, var, fun n => ?_⟩
  rcases value with rfl | ⟨_, _, rfl, ⟨equals, rfl, sign⟩, us, _, rfl, value, rfl⟩
  · exact ⟨_, _, .uninitialized name ends⟩
  · obtain ⟨e, n₁, value⟩ := value n
    exact ⟨_, _, (Tree.initialized name sign value ends).of_eq (by simp)⟩

theorem hasTree_exprStmt {ts : List Token} (means : Means (grammar .exprStmt) ts) :
    Nonterminal.exprStmt.HasTree ts := by
  intro n
  obtain ⟨us, _, rfl, inner, _, _, rfl, ⟨semicolon, rfl, ends⟩, rfl⟩ := means
  obtain ⟨e, n₁, inner⟩ := inner n
  exact ⟨_, _, (Tree.expression inner ends).of_eq (by simp)⟩

/-- Every loop with clauses of the grammar has a tree. -/
theorem hasTree_forStmt {ts : List Token} (means : Means (grammar .forStmt) ts) :
    Nonterminal.forStmt.HasTree ts := by
  intro n
  obtain ⟨_, _, rfl, ⟨t, rfl, keyword⟩, _, _, rfl, ⟨opening, rfl, opens⟩, us, _, rfl, first, vs, _,
    rfl, test, _, _, rfl, ⟨semicolon, rfl, ends⟩, ws, _, rfl, step, _, _, rfl,
    ⟨closing, rfl, closes⟩, xs, _, rfl, body, rfl⟩ := means
  -- three ways to begin: a declaration, an expression, or nothing
  have first : ∃ s n₁, Tree n us (.initializer s) n₁ := by
    rcases first with ⟨t, us, rfl, var, has⟩ | has | ⟨semicolon, rfl, ends⟩ | ⟨⟨⟩⟩
    · obtain ⟨s, n₁, declared⟩ := has n
      exact ⟨_, _, .variableInitializer var declared⟩
    · obtain ⟨s, n₁, inner⟩ := has n
      exact ⟨_, _, .expressionInitializer inner⟩
    · exact ⟨_, _, .noInitializer ends⟩
  obtain ⟨s, n₁, first⟩ := first
  obtain ⟨condition, n₂, test⟩ := means_optional_expression test n₁
  obtain ⟨increment, n₃, step⟩ := means_optional_expression step n₂
  obtain ⟨isOpen, body, n₄, inner⟩ := body n₃
  exact ⟨_, _, _, (Tree.forLoop keyword opens first test ends step closes inner
    (counts_iff.mpr rfl)).of_eq (by simp)⟩

/-- The one rule that leaves a choice: an open statement before `else`. -/
theorem hasTree_ifStmt {ts : List Token} (means : Means (grammar .ifStmt) ts) :
    Nonterminal.ifStmt.HasTree ts := by
  intro n
  obtain ⟨_, _, rfl, ⟨t, rfl, keyword⟩, _, _, rfl, ⟨opening, rfl, opens⟩, us, _, rfl, test, _, _,
    rfl, ⟨closing, rfl, closes⟩, vs, _, rfl, yes, ws, _, rfl, otherwise, rfl⟩ := means
  obtain ⟨condition, n₁, test⟩ := test n
  obtain ⟨isOpen, yes, n₂, first⟩ := yes n₁
  have alone := Tree.ifThen keyword opens test closes first
  rcases otherwise with rfl | ⟨_, _, rfl, ⟨other, rfl, otherwise⟩, ws, _, rfl, no, rfl⟩
  · exact ⟨_, _, _, alone.of_eq (by simp)⟩
  · obtain ⟨noOpen, no, n₃, second⟩ := no n₂
    obtain ⟨isOpen, s, tree⟩ := attach alone otherwise second
    exact ⟨isOpen, s, n₃, tree.of_eq (by simp)⟩

theorem hasTree_whileStmt {ts : List Token} (means : Means (grammar .whileStmt) ts) :
    Nonterminal.whileStmt.HasTree ts := by
  intro n
  obtain ⟨_, _, rfl, ⟨t, rfl, keyword⟩, _, _, rfl, ⟨opening, rfl, opens⟩, us, _, rfl, test, _, _,
    rfl, ⟨closing, rfl, closes⟩, vs, _, rfl, body, rfl⟩ := means
  obtain ⟨condition, n₁, test⟩ := test n
  obtain ⟨isOpen, body, n₂, inner⟩ := body n₁
  exact ⟨_, _, _, (Tree.whileLoop keyword opens test closes inner).of_eq (by simp)⟩

theorem hasTree_printStmt {ts : List Token} (means : Means (grammar .printStmt) ts) :
    Nonterminal.printStmt.HasTree ts := by
  intro n
  obtain ⟨_, _, rfl, ⟨t, rfl, keyword⟩, us, _, rfl, value, _, _, rfl, ⟨semicolon, rfl, ends⟩,
    rfl⟩ := means
  obtain ⟨e, n₁, value⟩ := value n
  exact ⟨_, _, _, (Tree.print keyword value ends).of_eq (by simp)⟩

theorem hasTree_returnStmt {ts : List Token} (means : Means (grammar .returnStmt) ts) :
    Nonterminal.returnStmt.HasTree ts := by
  intro n
  obtain ⟨_, _, rfl, ⟨t, rfl, keyword⟩, us, _, rfl, value, _, _, rfl, ⟨semicolon, rfl, ends⟩,
    rfl⟩ := means
  obtain ⟨e, n₁, value⟩ := means_optional_expression value n
  exact ⟨_, _, _, (Tree.returns keyword value ends).of_eq (by simp)⟩

/-- Every statement of the grammar has a tree. -/
theorem hasTree_statement {ts : List Token} (means : Means (grammar .statement) ts) :
    Nonterminal.statement.HasTree ts := by
  rcases means with inner | has | has | has | has | has | has | has |
    ⟨opening, us, closing, rfl, opens, closes, body⟩ | ⟨⟨⟩⟩
  · intro n
    obtain ⟨s, n₁, inner⟩ := inner n
    exact ⟨_, _, _, .expressionStatement inner⟩
  · exact has
  · exact has
  · exact has
  · exact has
  · exact has
  · exact has
  · exact has
  · intro n
    obtain ⟨ss, n₁, inner⟩ := body n
    exact ⟨_, _, _, .block opens inner closes⟩

/-- Every class of the grammar has a tree. -/
theorem hasTree_classDecl {ts : List Token} (means : Means (grammar .classDecl) ts) :
    Nonterminal.classDecl.HasTree ts := by
  intro n
  obtain ⟨_, _, rfl, ⟨t, rfl, keyword⟩, _, _, rfl, ⟨name, rfl, named⟩, us, _, rfl, parent, _, _,
    rfl, ⟨opening, rfl, opens⟩, vs, _, rfl, body, _, _, rfl, ⟨closing, rfl, closes⟩, rfl⟩ := means
  have parent : ∃ o n₁, Tree n us (.superclass o) n₁ := by
    rcases parent with rfl | ⟨_, _, rfl, ⟨less, rfl, sign⟩, _, _, rfl, ⟨t, rfl, name⟩, rfl⟩
    · exact ⟨none, n, .noSuperclass⟩
    · exact ⟨_, _, .superclass sign name⟩
  obtain ⟨o, n₁, parent⟩ := parent
  obtain ⟨body, n₂, inner⟩ := means_methods body n₁
  exact ⟨_, _, (Tree.classDecl keyword named parent opens inner closes).of_eq (by simp)⟩

theorem hasTree_funDecl {ts : List Token} (means : Means (grammar .funDecl) ts) :
    Nonterminal.funDecl.HasTree ts := by
  intro n
  obtain ⟨_, _, rfl, ⟨t, rfl, keyword⟩, us, _, rfl, declared, rfl⟩ := means
  obtain ⟨d, n₁, declared⟩ := declared n
  exact ⟨_, _, (Tree.funDecl keyword declared).of_eq (by simp)⟩

/-- Every declaration of the grammar has a tree. -/
theorem hasTree_declaration {ts : List Token} (means : Means (grammar .declaration) ts) :
    Nonterminal.declaration.HasTree ts := by
  intro n
  rcases means with has | has | ⟨t, us, rfl, keyword, has⟩ | has | ⟨⟨⟩⟩
  · exact has n
  · exact has n
  · obtain ⟨s, n₁, declared⟩ := has n
    exact ⟨_, _, .varDecl keyword declared⟩
  · obtain ⟨isOpen, s, n₁, inner⟩ := has n
    exact ⟨_, _, .statement inner⟩

/-- Tokens with a meaning under the body of a rule have a tree of the rule. -/
theorem hasTree {name : Nonterminal} {ts : List Token} (means : Means (grammar name) ts) :
    name.HasTree ts := by
  -- one lemma for each nonterminal
  cases name with
  | program => exact means_declarations means
  | declaration => exact hasTree_declaration means
  | classDecl => exact hasTree_classDecl means
  | funDecl => exact hasTree_funDecl means
  | function => exact hasTree_function means
  | varDecl => exact hasTree_varDecl means
  | statement => exact hasTree_statement means
  | exprStmt => exact hasTree_exprStmt means
  | forStmt => exact hasTree_forStmt means
  | ifStmt => exact hasTree_ifStmt means
  | printStmt => exact hasTree_printStmt means
  | returnStmt => exact hasTree_returnStmt means
  | whileStmt => exact hasTree_whileStmt means
  | breakStmt =>
    obtain ⟨_, _, rfl, ⟨t, rfl, keyword⟩, _, _, rfl, ⟨semicolon, rfl, ends⟩, rfl⟩ := means
    exact fun n => ⟨_, _, n, .breaks keyword ends⟩
  | continueStmt =>
    obtain ⟨_, _, rfl, ⟨t, rfl, keyword⟩, _, _, rfl, ⟨semicolon, rfl, ends⟩, rfl⟩ := means
    exact fun n => ⟨_, _, n, .continues keyword ends⟩
  | block =>
    obtain ⟨_, _, rfl, ⟨opening, rfl, opens⟩, us, _, rfl, body, _, _, rfl,
      ⟨closing, rfl, closes⟩, rfl⟩ := means
    exact ⟨opening, us, closing, by simp, opens, closes, means_declarations body⟩
  | parameters => exact hasTree_parameters means
  | arguments => exact hasTree_arguments means
  | expression => exact means
  | assignment => exact hasTree_assignment means
  | level level => exact hasTree_level means
  | unary => exact hasTree_unary means
  | call => exact hasTree_call means
  | primary => exact hasTree_primary means

/-- A derivation is read rule by rule. -/
theorem means_of_derives {rule : Rule} {text : List Kind} (derives : Derives rule text)
    (ts : List Token) (kinds : ts.map Token.kind = text) : Means rule ts := by
  induction derives generalizing ts with
  | token kind =>
    obtain ⟨t, rfl, same⟩ := List.map_eq_singleton_iff.mp kinds
    exact ⟨t, rfl, same⟩
  | named _ ih => exact hasTree (ih ts kinds)
  | empty => exact List.map_eq_nil_iff.mp kinds
  | seq _ _ first second =>
    obtain ⟨us, vs, rfl, left, right⟩ := List.map_eq_append_iff.mp kinds
    exact ⟨us, vs, rfl, first us left, second vs right⟩
  | left _ ih => exact .inl (ih ts kinds)
  | right _ ih => exact .inr (ih ts kinds)
  | absent => exact .inl (List.map_eq_nil_iff.mp kinds)
  | present _ ih => exact .inr (ih ts kinds)
  | done => exact ⟨[], List.map_eq_nil_iff.mp kinds, nofun⟩
  -- a repetition splits into the text of one part and the text of the others
  | more _ _ first rest =>
    obtain ⟨us, vs, rfl, left, right⟩ := List.map_eq_append_iff.mp kinds
    obtain ⟨parts, rfl, each⟩ := rest vs right
    exact ⟨us :: parts, rfl, List.forall_mem_cons.mpr ⟨first us left, each⟩⟩
  | stop => exact ⟨[], List.map_eq_nil_iff.mp kinds, Nat.zero_le _, nofun⟩
  -- a bounded one also counts its parts
  | step _ _ first rest =>
    obtain ⟨us, vs, rfl, left, right⟩ := List.map_eq_append_iff.mp kinds
    obtain ⟨parts, rfl, few, each⟩ := rest vs right
    exact ⟨us :: parts, rfl, Nat.succ_le_succ few,
      List.forall_mem_cons.mpr ⟨first us left, each⟩⟩

/-! ## What the parser accepts -/

/-- The tokens of a program have a tree if and only if the grammar derives them. -/
theorem derives_program_iff {ts : List Token} (n : NodeId) :
    Derives (.named .program) (ts.map Token.kind) ↔
      ∃ ss last, Tree n ts (.declarations ss) last := by
  constructor
  · intro derives
    exact means_of_derives derives ts rfl n
  · rintro ⟨ss, last, tree⟩
    exact .named tree.derives

/-- A fresh parser accepts the programs of the grammar and no other tokens, and what it
reads is the tree of the tokens, which have no other one. -/
theorem program_accepts_grammar (tokens : Tokens) (n : NodeId) :
    ((∃ ss, (program tokens n).1 = .ok ss) ↔
      Derives (.named .program) (tokens.list.map Token.kind)) ∧
    ∀ ss last, program tokens n = (.ok ss, last) ↔
      Tree n tokens.list (.declarations ss) last := by
  refine ⟨?_, fun ss last => program_iff⟩
  rw [derives_program_iff n]
  constructor
  · rintro ⟨ss, read⟩
    exact ⟨ss, _, program_iff.mp (Prod.ext read rfl)⟩
  · rintro ⟨ss, last, tree⟩
    exact ⟨ss, congrArg Prod.fst (program_iff.mpr tree)⟩

end ClassScript.Parsing
