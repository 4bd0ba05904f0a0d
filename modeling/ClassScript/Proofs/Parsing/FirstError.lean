import ClassScript.Proofs.Parsing.Derivations
import ClassScript.Proofs.Parsing.Predicted

/-!
# Syntax errors are at the first impossible token

Every parser reads by the rule of its construct (one lemma for each parser, by induction on
the fuel). So the first error of a rejected text, but for the soft ones, is where a reader
that follows the rule of a program is stuck: what stands before begins a program of the
relaxed grammar, and no program goes on with the token of the error
(`first_error_impossible`), least of all one of the grammar itself
(`SyntaxError.AtImpossible.underivable`). What comes behind that error only adds errors behind
it, also where a block recovers.
-/

namespace ClassScript.Parsing

open Source Syntax Rule

variable {endLine : Nat}

/-- The tokens that are constants. -/
def literals : List Kind := [.number, .string, .true, .false, .nil]

namespace Predicts

variable {β : Type} {fuel depth : Nat} {follow : Ahead} {rule : Rule} {start tokens : List Token}

/-- A choice by the next token: an operator of the level is taken, or none stands there. -/
theorem acceptInfix? {level : Level} {q : Option (InfixOp × Token) → Parser β}
    (yes : ∀ t op rest, tokens = t :: rest → t.kind ∈ operators level →
      Predicts endLine fuel depth follow rule start rest (q (some (op, t))))
    (no : (∀ kind ∈ heading tokens, kind ∉ operators level) →
      Predicts endLine fuel depth follow rule start tokens (q none)) :
    Predicts endLine fuel depth follow rule start tokens (acceptInfix? level >>= q) := by
  by_cases operator : ∃ t rest op, tokens = t :: rest ∧ infixOp? t.kind = some (level, op)
  · obtain ⟨t, rest, op, rfl, operator⟩ := operator
    obtain ⟨same, rfl⟩ := infixOp?_iff.mp operator
    exact step (fun _ => .acceptInfix operator) (yes t op rest rfl (same ▸ op.kind_mem))
  -- no operator of this level is here, so the chain ends
  · have other : ∀ t ∈ tokens.head?, ∀ op, infixOp? t.kind ≠ some (level, op) := by
      intro t head op same
      obtain ⟨rest, rfl⟩ := List.head?_eq_some_iff.mp head
      exact operator ⟨t, rest, op, rfl, same⟩
    refine step (fun _ => .refuseInfix other) (no fun kind head among => ?_)
    cases tokens with
    | nil => cases head
    | cons t rest =>
      obtain rfl : t.kind = kind := Option.some.inj head
      obtain ⟨op, same⟩ := exists_operator among
      exact other t rfl op same

/-- A choice by the next token: a sign is taken, or none stands there. -/
theorem acceptPrefix? {q : Option (UnaryOp × Token) → Parser β}
    (yes : ∀ t op rest, tokens = t :: rest → t.kind ∈ [.bang, .minus] →
      Predicts endLine fuel depth follow rule start rest (q (some (op, t))))
    (no : (∀ kind ∈ heading tokens, kind ∉ [.bang, .minus]) →
      Predicts endLine fuel depth follow rule start tokens (q none)) :
    Predicts endLine fuel depth follow rule start tokens (acceptPrefix? >>= q) := by
  cases tokens with
  | nil => exact step (fun _ _ _ => rfl) (no nofun)
  | cons t rest =>
    -- a sign or a bang is taken, everything else is left to the call rule
    cases operator : prefixOp? t.kind with
    | none =>
      refine step (fun _ => .refusePrefix operator) (no fun kind head among => ?_)
      obtain rfl : t.kind = kind := Option.some.inj head
      simp only [List.mem_cons, List.not_mem_nil, or_false] at among
      rcases among with same | same <;> rw [same] at operator <;> cases operator
    | some op =>
      have sign := prefixOp?_iff.mp operator
      exact step (fun _ => .acceptPrefix sign.symm) (yes t op rest rfl (sign ▸ prefix_mem op))

/-- A choice by the next token: a constant is taken, or none stands there. -/
theorem acceptLiteral? {q : Option Literal → Parser β}
    (yes : ∀ t value rest, tokens = t :: rest → t.kind ∈ literals →
      Predicts endLine fuel depth follow rule start rest (q (some value)))
    (no : (∀ kind ∈ heading tokens, kind ∉ literals) →
      Predicts endLine fuel depth follow rule start tokens (q none)) :
    Predicts endLine fuel depth follow rule start tokens (acceptLiteral? >>= q) := by
  cases tokens with
  | nil => exact step (fun _ _ _ => rfl) (no nofun)
  | cons t rest =>
    cases constant : literal? t with
    | none =>
      refine step (fun _ => .refuseLiteral constant) (no fun kind head among => ?_)
      obtain rfl : t.kind = kind := Option.some.inj head
      unfold literal? at constant
      simp only [literals, List.mem_cons, List.not_mem_nil, or_false] at among
      rcases among with same | same | same | same | same <;> rw [same] at constant <;>
        cases constant
    | some value =>
      have denotes := literal?_iff.mp constant
      refine step (fun _ => .acceptLiteral denotes) (yes t value rest rfl ?_)
      -- each of the five literals is one of the kinds listed
      rcases denotes with same | same | same | same | same <;> rw [same] <;> decide

/-- A token is taken, and nothing comes behind it in the rule. -/
theorem taken {α : Type} {p : Parser α} (quiet : Silent p)
    (token : Taken follow rule start tokens) :
    Predicts endLine fuel depth follow rule start tokens p := silent quiet fun _ => token

end Predicts

/-! ## Expressions -/

theorem predicts_superAccess (fuel depth : Nat) (tokens : List Token) (follow : Ahead)
    (keyword : Token) : Predicts endLine fuel depth follow (all [.token .dot, .token .identifier])
      tokens tokens (superAccess keyword) := by
  refine (Predicts.expect rfl).seq rfl fun dot rest => .last ?_
  exact (Predicts.expectName rfl).also fun method => Silent.freshId.bind fun id => .pure _

/-- A call or a property access behind what it is of. -/
abbrev access : Rule :=
  any [all [.token .leftParen, .optional (.named .arguments), .token .rightParen],
    all [.token .dot, .token .identifier]]

mutual

theorem predicts_assignment (fuel : Nat) (tokens : List Token) (follow : Ahead) :
    Predicts endLine fuel 15 follow (.named .assignment) tokens tokens (assignment fuel) := by
  match fuel with
  | 0 => exact .starved (by decide)
  | fuel + 1 =>
    rw [assignment]
    refine .named rfl (.succ ?_ (Nat.le_refl _))
    refine (predicts_infixChain fuel .or tokens _).seq rfl fun target rest => .last ?_
    refine .accept? (fun t rest' left same => ?_) fun other => ?_
    · subst left
      refine .present (begun same (by decide)) (.behind rfl (.token same) (.last ?_))
      exact ((predicts_assignment fuel rest' _).mono (by decide)).also fun value =>
        .assignTo target t value
    · exact .absent (.pure _) (refused_one other)

theorem predicts_infixChain (fuel : Nat) (level : Level) (tokens : List Token) (follow : Ahead) :
    Predicts endLine fuel level.depth follow (.named (.level level)) tokens tokens
      (infixChain fuel level) := by
  have depth : 1 ≤ level.depth := by cases level <;> decide
  match fuel with
  | 0 => exact .starved depth
  | fuel + 1 =>
    rw [infixChain]
    refine .named rfl (.succ ?_ (Nat.sub_add_cancel depth).le)
    have solid : (Rule.named (operandRule level)).nullable = false := by cases level <;> rfl
    refine (predicts_operand fuel level tokens _).seq solid fun left rest => .last ?_
    exact (predicts_infixRest fuel level left rest _).mono (by decide)

/-- After an operand the rest of a chain takes operators of its level as long as there are any.
-/
theorem predicts_infixRest (fuel : Nat) (level : Level) (left : Expr) (tokens : List Token)
    (follow : Ahead) : Predicts endLine fuel 1 follow
      (.many (all [anyToken (operators level), .named (operandRule level)])) tokens tokens
      (infixRest fuel level left) := by
  match fuel with
  | 0 => exact .starved (by decide)
  | fuel + 1 =>
    rw [infixRest]
    -- a further operand begins with an operator of this level
    have heads : (all [anyToken (operators level), .named (operandRule level)]).first =
        operators level := by cases level <;> rfl
    refine .succ (Predicts.acceptInfix? (fun t op rest left operator => ?_) fun other => ?_)
      (Nat.le_refl _)
    · subst left
      have begins : Begun follow (all [anyToken (operators level), .named (operandRule level)])
          (heading (t :: rest)) := begun rfl (by rwa [heads])
      refine .again begins (.behind ?_ (.anyToken operator) (.last ?_)) fun right rest => ?_
      · cases level <;> rfl
      · exact (predicts_operand fuel level rest _).mono (by cases level <;> decide)
      · exact (predicts_infixRest fuel level _ rest _).mono (by decide)
    · exact .silent (.pure _) fun fits => .done fits (by rwa [heads])

theorem predicts_operand (fuel : Nat) (level : Level) (tokens : List Token) (follow : Ahead) :
    Predicts endLine fuel (level.depth - 1) follow (.named (operandRule level)) tokens tokens
      (operand fuel level) := by
  match fuel with
  | 0 => exact .starved (by cases level <;> decide)
  | fuel + 1 =>
    rw [operand]
    cases level with
    | factor => exact (predicts_unary fuel tokens _).succ (by decide)
    | or => exact (predicts_infixChain fuel .and tokens _).succ (by decide)
    | and => exact (predicts_infixChain fuel .equality tokens _).succ (by decide)
    | equality => exact (predicts_infixChain fuel .comparison tokens _).succ (by decide)
    | comparison => exact (predicts_infixChain fuel .term tokens _).succ (by decide)
    | term => exact (predicts_infixChain fuel .factor tokens _).succ (by decide)

theorem predicts_unary (fuel : Nat) (tokens : List Token) (follow : Ahead) :
    Predicts endLine fuel 2 follow (.named .unary) tokens tokens (unary fuel) := by
  match fuel with
  | 0 => exact .starved (by decide)
  | fuel + 1 =>
    rw [unary]
    refine .named rfl (.succ ?_ (Nat.le_refl _))
    refine Predicts.acceptPrefix? (fun t op rest left operator => ?_) fun other => ?_
    · subst left
      have apart : ∀ kind ∈ [Kind.bang, .minus], kind ∉ callHeads := by decide
      refine .alternative 0 rfl (only_kind rfl (apart _ operator))
        (.behind rfl (.anyToken operator) (.last ?_))
      exact ((predicts_unary fuel rest _).mono (by decide)).also fun _ => .pure _
    · refine .alternative 1 rfl other (.named rfl ?_)
      refine (predicts_primary fuel tokens _).seq rfl fun subject rest => .last ?_
      exact (predicts_accessRest fuel subject rest _).mono (by decide)

/-- What follows a call or a property read is taken as long as a parenthesis or a dot is next.
-/
theorem predicts_accessRest (fuel : Nat) (subject : Expr) (tokens : List Token) (follow : Ahead) :
    Predicts endLine fuel 1 follow (.many access) tokens tokens (accessRest fuel subject) := by
  match fuel with
  | 0 => exact .starved (by decide)
  | fuel + 1 =>
    rw [accessRest]
    refine .succ (.accept? (fun t rest left same => ?_) fun noCall => ?_) (Nat.le_refl _)
    · subst left
      -- arguments and closing parenthesis make up the rest of a call
      have call (follow : Ahead) : Predicts endLine fuel 32 follow
          (all [.optional (.named .arguments), .token .rightParen]) rest rest
          (argumentList fuel >>= fun arguments =>
            expect .rightParen .argumentsClose >>= fun close =>
              pure (Expr.call subject close.line arguments)) :=
        ((predicts_argumentList fuel rest).mono (by decide)).part fun _ rest =>
          .last ((Predicts.expect rfl).also fun _ => .pure _)
      have more : Predicts endLine fuel 0 follow (.many access) (t :: rest) rest
          (_ >>= accessRest fuel) := .again (begun same (by decide))
        (.alternative 0 rfl (only_kind same (by decide)) (.behind rfl (.token same) (call _)))
        fun subject rest => (predicts_accessRest fuel subject rest follow).mono (by decide)
      simpa only [bind_assoc, pure_bind] using more
    · refine .accept? (fun t rest left same => ?_) fun noAccess => ?_
      · subst left
        refine .again (begun same (by decide)) (.alternative 1 rfl (only_kind same (by decide))
          (.behind rfl (.token same) (.last (.expectName rfl)))) fun name rest => ?_
        exact (predicts_accessRest fuel _ rest follow).mono (by decide)
      -- neither of the two begins another access, so the repetition is done
      · have others : ∀ kind ∈ [Kind.leftParen, .dot], heading tokens ≠ some kind := by
          simp [noCall, noAccess]
        exact .silent (.pure _) fun fits => .done fits (refused others)

theorem predicts_argumentList (fuel : Nat) (tokens : List Token) :
    Predicts endLine fuel 17 [some .rightParen] (.optional (.named .arguments)) tokens tokens
      (argumentList fuel) := by
  match fuel with
  | 0 => exact .starved (by decide)
  | fuel + 1 =>
    rw [argumentList]
    exact .succ (.optionalUnless (by decide) (.pure _) (predicts_arguments fuel [] tokens _))
      (Nat.le_refl _)

/-- Arguments are taken past the limit too: that there are too many is a soft error. -/
theorem predicts_arguments (fuel : Nat) (done : List Expr) (tokens : List Token) (follow : Ahead) :
    Predicts endLine fuel 16 follow (.named .arguments) tokens tokens (arguments fuel done) := by
  match fuel with
  | 0 => exact .starved (by decide)
  | fuel + 1 =>
    have more : Predicts endLine fuel 15 follow (.named .arguments) tokens tokens
        (assignment fuel >>= fun argument => accept? .comma >>= fun comma =>
          match comma with
          | some _ => arguments fuel (argument :: done)
          | none => pure (argument :: done).reverse) := by
      refine .named rfl ?_
      refine (Predicts.named rfl (predicts_assignment fuel tokens _)).seq rfl
        fun argument rest => .last ?_
      refine .accept? (fun t rest' left same => ?_) fun other => ?_
      · subst left
        -- a comma commits the reader to another argument
        refine .present (begun same (by decide)) (.behind rfl (.token same) (.last ?_))
        exact (predicts_arguments fuel _ rest' _).mono (by decide)
      · exact .absent (.pure _) (refused_one other)
    rw [arguments]
    dsimp only
    split
    · refine .succ (Silent.leads (.report rfl) fun _ => more) (Nat.le_refl _)
    · exact more.succ (Nat.le_refl _)

/-- A primary expression is told by its first token, and stuck at any other. -/
theorem predicts_primary (fuel : Nat) (tokens : List Token) (follow : Ahead) :
    Predicts endLine fuel 1 follow (.named .primary) tokens tokens (primary fuel) := by
  match fuel with
  | 0 => exact .starved (by decide)
  | fuel + 1 =>
    rw [primary]
    refine .named rfl (.succ ?_ (Nat.le_refl _))
    refine .acceptLiteral? (fun t value rest left constant => ?_) fun noLiteral => ?_
    · subst left
      have single : ∀ kind ∈ literals, kind ∉ [Kind.leftParen, .super] ∧
          kind ∈ [Kind.number, .string, .true, .false, .nil, .this, .identifier] := by decide
      exact .alternative 0 rfl (only_kind rfl (single _ constant).1)
        (.taken (.pure _) (.anyToken (single _ constant).2))
    refine .accept? (fun t rest left same => ?_) fun noThis => ?_
    · subst left
      exact .alternative 0 rfl (only_kind same (by decide))
        (.taken (Silent.freshId.bind fun _ => .pure _) (.anyToken (by rw [same]; decide)))
    refine .accept? (fun t rest left same => ?_) fun noSuper => ?_
    · subst left
      exact .alternative 2 rfl (only_kind same (by decide))
        (.behind rfl (.token same) (predicts_superAccess fuel _ rest _ t))
    refine .accept? (fun t rest left same => ?_) fun noName => ?_
    · subst left
      exact .alternative 0 rfl (only_kind same (by decide))
        (.taken ((Silent.occurrence _).bind fun _ => .pure _) (.anyToken (by rw [same]; decide)))
    refine .accept? (fun t rest left same => ?_) fun noGroup => ?_
    · subst left
      refine .alternative 1 rfl (only_kind same (by decide)) (.behind rfl (.token same) ?_)
      refine (Predicts.named rfl ((predicts_assignment fuel rest _).mono (by decide))).seq rfl
        fun _ rest => .last ?_
      exact (Predicts.expect rfl).also fun _ => .pure _
    -- the kind at hand starts no alternative: this is the impossible token
    · have others : ∀ kind ∈ [Kind.this, .identifier, .leftParen, .super],
          heading tokens ≠ some kind := by simp [noThis, noName, noGroup, noSuper]
      have all : ∀ kind ∈ callHeads,
          kind ∈ literals ∨ kind ∈ [Kind.this, .identifier, .leftParen, .super] := by decide
      refine .fail rfl fun _ => .here rfl rfl fun kind head among => ?_
      rcases all kind among with literal | other
      · exact noLiteral kind head literal
      · exact others kind other head

end

/-! ## Simple statements -/

theorem predicts_expression (fuel : Nat) (tokens : List Token) (follow : Ahead) :
    Predicts endLine fuel 15 follow (.named .expression) tokens tokens (expression fuel) :=
  .named rfl (predicts_assignment fuel tokens _)

/-- An expression that is left out where the token comes next behind it. -/
theorem predicts_expressionUnless (fuel : Nat) {kind : Kind} (closes : kind ∉ expressionHeads)
    (tokens : List Token) : Predicts endLine fuel 15 [some kind] (.optional (.named .expression))
      tokens tokens (expressionUnless fuel kind) :=
  .optionalUnless closes (.pure _) ((predicts_expression fuel tokens _).also fun _ => .pure _)

/-- An expression, what must stand behind it, and what is made of it. -/
theorem predicts_terminated {α : Type} (fuel : Nat) (tokens : List Token) (follow : Ahead)
    {kind : Kind} {cause : SyntaxCause} (hard : cause.isSoft = false) (make : Expr → α) :
    Predicts endLine fuel 15 follow (all [.named .expression, .token kind]) tokens tokens (do
      let e ← expression fuel
      let _ ← expect kind cause
      return make e) :=
  (predicts_expression fuel tokens _).seq rfl fun _ _ =>
    .last ((Predicts.expect hard).also fun _ => .pure _)

theorem predicts_expressionStatement (fuel : Nat) (tokens : List Token) (follow : Ahead) :
    Predicts endLine fuel 15 follow (.named .exprStmt) tokens tokens (expressionStatement fuel) :=
  .named rfl (predicts_terminated fuel tokens _ rfl _)

theorem predicts_variableDeclaration (fuel : Nat) (tokens : List Token) (follow : Ahead) :
    Predicts endLine fuel 15 follow (all [.token .identifier,
      .optional (all [.token .equal, .named .expression]), .token .semicolon]) tokens tokens
      (variableDeclaration fuel) := by
  refine (Predicts.expectName rfl).seq rfl fun name rest => ?_
  refine .accept? (fun t rest' left same => ?_) fun other => ?_
  · subst left
    have value (follow : Ahead) : Predicts endLine fuel 32 follow
        (.optional (all [.token .equal, .named .expression])) (t :: rest') rest'
        (expression fuel) := .present (begun same (by decide)) (.behind rfl (.token same)
          (.last ((predicts_expression fuel rest' _).mono (by decide))))
    exact (value _).part fun e rest => .last ((Predicts.expect rfl).also fun _ => .pure _)
  · refine .skip (refused_one other) ?_
    exact .last ((Predicts.expect rfl).also fun _ => .pure _)

theorem predicts_returnStatement (fuel : Nat) (tokens : List Token) (follow : Ahead)
    (keyword : Token) : Predicts endLine fuel 15 follow
      (all [.optional (.named .expression), .token .semicolon]) tokens tokens
      (returnStatement fuel keyword) :=
  (predicts_expressionUnless fuel (by decide) tokens).part fun _ _ =>
    .last ((Predicts.expect rfl).also fun _ => .pure _)

theorem predicts_jumpStatement (fuel depth : Nat) (tokens : List Token) (follow : Ahead)
    (jump : Jump) (keyword : Token) : Predicts endLine fuel depth follow (all [.token .semicolon])
      tokens tokens (jumpStatement jump keyword) := by
  refine .last ((Predicts.expect rfl).also fun _ => ?_)
  cases jump <;> exact .pure _

/-- The first clause of a loop is told by its first token. -/
theorem predicts_loopInitializer (fuel : Nat) (tokens : List Token) (follow : Ahead) :
    Predicts endLine fuel 15 follow (any [.named .varDecl, .named .exprStmt, .token .semicolon])
      tokens tokens (loopInitializer fuel) := by
  refine .accept? (fun t rest left same => ?_) fun noEnd => ?_
  · subst left
    exact .alternative 2 rfl (only_kind same (by decide)) (.taken (.pure _) (.token same))
  refine .accept? (fun t rest left same => ?_) fun noVar => ?_
  · subst left
    refine .alternative 0 rfl (only_kind same (by decide))
      (.named rfl (.behind rfl (.token same) ?_))
    exact ((predicts_variableDeclaration fuel rest _).mono (by decide)).also fun _ => .pure _
  · have others : ∀ kind ∈ [Kind.var, .semicolon], heading tokens ≠ some kind := by
      simp [noVar, noEnd]
    exact .alternative 1 rfl (refused others)
      ((predicts_expressionStatement fuel tokens _).also fun _ => .pure _)

/-! ## Declarations and statements -/

theorem predicts_parameters (fuel : Nat) (done : List Name) (tokens : List Token) (follow : Ahead) :
    Predicts endLine fuel 1 follow (.named .parameters) tokens tokens (parameters fuel done) := by
  induction fuel generalizing done tokens follow with
  | zero => exact .starved (by decide)
  | succ fuel ih =>
    have more : Predicts endLine fuel 0 follow (.named .parameters) tokens tokens
        (expectName .parameterName >>= fun name => accept? .comma >>= fun comma =>
          match comma with
          | some _ => parameters fuel (name :: done)
          | none => pure (name :: done).reverse) := by
      refine .named rfl ((Predicts.expectName rfl).seq rfl fun argument rest => .last ?_)
      refine .accept? (fun t rest' left same => ?_) fun other => ?_
      · subst left
        -- a comma commits the reader to another name
        refine .present (begun same (by decide)) (.behind rfl (.token same) (.last ?_))
        exact (ih _ rest' _).mono (by decide)
      · exact .absent (.pure _) (refused_one other)
    rw [parameters]
    dsimp only
    split
    · exact .succ (Silent.leads (.report rfl) fun _ => more) (Nat.le_refl _)
    · exact more.succ (Nat.le_refl _)

theorem predicts_parameterList (fuel : Nat) (tokens : List Token) :
    Predicts endLine fuel 1 [some .rightParen] (.optional (.named .parameters)) tokens tokens
      (parameterList fuel) :=
  .optionalUnless (by decide) (.pure _) (predicts_parameters fuel [] tokens _)

theorem predicts_superclass? (fuel depth : Nat) (tokens : List Token) (follow : Ahead) :
    Predicts endLine fuel depth follow (.optional (all [.token .less, .token .identifier]))
      tokens tokens superclass? := by
  refine .accept? (fun t rest left same => ?_) fun other => ?_
  · subst left
    refine .present (begun same (by decide)) (.behind rfl (.token same) (.last ?_))
    exact (Predicts.expectName rfl).also fun name => (Silent.occurrence name).bind fun _ => .pure _
  · exact .absent (.pure _) (refused_one other)

section Braces

variable {tokens : List Token}

/-- At a closing brace or at the end, nothing else begins. -/
theorem closed {kinds : List Kind}
    (stops : (heading tokens == some .rightBrace || tokens.isEmpty) = true)
    (other : Kind.rightBrace ∉ kinds) : ∀ kind ∈ heading tokens, kind ∉ kinds := by
  intro kind head
  rcases Bool.or_eq_true_iff.mp stops with brace | ended
  · obtain rfl := Option.some.inj (head.symm.trans (eq_of_beq brace))
    exact other
  · obtain rfl := List.isEmpty_iff.mp ended
    cases head

theorem opened (goes : ¬ (heading tokens == some .rightBrace || tokens.isEmpty) = true) :
    heading tokens ∉ [some Kind.rightBrace] := by
  intro among
  refine goes (Bool.or_eq_true_iff.mpr (.inl ?_))
  rw [List.mem_singleton.mp among]
  rfl

end Braces

mutual

/-- A declaration is told by its keyword; anything else is tried as a statement. -/
theorem predicts_declaration (fuel : Nat) (tokens : List Token) (follow : Ahead) :
    Predicts endLine fuel 17 follow (.named .declaration) tokens tokens (declaration fuel) := by
  match fuel with
  | 0 => exact .starved (by decide)
  | fuel + 1 =>
    rw [declaration]
    refine .named rfl (.succ ?_ (Nat.le_refl _))
    refine .accept? (fun t rest left same => ?_) fun noClass => ?_
    · subst left
      refine .alternative 0 rfl (only_kind same (by decide))
        (.named rfl (.behind rfl (.token same) ?_))
      exact (predicts_classDeclaration fuel rest _).mono (by decide)
    refine .accept? (fun t rest left same => ?_) fun noFun => ?_
    · subst left
      refine .alternative 1 rfl (only_kind same (by decide))
        (.named rfl (.behind rfl (.token same) (.last ?_)))
      exact ((predicts_function fuel .function rest _).mono (by decide)).also fun _ => .pure _
    refine .accept? (fun t rest left same => ?_) fun noVar => ?_
    · subst left
      refine .alternative 2 rfl (only_kind same (by decide))
        (.named rfl (.behind rfl (.token same) ?_))
      exact (predicts_variableDeclaration fuel rest _).mono (by decide)
    -- none of the keywords is here: what follows must be a statement
    · have others : ∀ kind ∈ [Kind.classWord, .fun, .var], heading tokens ≠ some kind := by
        simp [noClass, noFun, noVar]
      exact .alternative 3 rfl (refused others) (predicts_statement fuel tokens _)

/-- Declarations are taken up to a closing brace. -/
theorem predicts_declarations (fuel : Nat) (done : List Stmt) (tokens : List Token) :
    Predicts endLine fuel 18 [some .rightBrace] (.many (.named .declaration)) tokens tokens
      (declarations fuel done) := by
  match fuel with
  | 0 => exact .starved (by decide)
  | fuel + 1 =>
    rw [declarations]
    refine .succ (.next (.atEnd ?_)) (Nat.le_refl _)
    split
    · next stops =>
      exact .silent (.pure _) fun fits => .done fits (closed stops (by decide))
    · next goes =>
      -- only the closing brace ends a block, so a declaration has begun
      have more : Begun [some .rightBrace] (.named .declaration) (heading tokens) :=
        .inl (opened goes)
      refine .again more (.recovering (predicts_declaration fuel tokens _)) fun found rest => ?_
      cases found with
      | none => exact (predicts_declarations fuel done rest).mono (by decide)
      | some s => exact (predicts_declarations fuel _ rest).mono (by decide)

theorem predicts_block (fuel : Nat) (tokens : List Token) (follow : Ahead) :
    Predicts endLine fuel 19 follow (all [.many (.named .declaration), .token .rightBrace])
      tokens tokens (block fuel) := by
  match fuel with
  | 0 => exact .starved (by decide)
  | fuel + 1 =>
    rw [block]
    refine .succ ?_ (Nat.le_refl _)
    refine (predicts_declarations fuel [] tokens).part fun body rest => .last ?_
    exact (Predicts.expect rfl).also fun _ => .pure _

theorem predicts_function (fuel : Nat) (declared : Declared) (tokens : List Token)
    (follow : Ahead) :
    Predicts endLine fuel 1 follow (.named .function) tokens tokens (function fuel declared) := by
  match fuel with
  | 0 => exact .starved (by decide)
  | fuel + 1 =>
    rw [function]
    refine .named rfl (.succ ?_ (Nat.le_refl _))
    refine (Predicts.expectName rfl).seq rfl fun name rest => ?_
    refine (Predicts.expect rfl).seq rfl fun _ rest => ?_
    refine ((predicts_parameterList fuel rest).mono (by decide)).part fun parameters rest => ?_
    refine (Predicts.expect rfl).seq rfl fun _ rest => .last (.named rfl ?_)
    refine (Predicts.expect rfl).seq rfl fun _ rest => ?_
    exact ((predicts_block fuel rest _).mono (by decide)).also fun _ => .pure _

theorem predicts_methods (fuel : Nat) (done : List FunctionDecl) (tokens : List Token) :
    Predicts endLine fuel 2 [some .rightBrace] (.many (.named .function)) tokens tokens
      (methods fuel done) := by
  match fuel with
  | 0 => exact .starved (by decide)
  | fuel + 1 =>
    rw [methods]
    refine .succ (.next (.atEnd ?_)) (Nat.le_refl _)
    split
    · next stops =>
      exact .silent (.pure _) fun fits => .done fits (closed stops (by decide))
    · next goes =>
      have more : Begun [some .rightBrace] (.named .function) (heading tokens) :=
        .inl (opened goes)
      refine .again more (predicts_function fuel .method tokens _) fun method rest => ?_
      exact (predicts_methods fuel _ rest).mono (by decide)

/-- A class body takes methods up to its closing brace. -/
theorem predicts_classDeclaration (fuel : Nat) (tokens : List Token) (follow : Ahead) :
    Predicts endLine fuel 1 follow (all [.token .identifier,
      .optional (all [.token .less, .token .identifier]), .token .leftBrace,
      .many (.named .function), .token .rightBrace]) tokens tokens (classDeclaration fuel) := by
  match fuel with
  | 0 => exact .starved (by decide)
  | fuel + 1 =>
    rw [classDeclaration]
    refine .succ ?_ (Nat.le_refl _)
    refine (Predicts.expectName rfl).seq rfl fun name rest => ?_
    refine (predicts_superclass? fuel 32 rest _).part fun superclass rest => ?_
    refine (Predicts.expect rfl).seq rfl fun _ rest => ?_
    refine ((predicts_methods fuel [] rest).mono (by decide)).part fun body rest => .last ?_
    exact (Predicts.expect rfl).also fun _ => .pure _

/-- A statement is told by its first token, and an expression statement by the lack of a
keyword. -/
theorem predicts_statement (fuel : Nat) (tokens : List Token) (follow : Ahead) :
    Predicts endLine fuel 16 follow (.named .statement) tokens tokens (statement fuel) := by
  match fuel with
  | 0 => exact .starved (by decide)
  | fuel + 1 =>
    rw [statement]
    refine .named rfl (.succ ?_ (Nat.le_refl _))
    refine .accept? (fun t rest left same => ?_) fun noFor => ?_
    · subst left
      refine .alternative 1 rfl (only_kind same (by decide))
        (.named rfl (.behind rfl (.token same) ?_))
      -- the three clauses are taken apart, as each of them may be the first that fails
      simp only [loopClauses, bind_assoc, pure_bind]
      refine (Predicts.expect rfl).seq rfl fun _ rest => ?_
      refine ((predicts_loopInitializer fuel rest _).mono (by decide)).seq rfl fun _ rest => ?_
      refine ((predicts_expressionUnless fuel (by decide) rest).mono (by decide)).part
        fun _ rest => ?_
      refine (Predicts.expect rfl).seq rfl fun _ rest => ?_
      refine ((predicts_expressionUnless fuel (by decide) rest).mono (by decide)).part
        fun _ rest => ?_
      refine (Predicts.expect rfl).seq rfl fun _ rest => .last ?_
      exact ((predicts_statement fuel rest _).mono (by decide)).also fun _ => .pure _
    refine .accept? (fun t rest left same => ?_) fun noIf => ?_
    · subst left
      refine .alternative 2 rfl (only_kind same (by decide))
        (.named rfl (.behind rfl (.token same) ?_))
      simp only [parenthesizedCondition, bind_assoc, pure_bind]
      refine (Predicts.expect rfl).seq rfl fun _ rest => ?_
      refine ((predicts_expression fuel rest _).mono (by decide)).seq rfl fun _ rest => ?_
      refine (Predicts.expect rfl).seq rfl fun _ rest => ?_
      refine ((predicts_statement fuel rest _).mono (by decide)).seq rfl fun _ rest => .last ?_
      refine .accept? (fun t rest left same => ?_) fun noElse => ?_
      · subst left
        -- else belongs to the if just read
        refine .present (begun same (by decide)) (.behind rfl (.token same) (.last ?_))
        exact ((predicts_statement fuel rest _).mono (by decide)).also fun _ => .pure _
      · exact .absent (.pure _) (refused_one noElse)
    refine .accept? (fun t rest left same => ?_) fun noWhile => ?_
    · subst left
      refine .alternative 5 rfl (only_kind same (by decide))
        (.named rfl (.behind rfl (.token same) ?_))
      simp only [parenthesizedCondition, bind_assoc, pure_bind]
      refine (Predicts.expect rfl).seq rfl fun _ rest => ?_
      refine ((predicts_expression fuel rest _).mono (by decide)).seq rfl fun _ rest => ?_
      refine (Predicts.expect rfl).seq rfl fun _ rest => .last ?_
      exact ((predicts_statement fuel rest _).mono (by decide)).also fun _ => .pure _
    refine .accept? (fun t rest left same => ?_) fun noReturn => ?_
    · subst left
      refine .alternative 4 rfl (only_kind same (by decide))
        (.named rfl (.behind rfl (.token same) ?_))
      exact (predicts_returnStatement fuel rest _ t).mono (by decide)
    refine .accept? (fun t rest left same => ?_) fun noBreak => ?_
    · subst left
      exact .alternative 6 rfl (only_kind same (by decide))
        (.named rfl (.behind rfl (.token same) (predicts_jumpStatement fuel _ rest _ .break t)))
    refine .accept? (fun t rest left same => ?_) fun noContinue => ?_
    · subst left
      exact .alternative 7 rfl (only_kind same (by decide))
        (.named rfl (.behind rfl (.token same) (predicts_jumpStatement fuel _ rest _ .continue t)))
    refine .accept? (fun t rest left same => ?_) fun noBlock => ?_
    · subst left
      refine .alternative 8 rfl (only_kind same (by decide))
        (.named rfl (.behind rfl (.token same) ?_))
      exact ((predicts_block fuel rest _).mono (by decide)).also fun _ => .pure _
    refine .accept? (fun t rest left same => ?_) fun noPrint => ?_
    · subst left
      refine .alternative 3 rfl (only_kind same (by decide))
        (.named rfl (.behind rfl (.token same) ?_))
      exact (predicts_terminated fuel rest _ rfl _).mono (by decide)
    -- no keyword of a statement is here: an expression must begin
    · have others : ∀ kind ∈ [Kind.for, .if, .print, .return, .while, .break, .continue,
          .leftBrace], heading tokens ≠ some kind := by
        simp [noFor, noIf, noPrint, noReturn, noWhile, noBreak, noContinue, noBlock]
      exact .alternative 0 rfl (refused others) (predicts_expressionStatement fuel tokens _)

end

/-- A program, up to the end. -/
theorem predicts_declarationsToEnd (fuel : Nat) (done : List Stmt) (tokens : List Token) :
    Predicts endLine fuel 18 [none] (.many (.named .declaration)) tokens tokens
      (declarationsToEnd fuel done) := by
  induction fuel generalizing done tokens with
  | zero => exact .starved (by decide)
  | succ fuel ih =>
    rw [declarationsToEnd]
    refine .succ (.atEnd ?_) (Nat.le_refl _)
    cases tokens with
    | nil => exact .silent (.pure _) fun fits => .done fits (by simp [heading])
    | cons t rest =>
      have more : Begun [none] (.named .declaration) (heading (t :: rest)) :=
        .inl (by simp [heading])
      refine .again more (.recovering (predicts_declaration fuel _ _)) fun found rest => ?_
      cases found with
      | none => exact (ih done rest).mono (by decide)
      | some s => exact (ih _ rest).mono (by decide)

/-! ## Whole texts -/

/-- The error is at the first impossible token: with what stands before it some program of the
relaxed grammar begins, and none goes on with it. At the end, what stands before is no
program. -/
def SyntaxError.AtImpossible (error : SyntaxError) (tokens : Tokens) : Prop :=
  ∃ before behind, tokens.list = before ++ behind ∧ error.At tokens.endLine behind ∧
    (∃ more, Admits (.named .program) (kinds before ++ more)) ∧
    match behind with
    | t :: _ => ∀ more, ¬ Admits (.named .program) (kinds before ++ t.kind :: more)
    | [] => ¬ Admits (.named .program) (kinds before)

/-- Such an error is out of the question by the grammar itself, too, which derives no more than
the relaxed one: it derives no program that begins with the same tokens, that of the error
among them. -/
theorem SyntaxError.AtImpossible.underivable {error : SyntaxError} {tokens : Tokens}
    (impossible : error.AtImpossible tokens) :
    ∃ before behind, tokens.list = before ++ behind ∧ error.At tokens.endLine behind ∧
      match behind with
      | t :: _ => ∀ more, ¬ Derives (.named .program) (kinds before ++ t.kind :: more)
      | [] => ¬ Derives (.named .program) (kinds before) := by
  obtain ⟨before, behind, split, here, -, bar⟩ := impossible
  refine ⟨before, behind, split, here, ?_⟩
  cases behind with
  | nil => exact fun derives => bar derives.admits
  | cons t rest => exact fun more derives => bar more derives.admits

/-- Nothing stands behind a program. -/
theorem within_end : Within [none] 1 := by
  refine ⟨fun text among => ?_, fun text among => ?_⟩
  · obtain rfl := Language.mem_one text |>.mp among
    exact List.mem_singleton_self _
  · cases (Language.mem_one _).mp among

/-- Where the rule of a program is stuck, no program goes on. -/
theorem atImpossible_of_stuck {tokens : Tokens} {error : SyntaxError} {rest : List Token}
    (here : error.At tokens.endLine rest)
    (stuck : Stuck [none] (.many (.named .declaration)) tokens.list rest) :
    error.AtImpossible tokens := by
  obtain ⟨before, split, ⟨more, admits⟩, bar⟩ := stuck
  refine ⟨before, rest, split, here, ⟨more, .named admits⟩, ?_⟩
  have none (text : List Kind) (head : text.head? = heading rest) :
      ¬ Admits (.named .program) (kinds before ++ text) := by
    rintro ⟨⟩
    refine bar 1 within_end text head ?_
    rwa [mul_one]
  cases rest with
  | nil => simpa using none [] rfl
  | cons t rest => exact fun more => none (t.kind :: more) rfl

/-- Where a reading is rejected that began without errors, its first hard error is as stated. -/
theorem first_of_rejected {α : Type} {p : Parser α} {s s' : State} {errors : List SyntaxError}
    (read : s.run p = (.error errors, s')) (clean : s.errors = []) {post : List Token → Prop}
    {bad : SyntaxError → Prop} (follows : Follows s.endLine s.rest p post bad) :
    ∀ first ∈ firstHard errors, bad first := by
  have leads := follows s rfl rfl
  unfold State.run at read
  cases hp : p s with
  | error e after =>
    rw [hp] at leads read
    -- the state started without errors, so those it holds are all new
    obtain ⟨-, new, grown, -, hard⟩ := leads
    obtain ⟨⟨⟩, -⟩ := Prod.mk.inj read
    rwa [grown, clean, List.nil_append]
  | ok a after =>
    rw [hp] at leads read
    obtain ⟨-, new, grown, hard, -⟩ := leads
    rw [clean, List.nil_append] at grown
    simp only [State.conclude] at read
    split at read
    · cases read
    · obtain ⟨⟨⟩, -⟩ := Prod.mk.inj read
      rwa [grown]

/-- The first error of a rejected text that is not soft is at its first impossible token. -/
theorem first_error_impossible {tokens : Tokens} {n last : NodeId} {errors : List SyntaxError}
    (rejected : program tokens n = (.error errors, last)) {error : SyntaxError}
    (first : (errors.filter fun error => !error.cause.isSoft).head? = some error) :
    error.AtImpossible tokens := by
  have follows : Predicts tokens.endLine _ _ [none] _ _ _ _ :=
    predicts_declarationsToEnd (allowance tokens.list.length) [] tokens.list
  have enough : 32 * tokens.list.length + 18 ≤ allowance tokens.list.length := by
    unfold allowance
    omega
  have fits : (Rule.many (.named .declaration)).fits [none] := by decide +kernel
  rw [program_eq, Prod.mk.injEq] at rejected
  have read : (freshState tokens n).run _ = (.error errors, _) := Prod.ext rejected.1 rfl
  have found : firstHard errors = some error := by rwa [List.head?_filter] at first
  obtain ⟨rest, here, stuck⟩ := first_of_rejected read rfl follows error found enough fits
  exact atImpossible_of_stuck here stuck

/-- An error that is only soft stands in front of the one that counts: nothing can be assigned
to the sum, but it is the brace that no program goes on with. -/
theorem brace_impossible :
    let tokens : Tokens := ⟨[⟨.identifier, "a", 1⟩, ⟨.plus, "+", 1⟩, ⟨.identifier, "b", 1⟩,
      ⟨.equal, "=", 1⟩, ⟨.identifier, "c", 1⟩, ⟨.semicolon, ";", 1⟩, ⟨.rightBrace, "\x7d", 2⟩], 2⟩
    let soft : SyntaxError := ⟨1, some "=", .assignmentTarget⟩
    let hard : SyntaxError := ⟨2, some "\x7d", .expression⟩
    program tokens 0 = (.error [soft, hard], 3) ∧
      ([soft, hard].filter fun error => !error.cause.isSoft).head? = some hard ∧
      hard.AtImpossible tokens := by
  intro tokens soft hard
  have rejected : program tokens 0 = (.error [soft, hard], 3) := by cbv
  exact ⟨rejected, rfl, first_error_impossible rejected rfl⟩

end ClassScript.Parsing
