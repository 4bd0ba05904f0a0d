import ClassScript.Proofs.Parsing.Tokens

/-!
# The trees of texts

`Tree` says which syntax tree some tokens have, construct by construct. Infix operators
of a level associate to the left: behind an operand, each operator joins all that stands
before it. An `else` belongs to the nearest `if` that is open: what stands between them
is closed. A `for` is a plain loop in a block (`Counts`). The identities of occurrences are
numbered from left to right, where the target of an assignment gets a number after the
value. A tree is built from the tokens alone, and nothing here says how it is found.
-/

namespace ClassScript.Parsing

open Source Syntax

/-- What tokens can be read as, with its tree. -/
inductive Phrase where
  | primary (e : Expr)
  /-- Calls and property accesses behind an expression, and what they make of it. -/
  | callRest (subject e : Expr)
  /-- A primary expression with calls and property accesses. -/
  | call (e : Expr)
  /-- The arguments of a call. -/
  | arguments (es : List Expr)
  /-- Further arguments, with a comma before each of them. -/
  | moreArguments (es : List Expr)
  | unary (e : Expr)
  /-- Operators of a level with operands behind an expression, and what they make of
  it. -/
  | chainRest (level : Level) (left e : Expr)
  /-- Operands of a level joined by its operators. -/
  | chain (level : Level) (e : Expr)
  | assignment (e : Expr)
  | optional (e : Option Expr)
  /-- A variable declaration behind `var`. -/
  | variable (s : Stmt)
  | expressionStatement (s : Stmt)
  /-- What runs before a counting loop, up to its semicolon. -/
  | initializer (s : Option Stmt)
  /-- A statement. It is open if it ends with an `if` that has no `else`. -/
  | statement (isOpen : Bool) (s : Stmt)
  | declaration (s : Stmt)
  | declarations (ss : List Stmt)
  | parameters (names : List Name)
  /-- Further parameters, with a comma before each of them. -/
  | moreParameters (names : List Name)
  /-- A function or method from its name on. -/
  | function (d : FunctionDecl)
  | methods (ds : List FunctionDecl)
  /-- The superclass of a class, if there is one. -/
  | superclass (o : Option Occurrence)

/-- An operand of a level: a chain of the next tighter level, or behind the tightest one an
expression with prefix operators. -/
def Phrase.operand : Level → Expr → Phrase
  | .or, e => .chain .and e
  | .and, e => .chain .equality e
  | .equality, e => .chain .comparison e
  | .comparison, e => .chain .term e
  | .term, e => .chain .factor e
  | .factor, e => .unary e

/-- What a `for` with a condition, an increment and a body is: a loop that keeps the
increment, and behind an initializer a block with both. A condition that is left out is
true. -/
inductive Counts (condition increment : Option Expr) (body : Stmt) : Option Stmt → Stmt → Prop
  | bare : Counts condition increment body none
      (.loop (condition.getD (.literal (.bool true))) body increment)
  | block {first : Stmt} : Counts condition increment body (some first)
      (.block [first, .loop (condition.getD (.literal (.bool true))) body increment])

/-- The tokens are such a phrase, where identities are drawn from the first number on and
before the last. -/
inductive Tree : NodeId → List Token → Phrase → NodeId → Prop
  -- expressions
  | literal {n t value} (constant : t.Denotes value) :
      Tree n [t] (.primary (.literal value)) n
  | this {n t} (keyword : t.kind = .this) : Tree n [t] (.primary (.this n t.line)) (n + 1)
  | super {n t dot method} (keyword : t.kind = .super) (separator : dot.kind = .dot)
      (name : method.kind = .identifier) :
      Tree n [t, dot, method] (.primary (.super n t.line method.asName)) (n + 1)
  | identifier {n t} (name : t.kind = .identifier) :
      Tree n [t] (.primary (.variable ⟨n, t.asName⟩)) (n + 1)
  | group {n opening ts e n₁ closing} (opens : opening.kind = .leftParen)
      (inner : Tree n ts (.assignment e) n₁) (closes : closing.kind = .rightParen) :
      Tree n (opening :: ts ++ [closing]) (.primary (.group e)) n₁
  | uncalled {n e} : Tree n [] (.callRest e e) n
  /-- A call has the line of its closing parenthesis. -/
  | called {n opening ts es n₁ closing us subject e n₂} (opens : opening.kind = .leftParen)
      (arguments : Tree n ts (.arguments es) n₁) (closes : closing.kind = .rightParen)
      (rest : Tree n₁ us (.callRest (.call subject closing.line es) e) n₂) :
      Tree n (opening :: ts ++ closing :: us) (.callRest subject e) n₂
  | property {n dot t us subject e n₁} (separator : dot.kind = .dot)
      (name : t.kind = .identifier)
      (rest : Tree n us (.callRest (.get subject t.asName) e) n₁) :
      Tree n (dot :: t :: us) (.callRest subject e) n₁
  | call {n ts subject n₁ us e n₂} (first : Tree n ts (.primary subject) n₁)
      (rest : Tree n₁ us (.callRest subject e) n₂) : Tree n (ts ++ us) (.call e) n₂
  | noArguments {n} : Tree n [] (.arguments []) n
  | arguments {n ts e n₁ us es n₂} (first : Tree n ts (.assignment e) n₁)
      (more : Tree n₁ us (.moreArguments es) n₂) (few : es.length < 255) :
      Tree n (ts ++ us) (.arguments (e :: es)) n₂
  | noMoreArguments {n} : Tree n [] (.moreArguments []) n
  | moreArguments {n comma ts e n₁ us es n₂} (separator : comma.kind = .comma)
      (first : Tree n ts (.assignment e) n₁) (more : Tree n₁ us (.moreArguments es) n₂) :
      Tree n (comma :: ts ++ us) (.moreArguments (e :: es)) n₂
  | operated {n t op ts e n₁} (sign : t.kind = UnaryOp.kind op)
      (operand : Tree n ts (.unary e) n₁) : Tree n (t :: ts) (.unary (.unary op t.line e)) n₁
  | unary {n ts e n₁} (call : Tree n ts (.call e) n₁) : Tree n ts (.unary e) n₁
  | unjoined {n level e} : Tree n [] (.chainRest level e e) n
  | joined {n t level ts right n₁ us left node e n₂} (joins : Joins t left right level node)
      (operand : Tree n ts (.operand level right) n₁)
      (rest : Tree n₁ us (.chainRest level node e) n₂) :
      Tree n (t :: ts ++ us) (.chainRest level left e) n₂
  | chain {n ts level left n₁ us e n₂} (first : Tree n ts (.operand level left) n₁)
      (rest : Tree n₁ us (.chainRest level left e) n₂) : Tree n (ts ++ us) (.chain level e) n₂
  | unassigned {n ts e n₁} (chain : Tree n ts (.chain .or e) n₁) : Tree n ts (.assignment e) n₁
  /-- The name left of `=` was numbered as a variable first, and that number is not used. -/
  | assigned {n t equals ts e n₁} (name : t.kind = .identifier) (sign : equals.kind = .equal)
      (value : Tree (n + 1) ts (.assignment e) n₁) :
      Tree n (t :: equals :: ts) (.assignment (.assign ⟨n₁, t.asName⟩ e)) (n₁ + 1)
  | set {n ts object n₁ dot t equals us e n₂} (owner : Tree n ts (.call object) n₁)
      (separator : dot.kind = .dot) (name : t.kind = .identifier) (sign : equals.kind = .equal)
      (value : Tree n₁ us (.assignment e) n₂) :
      Tree n (ts ++ dot :: t :: equals :: us) (.assignment (.set object t.asName e)) n₂
  | leftOut {n} : Tree n [] (.optional none) n
  | given {n ts e n₁} (given : Tree n ts (.assignment e) n₁) : Tree n ts (.optional (some e)) n₁
  -- statements
  | uninitialized {n t semicolon} (name : t.kind = .identifier)
      (ends : semicolon.kind = .semicolon) :
      Tree n [t, semicolon] (.variable (.var t.asName none)) n
  | initialized {n t equals ts e n₁ semicolon} (name : t.kind = .identifier)
      (sign : equals.kind = .equal) (value : Tree n ts (.assignment e) n₁)
      (ends : semicolon.kind = .semicolon) :
      Tree n (t :: equals :: ts ++ [semicolon]) (.variable (.var t.asName (some e))) n₁
  | expression {n ts e n₁ semicolon} (inner : Tree n ts (.assignment e) n₁)
      (ends : semicolon.kind = .semicolon) :
      Tree n (ts ++ [semicolon]) (.expressionStatement (.expression e)) n₁
  | noInitializer {n semicolon} (ends : semicolon.kind = .semicolon) :
      Tree n [semicolon] (.initializer none) n
  | variableInitializer {n t ts s n₁} (keyword : t.kind = .var)
      (declared : Tree n ts (.variable s) n₁) : Tree n (t :: ts) (.initializer (some s)) n₁
  | expressionInitializer {n ts s n₁} (inner : Tree n ts (.expressionStatement s) n₁) :
      Tree n ts (.initializer (some s)) n₁
  | expressionStatement {n ts s n₁} (inner : Tree n ts (.expressionStatement s) n₁) :
      Tree n ts (.statement false s) n₁
  | forLoop {n t opening ts initializer n₁ us condition n₂ semicolon vs increment n₃ closing ws
        isOpen body n₄ s} (keyword : t.kind = .for) (opens : opening.kind = .leftParen)
      (first : Tree n ts (.initializer initializer) n₁)
      (test : Tree n₁ us (.optional condition) n₂) (ends : semicolon.kind = .semicolon)
      (step : Tree n₂ vs (.optional increment) n₃) (closes : closing.kind = .rightParen)
      (inner : Tree n₃ ws (.statement isOpen body) n₄)
      (counts : Counts condition increment body initializer s) :
      Tree n (t :: opening :: ts ++ us ++ semicolon :: vs ++ closing :: ws)
        (.statement isOpen s) n₄
  | ifThen {n t opening ts condition n₁ closing us isOpen yes n₂} (keyword : t.kind = .if)
      (opens : opening.kind = .leftParen) (test : Tree n ts (.assignment condition) n₁)
      (closes : closing.kind = .rightParen) (branch : Tree n₁ us (.statement isOpen yes) n₂) :
      Tree n (t :: opening :: ts ++ closing :: us) (.statement true (.branch condition yes none))
        n₂
  /-- What stands before an `else` has no open `if` for it. -/
  | ifElse {n t opening ts condition n₁ closing us yes n₂ other vs isOpen no n₃}
      (keyword : t.kind = .if) (opens : opening.kind = .leftParen)
      (test : Tree n ts (.assignment condition) n₁) (closes : closing.kind = .rightParen)
      (first : Tree n₁ us (.statement false yes) n₂) (otherwise : other.kind = .else)
      (second : Tree n₂ vs (.statement isOpen no) n₃) :
      Tree n (t :: opening :: ts ++ closing :: us ++ other :: vs)
        (.statement isOpen (.branch condition yes (some no))) n₃
  | whileLoop {n t opening ts condition n₁ closing us isOpen body n₂} (keyword : t.kind = .while)
      (opens : opening.kind = .leftParen) (test : Tree n ts (.assignment condition) n₁)
      (closes : closing.kind = .rightParen) (inner : Tree n₁ us (.statement isOpen body) n₂) :
      Tree n (t :: opening :: ts ++ closing :: us)
        (.statement isOpen (.loop condition body none)) n₂
  | returns {n t ts e n₁ semicolon} (keyword : t.kind = .return)
      (value : Tree n ts (.optional e) n₁) (ends : semicolon.kind = .semicolon) :
      Tree n (t :: ts ++ [semicolon]) (.statement false (.return t.line e)) n₁
  | breaks {n t semicolon} (keyword : t.kind = .break) (ends : semicolon.kind = .semicolon) :
      Tree n [t, semicolon] (.statement false (.break t.line)) n
  | continues {n t semicolon} (keyword : t.kind = .continue)
      (ends : semicolon.kind = .semicolon) :
      Tree n [t, semicolon] (.statement false (.continue t.line)) n
  | block {n opening ts body n₁ closing} (opens : opening.kind = .leftBrace)
      (inner : Tree n ts (.declarations body) n₁) (closes : closing.kind = .rightBrace) :
      Tree n (opening :: ts ++ [closing]) (.statement false (.block body)) n₁
  | print {n t ts e n₁ semicolon} (keyword : t.kind = .print)
      (value : Tree n ts (.assignment e) n₁) (ends : semicolon.kind = .semicolon) :
      Tree n (t :: ts ++ [semicolon]) (.statement false (.print e)) n₁
  -- declarations
  | classDecl {n t name ts superclass n₁ opening us body n₂ closing} (keyword : t.kind = .classWord)
      (named : name.kind = .identifier) (parent : Tree n ts (.superclass superclass) n₁)
      (opens : opening.kind = .leftBrace) (inner : Tree n₁ us (.methods body) n₂)
      (closes : closing.kind = .rightBrace) :
      Tree n (t :: name :: ts ++ opening :: us ++ [closing])
        (.declaration (.classDecl name.asName superclass body)) n₂
  | funDecl {n t ts d n₁} (keyword : t.kind = .fun) (declared : Tree n ts (.function d) n₁) :
      Tree n (t :: ts) (.declaration (.function d)) n₁
  | varDecl {n t ts s n₁} (keyword : t.kind = .var) (declared : Tree n ts (.variable s) n₁) :
      Tree n (t :: ts) (.declaration s) n₁
  | statement {n ts isOpen s n₁} (inner : Tree n ts (.statement isOpen s) n₁) :
      Tree n ts (.declaration s) n₁
  | noDeclarations {n} : Tree n [] (.declarations []) n
  | declarations {n ts s n₁ us ss n₂} (first : Tree n ts (.declaration s) n₁)
      (rest : Tree n₁ us (.declarations ss) n₂) :
      Tree n (ts ++ us) (.declarations (s :: ss)) n₂
  | noSuperclass {n} : Tree n [] (.superclass none) n
  | superclass {n less t} (sign : less.kind = .less) (name : t.kind = .identifier) :
      Tree n [less, t] (.superclass (some ⟨n, t.asName⟩)) (n + 1)
  | noMethods {n} : Tree n [] (.methods []) n
  | methods {n ts d n₁ us ds n₂} (first : Tree n ts (.function d) n₁)
      (rest : Tree n₁ us (.methods ds) n₂) : Tree n (ts ++ us) (.methods (d :: ds)) n₂
  | function {n t opening ts parameters n₁ closing brace us body n₂ closingBrace}
      (name : t.kind = .identifier) (opens : opening.kind = .leftParen)
      (list : Tree n ts (.parameters parameters) n₁) (closes : closing.kind = .rightParen)
      (begins : brace.kind = .leftBrace) (inner : Tree n₁ us (.declarations body) n₂)
      (ends : closingBrace.kind = .rightBrace) :
      Tree n (t :: opening :: ts ++ closing :: brace :: us ++ [closingBrace])
        (.function ⟨t.asName, parameters, body⟩) n₂
  | noParameters {n} : Tree n [] (.parameters []) n
  | parameters {n t ts names n₁} (name : t.kind = .identifier)
      (more : Tree n ts (.moreParameters names) n₁) (few : names.length < 255) :
      Tree n (t :: ts) (.parameters (t.asName :: names)) n₁
  | noMoreParameters {n} : Tree n [] (.moreParameters []) n
  | moreParameters {n comma t ts names n₁} (separator : comma.kind = .comma)
      (name : t.kind = .identifier) (more : Tree n ts (.moreParameters names) n₁) :
      Tree n (comma :: t :: ts) (.moreParameters (t.asName :: names)) n₁

/-- The parser's levels follow one another as the operands do. -/
theorem Phrase.operand_eq (level : Level) (e : Expr) : operand level e =
    match level.tighter? with
    | some tighter => .chain tighter e
    | none => .unary e := by
  cases level <;> rfl

/-- The parser makes such a loop of the parts of a `for`. -/
theorem counts_iff {condition increment : Option Expr} {body s : Stmt}
    {initializer : Option Stmt} : Counts condition increment body initializer s ↔
      s = countingLoop initializer (condition.getD (.literal (.bool true))) body increment := by
  constructor
  · rintro (_ | _) <;> rfl
  · rintro rfl
    cases initializer with
    | none => exact .bare
    | some first => exact .block

/-! ## First tokens -/

/-- The tokens that an expression can begin with. -/
def beginsExpression : Kind → Bool
  | .number | .string | .true | .false | .nil | .this | .super | .identifier
  | .leftParen | .bang | .minus => true
  | _ => false

def Phrase.isExpression : Phrase → Bool
  | .primary _ | .call _ | .unary _ | .chain _ _ | .assignment _ => true
  | _ => false

theorem Phrase.isExpression_operand (level : Level) (e : Expr) :
    (Phrase.operand level e).isExpression := by
  cases level <;> rfl

theorem beginsExpression_of_denotes {t : Token} {value : Literal}
    (constant : t.Denotes value) : beginsExpression t.kind := by
  rcases constant with same | same | same | same | same <;> rw [same] <;> rfl

theorem beginsExpression_of_prefix (op : UnaryOp) : beginsExpression op.kind := by
  cases op <;> rfl

/-- An expression has a token, and begins with one that no other construct begins with. -/
theorem Tree.begins {n n' : NodeId} {ts : List Token} {p : Phrase} (tree : Tree n ts p n')
    (expression : p.isExpression) : ∃ t more, ts = t :: more ∧ beginsExpression t.kind := by
  have extend {ts us : List Token} (h : ∃ t more, ts = t :: more ∧ beginsExpression t.kind) :
      ∃ t more, ts ++ us = t :: more ∧ beginsExpression t.kind := by
    obtain ⟨t, more, rfl, begins⟩ := h
    exact ⟨t, more ++ us, rfl, begins⟩
  induction tree with
  | literal constant => exact ⟨_, _, rfl, beginsExpression_of_denotes constant⟩
  | this keyword | super keyword | identifier keyword | group keyword =>
    exact ⟨_, _, rfl, by rw [keyword]; rfl⟩
  | assigned name => exact ⟨_, _, rfl, by rw [name]; rfl⟩
  | operated sign => exact ⟨_, _, rfl, sign ▸ beginsExpression_of_prefix _⟩
  | call _ _ first | set _ _ _ _ _ first => exact extend (first rfl)
  | chain _ _ first => exact extend (first (Phrase.isExpression_operand _ _))
  | unary _ ih | unassigned _ ih => exact ih rfl
  | _ => cases expression

/-- A token that no expression begins with is not the first one of an expression. -/
theorem ne_of_begins {kind other : Kind} (begins : beginsExpression kind)
    (outside : beginsExpression other = false) : kind ≠ other := by
  rintro rfl
  rw [begins] at outside
  cases outside

/-- An expression statement begins with a token that begins an expression. -/
theorem Tree.expressionStatement_begins {n n' : NodeId} {ts : List Token} {s : Stmt}
    (tree : Tree n ts (.expressionStatement s) n') :
    ∃ t more, ts = t :: more ∧ beginsExpression t.kind := by
  cases tree with
  | expression inner =>
    obtain ⟨t, more, rfl, begins⟩ := inner.begins rfl
    exact ⟨t, _, rfl, begins⟩

/-- The tokens that end the row of declarations that they stand behind, or belong to the
declaration before them. -/
def endsDeclarations (kind : Kind) : Prop := kind = .rightBrace ∨ kind = .else

/-- A declaration has a token, and begins with none that belongs to what stands before. -/
theorem Tree.declaration_begins {n n' : NodeId} {ts : List Token} {s : Stmt}
    (tree : Tree n ts (.declaration s) n') :
    ∃ t more, ts = t :: more ∧ ¬ endsDeclarations t.kind := by
  cases tree with
  | classDecl keyword | funDecl keyword | varDecl keyword =>
    exact ⟨_, _, rfl, by simp [endsDeclarations, keyword]⟩
  | statement inner =>
    cases inner with
    | expressionStatement inner =>
      obtain ⟨t, more, rfl, begins⟩ := inner.expressionStatement_begins
      exact ⟨t, more, rfl, not_or.mpr ⟨ne_of_begins begins rfl, ne_of_begins begins rfl⟩⟩
    | forLoop keyword | ifThen keyword | ifElse keyword | whileLoop keyword | returns keyword
    | breaks keyword | continues keyword | block keyword | print keyword =>
      exact ⟨_, _, rfl, by simp [endsDeclarations, keyword]⟩

/-- A row of declarations does not begin with what ends one. -/
theorem Tree.declarations_begin {n n' : NodeId} {ts : List Token} {ss : List Stmt}
    (tree : Tree n ts (.declarations ss) n') : ∀ t ∈ ts.head?, ¬ endsDeclarations t.kind := by
  cases tree with
  | noDeclarations => nofun
  | declarations first =>
    obtain ⟨t, more, rfl, begins⟩ := first.declaration_begins
    rintro _ ⟨⟩
    exact begins

theorem Tree.function_begins {n n' : NodeId} {ts : List Token} {d : FunctionDecl}
    (tree : Tree n ts (.function d) n') : ∃ t more, ts = t :: more ∧ t.kind = .identifier := by
  cases tree with
  | function name => exact ⟨_, _, rfl, name⟩

/-! ## What can be assigned to -/

/-- Whether an expression can be assigned to: a variable or a property. -/
def isTarget : Expr → Bool
  | .variable _ | .get _ _ => true
  | _ => false

theorem Joins.not_target {t : Token} {left right node : Expr} {level : Level}
    (joins : Joins t left right level node) : isTarget node = false := by
  cases joins <;> rfl

/-- A chain that gives a target had no operator in it: it is the operand itself. -/
theorem Tree.of_chainRest {n n' : NodeId} {ts : List Token} {level : Level} {left e : Expr}
    (tree : Tree n ts (.chainRest level left e) n') (target : isTarget e) :
    ts = [] ∧ left = e ∧ n' = n := by
  generalize shape : Phrase.chainRest level left e = p at tree
  induction tree generalizing left with
  | unjoined =>
    cases shape
    exact ⟨rfl, rfl, rfl⟩
  | joined joins _ _ _ ih =>
    cases shape
    obtain ⟨-, rfl, -⟩ := ih rfl
    rw [joins.not_target] at target
    cases target
  | _ => cases shape

/-- A variable or a property is a call on every level of operators. -/
theorem Tree.of_chain {n n' : NodeId} {ts : List Token} {level : Level} {e : Expr}
    (tree : Tree n ts (.chain level e) n') (target : isTarget e) : Tree n ts (.call e) n' := by
  generalize shape : Phrase.chain level e = p at tree
  have ofUnary {n n' : NodeId} {ts : List Token} (tree : Tree n ts (.unary e) n') :
      Tree n ts (.call e) n' := by
    cases tree with
    | operated => cases target
    | unary call => exact call
  induction tree generalizing level with
  | @chain _ _ level' _ _ _ _ _ first rest ih =>
    cases shape
    obtain ⟨rfl, rfl, rfl⟩ := rest.of_chainRest target
    rw [List.append_nil]
    cases level' with
    | factor => exact ofUnary first
    | _ => exact ih rfl
  | _ => cases shape

/-- A row of calls and reads that gives a property read ends with that read. -/
theorem Tree.of_callRest {n n' : NodeId} {ts : List Token} {subject object : Expr} {name : Name}
    (tree : Tree n ts (.callRest subject (.get object name)) n') :
    (ts = [] ∧ subject = .get object name ∧ n' = n) ∨ ∃ us dot t, ts = us ++ [dot, t] ∧
      Tree n us (.callRest subject object) n' ∧ dot.kind = .dot ∧ t.kind = .identifier ∧
        name = t.asName := by
  generalize shape : Phrase.callRest subject (.get object name) = p at tree
  induction tree generalizing subject with
  | uncalled =>
    cases shape
    exact .inl ⟨rfl, rfl, rfl⟩
  | @called _ opening ts _ _ closing us _ _ _ opens arguments closes _ _ ih =>
    cases shape
    -- a call is no property, so the property was read behind it
    rcases ih rfl with ⟨-, ⟨⟩, -⟩ | ⟨us', dot, t, rfl, inner, separator, named, same⟩
    exact .inr ⟨opening :: ts ++ closing :: us', dot, t, by simp,
      .called opens arguments closes inner, separator, named, same⟩
  | @property _ dot t us _ _ _ separator named _ ih =>
    cases shape
    -- this access is the last one, or the last one follows
    rcases ih rfl with ⟨rfl, same, rfl⟩ | ⟨us', dot', t', rfl, inner, separator', named', same⟩
    · cases same
      exact .inr ⟨[], dot, t, rfl, .uncalled, separator, named, rfl⟩
    · exact .inr ⟨dot :: t :: us', dot', t', rfl, .property separator named inner, separator',
        named', same⟩
  | _ => cases shape

/-- A property access is a call and the name of the property. -/
theorem Tree.of_get {n n' : NodeId} {ts : List Token} {object : Expr} {name : Name}
    (tree : Tree n ts (.call (.get object name)) n') :
    ∃ us dot t, ts = us ++ [dot, t] ∧ Tree n us (.call object) n' ∧ dot.kind = .dot ∧
      t.kind = .identifier ∧ name = t.asName := by
  cases tree with
  | @call _ ts subject _ us _ _ first rest =>
    rcases rest.of_callRest with ⟨-, rfl, -⟩ | ⟨us', dot, t, rfl, inner, separator, named, same⟩
    · cases first
    · exact ⟨ts ++ us', dot, t, by simp, .call first inner, separator, named, same⟩

/-- Calls and property accesses make no variable. -/
theorem Tree.callRest_variable {n n' : NodeId} {ts : List Token} {subject : Expr}
    {o : Occurrence} (tree : Tree n ts (.callRest subject (.variable o)) n') :
    ts = [] ∧ subject = .variable o ∧ n' = n := by
  generalize shape : Phrase.callRest subject (.variable o) = p at tree
  induction tree generalizing subject with
  | uncalled =>
    cases shape
    exact ⟨rfl, rfl, rfl⟩
  | called _ _ _ _ _ ih | property _ _ _ ih =>
    cases shape
    obtain ⟨-, ⟨⟩, -⟩ := ih rfl
  | _ => cases shape

/-- A variable is an identifier. -/
theorem Tree.of_variable {n n' : NodeId} {ts : List Token} {o : Occurrence}
    (tree : Tree n ts (.call (.variable o)) n') :
    ∃ t, ts = [t] ∧ t.kind = .identifier ∧ o = ⟨n, t.asName⟩ ∧ n' = n + 1 := by
  cases tree with
  | call first rest =>
    obtain ⟨rfl, rfl, rfl⟩ := rest.callRest_variable
    cases first with
    | identifier name => exact ⟨_, rfl, name, rfl, rfl⟩

end ClassScript.Parsing
