import ClassScript.Proofs.Parsing.Declarations

/-!
# Where parse errors are

A parser takes tokens from the front and skips tokens where it recovers, so each error
it records or stops at is at one of the tokens that it began with, or at their end
(`Cites`, one lemma for each parser). What is rejected has at least one error.
-/

namespace ClassScript.Parsing

open Source Syntax

/-- The error is at one of the tokens, or where they end. -/
def SyntaxError.IsIn (error : SyntaxError) (tokens : Tokens) : Prop :=
  (∃ token ∈ tokens.list, error.line = token.line ∧ error.lexeme = some token.lexeme) ∨
    error.line = tokens.endLine ∧ error.lexeme = none

/-- What is left are some of the tokens, and the errors so far are in them. -/
structure State.Reads (s : State) (tokens : Tokens) : Prop where
  rest : s.rest ⊆ tokens.list
  endLine : s.endLine = tokens.endLine
  errors : ∀ error ∈ s.errors, error.IsIn tokens

/-- The parser goes on in the tokens, with a value as stated or an error in them. -/
def Goes {α : Type} (tokens : Tokens) (good : α → Prop) :
    EStateM.Result SyntaxError State α → Prop
  | .ok a s => s.Reads tokens ∧ good a
  | .error error s => s.Reads tokens ∧ error.IsIn tokens

/-- The parser cites no error from outside the tokens it reads, and what it gives is as
stated. -/
def Cites {α : Type} (tokens : Tokens) (p : Parser α) (good : α → Prop) : Prop :=
  ∀ s : State, s.Reads tokens → Goes tokens good (p s)

variable {tokens : Tokens}

theorem State.Reads.errorHere {s : State} (reads : s.Reads tokens) (cause : SyntaxCause) :
    (s.errorHere cause).IsIn tokens := by
  unfold State.errorHere
  cases shape : s.rest with
  | nil => exact .inr ⟨reads.endLine, rfl⟩
  | cons token rest => exact .inl ⟨token, reads.rest (shape ▸ List.mem_cons_self), rfl, rfl⟩

/-- Recording an error about tokens of the text leaves a state of a reader of that text. -/
theorem State.Reads.record {s : State} {error : SyntaxError} (reads : s.Reads tokens)
    (within : error.IsIn tokens) : (s.record error).Reads tokens where
  rest := reads.rest
  endLine := reads.endLine
  errors e among := by
    rcases List.mem_append.mp among with before | now
    · exact reads.errors e before
    · rwa [List.mem_singleton.mp now]

/-- The state behind the token that comes next. -/
theorem State.Reads.behind {s : State} {token : Token} {rest : List Token}
    (reads : s.Reads tokens) (shape : s.rest = token :: rest) :
    token ∈ tokens.list ∧ ({ s with rest } : State).Reads tokens :=
  have all := List.cons_subset.mp (shape ▸ reads.rest)
  ⟨all.1, all.2, reads.endLine, reads.errors⟩

theorem State.Reads.synchronize {s : State} (reads : s.Reads tokens) :
    s.synchronize.Reads tokens := by
  unfold State.synchronize
  cases shape : s.rest with
  | nil => exact reads
  | cons token rest =>
    have skipped := (statementBoundary_suffix token rest).subset
    exact ⟨List.Subset.trans skipped (reads.behind shape).2.rest, reads.endLine, reads.errors⟩

namespace Cites

variable {α β : Type} {p : Parser α}

theorem pure {a : α} {good : α → Prop} (h : good a) : Cites tokens (pure a) good :=
  fun _ reads => ⟨reads, h⟩

/-- Two parsers that cite tokens of the text, one after the other. -/
theorem bind {f : α → Parser β} {good : α → Prop} {good' : β → Prop}
    (first : Cites tokens p good) (rest : ∀ a, good a → Cites tokens (f a) good') :
    Cites tokens (p >>= f) good' := by
  intro s reads
  have before := first s reads
  show Goes tokens good' (EStateM.bind p f s)
  unfold EStateM.bind
  cases hp : p s with
  | error e s' => rw [hp] at before; exact before
  | ok a s' =>
    rw [hp] at before
    exact rest a before.2 s' before.1

theorem fail (cause : SyntaxCause) {good : α → Prop} : Cites tokens (fail cause) good :=
  fun _ reads => ⟨reads, reads.errorHere cause⟩

theorem report (cause : SyntaxCause) : Cites tokens (report cause) fun _ => True :=
  fun _ reads => ⟨reads.record (reads.errorHere cause), trivial⟩

theorem reportAt {token : Token} (among : token ∈ tokens.list) (cause : SyntaxCause) :
    Cites tokens (reportAt token cause) fun _ => True :=
  fun _ reads => ⟨reads.record (.inl ⟨token, among, rfl, rfl⟩), trivial⟩

theorem atEnd : Cites tokens atEnd fun _ => True :=
  fun _ reads => ⟨reads, trivial⟩

theorem freshId : Cites tokens freshId fun _ => True :=
  fun _ reads => ⟨⟨reads.rest, reads.endLine, reads.errors⟩, trivial⟩

theorem next (kind : Kind) : Cites tokens (next kind) fun _ => True := by
  intro s reads
  unfold Parsing.next
  cases s.rest <;> exact ⟨reads, trivial⟩

/-- A token taken is one of the text. -/
theorem accept? (kind : Kind) :
    Cites tokens (accept? kind) fun found => ∀ token ∈ found, token ∈ tokens.list := by
  intro s reads
  unfold Parsing.accept?
  cases shape : s.rest with
  | nil => exact ⟨reads, by simp⟩
  | cons token rest =>
    dsimp only
    split
    · exact ⟨(reads.behind shape).2, by simpa using (reads.behind shape).1⟩
    · exact ⟨reads, by simp⟩

theorem expect (kind : Kind) (cause : SyntaxCause) :
    Cites tokens (expect kind cause) fun _ => True := by
  intro s reads
  unfold Parsing.expect
  cases shape : s.rest with
  | nil => exact ⟨reads, reads.errorHere cause⟩
  | cons token rest =>
    dsimp only
    split
    · exact ⟨(reads.behind shape).2, trivial⟩
    · exact ⟨reads, reads.errorHere cause⟩

theorem expectName (cause : SyntaxCause) :
    Cites tokens (expectName cause) fun _ => True :=
  (expect .identifier cause).bind fun _ _ => .pure trivial

theorem occurrence (name : Name) : Cites tokens (occurrence name) fun _ => True :=
  freshId.bind fun _ _ => .pure trivial

theorem acceptInfix? (level : Level) : Cites tokens (acceptInfix? level) fun _ => True := by
  intro s reads
  unfold Parsing.acceptInfix?
  cases shape : s.rest with
  | nil => exact ⟨reads, trivial⟩
  | cons token rest =>
    dsimp only
    cases infixOp? token.kind with
    | none => exact ⟨reads, trivial⟩
    | some found =>
      dsimp only
      split
      · exact ⟨(reads.behind shape).2, trivial⟩
      · exact ⟨reads, trivial⟩

theorem acceptPrefix? : Cites tokens acceptPrefix? fun _ => True := by
  intro s reads
  unfold Parsing.acceptPrefix?
  cases shape : s.rest with
  | nil => exact ⟨reads, trivial⟩
  | cons token rest =>
    dsimp only
    cases prefixOp? token.kind with
    | none => exact ⟨reads, trivial⟩
    | some op => exact ⟨(reads.behind shape).2, trivial⟩

theorem acceptLiteral? : Cites tokens acceptLiteral? fun _ => True := by
  intro s reads
  unfold Parsing.acceptLiteral?
  cases shape : s.rest with
  | nil => exact ⟨reads, trivial⟩
  | cons token rest =>
    dsimp only
    cases literal? token with
    | none => exact ⟨reads, trivial⟩
    | some value => exact ⟨(reads.behind shape).2, trivial⟩

/-- The error that stops a construct is recorded, and parsing goes on in the tokens. -/
theorem recovering (h : Cites tokens p fun _ => True) :
    Cites tokens (recovering p) fun _ => True := by
  intro s reads
  have ends := h s reads
  unfold Parsing.recovering
  cases hp : p s with
  | ok a s' => rw [hp] at ends; exact ends
  | error e s' =>
    rw [hp] at ends
    exact ⟨(ends.1.record ends.2).synchronize, trivial⟩

end Cites

/-! ## Expressions -/

/-- An invalid target is reported at the equals sign, a token of the text. -/
theorem cites_assignTo {equals : Token} (among : equals ∈ tokens.list) (target value : Expr) :
    Cites tokens (assignTo target equals value) fun _ => True := by
  cases target with
  | «variable» old => exact (Cites.occurrence old.name).bind fun _ _ => .pure trivial
  | get object name => exact .pure trivial
  | _ => exact (Cites.reportAt among _).bind fun _ _ => .pure trivial

theorem cites_superAccess (keyword : Token) :
    Cites tokens (superAccess keyword) fun _ => True := by
  refine (Cites.expect .dot .superDot).bind fun _ _ => ?_
  refine (Cites.expectName .superMethod).bind fun _ _ => ?_
  exact Cites.freshId.bind fun _ _ => .pure trivial

mutual

theorem cites_assignment (fuel : Nat) : Cites tokens (assignment fuel) fun _ => True := by
  cases fuel with
  | zero => exact .fail _
  | succ fuel =>
    rw [assignment]
    refine (cites_infixChain fuel .or).bind fun target _ => ?_
    refine (Cites.accept? .equal).bind fun equals among => ?_
    cases equals with
    | none => exact .pure trivial
    | some equals =>
      exact (cites_assignment fuel).bind fun value _ => cites_assignTo (among equals rfl) _ _

theorem cites_infixChain (fuel : Nat) (level : Level) :
    Cites tokens (infixChain fuel level) fun _ => True := by
  cases fuel with
  | zero => exact .fail _
  | succ fuel =>
    rw [infixChain]
    exact (cites_operand fuel level).bind fun left _ => cites_infixRest fuel level left

theorem cites_infixRest (fuel : Nat) (level : Level) (left : Expr) :
    Cites tokens (infixRest fuel level left) fun _ => True := by
  cases fuel with
  | zero => exact .fail _
  | succ fuel =>
    rw [infixRest]
    refine (Cites.acceptInfix? level).bind fun found _ => ?_
    cases found with
    | none => exact .pure trivial
    | some found =>
      exact (cites_operand fuel level).bind fun right _ => cites_infixRest fuel level _

theorem cites_operand (fuel : Nat) (level : Level) :
    Cites tokens (operand fuel level) fun _ => True := by
  cases fuel with
  | zero => exact .fail _
  | succ fuel =>
    rw [operand]
    cases level.tighter? with
    | none => exact cites_unary fuel
    | some tighter => exact cites_infixChain fuel tighter

theorem cites_unary (fuel : Nat) : Cites tokens (unary fuel) fun _ => True := by
  cases fuel with
  | zero => exact .fail _
  | succ fuel =>
    rw [unary]
    refine Cites.acceptPrefix?.bind fun found _ => ?_
    cases found with
    | none => exact (cites_primary fuel).bind fun subject _ => cites_accessRest fuel subject
    | some found => exact (cites_unary fuel).bind fun _ _ => .pure trivial

theorem cites_accessRest (fuel : Nat) (subject : Expr) :
    Cites tokens (accessRest fuel subject) fun _ => True := by
  cases fuel with
  | zero => exact .fail _
  | succ fuel =>
    rw [accessRest]
    refine (Cites.accept? .leftParen).bind fun opening _ => ?_
    cases opening with
    | some opening =>
      refine (cites_argumentList fuel).bind fun arguments _ => ?_
      exact (Cites.expect .rightParen .argumentsClose).bind fun _ _ => cites_accessRest fuel _
    | none =>
      refine (Cites.accept? .dot).bind fun dot _ => ?_
      cases dot with
      | none => exact .pure trivial
      | some dot =>
        exact (Cites.expectName .propertyName).bind fun _ _ => cites_accessRest fuel _

theorem cites_argumentList (fuel : Nat) : Cites tokens (argumentList fuel) fun _ => True := by
  cases fuel with
  | zero => exact .fail _
  | succ fuel =>
    rw [argumentList]
    refine (Cites.next .rightParen).bind fun closed _ => ?_
    cases closed with
    | true => exact .pure trivial
    | false => exact cites_arguments fuel []

/-- Too many arguments are reported at the argument that is too many. -/
theorem cites_arguments (fuel : Nat) (done : List Expr) :
    Cites tokens (arguments fuel done) fun _ => True := by
  cases fuel with
  | zero => exact .fail _
  | succ fuel =>
    have more : Cites tokens (assignment fuel >>= fun argument => accept? .comma >>= fun comma =>
        match comma with
        | some _ => arguments fuel (argument :: done)
        | none => pure (argument :: done).reverse) fun _ => True := by
      refine (cites_assignment fuel).bind fun argument _ => ?_
      refine (Cites.accept? .comma).bind fun comma _ => ?_
      cases comma with
      | none => exact .pure trivial
      | some comma => exact cites_arguments fuel _
    rw [arguments]
    dsimp only
    -- the limit is checked first: its error cites the token at hand and reading goes on
    split
    · exact (Cites.report _).bind fun _ _ => more
    · exact more

/-- A missing expression is reported at the next token. -/
theorem cites_primary (fuel : Nat) : Cites tokens (primary fuel) fun _ => True := by
  cases fuel with
  | zero => exact .fail _
  | succ fuel =>
    rw [primary]
    refine Cites.acceptLiteral?.bind fun found _ => ?_
    cases found with
    | some value => exact .pure trivial
    | none =>
    refine (Cites.accept? .this).bind fun found _ => ?_
    cases found with
    | some token => exact Cites.freshId.bind fun _ _ => .pure trivial
    | none =>
    refine (Cites.accept? .super).bind fun found _ => ?_
    cases found with
    | some token => exact cites_superAccess token
    | none =>
    refine (Cites.accept? .identifier).bind fun found _ => ?_
    cases found with
    | some token => exact (Cites.occurrence _).bind fun _ _ => .pure trivial
    | none =>
    refine (Cites.accept? .leftParen).bind fun found _ => ?_
    cases found with
    -- nothing that starts an expression is here: the error cites the token found
    | none => exact .fail _
    | some token =>
      refine (cites_assignment fuel).bind fun inner _ => ?_
      exact (Cites.expect .rightParen .groupClose).bind fun _ _ => .pure trivial

end

/-! ## Simple statements -/

theorem cites_expressionUnless (fuel : Nat) (kind : Kind) :
    Cites tokens (expressionUnless fuel kind) fun _ => True := by
  refine (Cites.next kind).bind fun found _ => ?_
  cases found with
  | true => exact .pure trivial
  | false => exact (cites_assignment fuel).bind fun _ _ => .pure trivial

theorem cites_variableDeclaration (fuel : Nat) :
    Cites tokens (variableDeclaration fuel) fun _ => True := by
  refine (Cites.expectName _).bind fun name _ => ?_
  refine (Cites.accept? .equal).bind fun equals _ => ?_
  have finish (initializer : Option Expr) :
      Cites tokens (expect .semicolon .variableEnd >>= fun _ => pure (Stmt.var name initializer))
        fun _ => True := (Cites.expect _ _).bind fun _ _ => .pure trivial
  cases equals with
  | none => exact finish none
  | some equals => exact (cites_assignment fuel).bind fun e _ => finish (some e)

/-- An expression, what must stand behind it, and what is made of it. -/
theorem cites_terminated {α : Type} (fuel : Nat) (kind : Kind) (cause : SyntaxCause)
    (make : Expr → α) : Cites tokens (do
      let e ← expression fuel
      let _ ← expect kind cause
      return make e) fun _ => True :=
  (cites_assignment fuel).bind fun _ _ => (Cites.expect _ _).bind fun _ _ => .pure trivial

theorem cites_returnStatement (fuel : Nat) (keyword : Token) :
    Cites tokens (returnStatement fuel keyword) fun _ => True :=
  (cites_expressionUnless fuel _).bind fun _ _ =>
    (Cites.expect _ _).bind fun _ _ => .pure trivial

theorem cites_jumpStatement (jump : Jump) (keyword : Token) :
    Cites tokens (jumpStatement jump keyword) fun _ => True := by
  refine (Cites.expect _ _).bind fun _ _ => ?_
  cases jump <;> exact .pure trivial

theorem cites_loopInitializer (fuel : Nat) :
    Cites tokens (loopInitializer fuel) fun _ => True := by
  refine (Cites.accept? .semicolon).bind fun found _ => ?_
  cases found with
  | some token => exact .pure trivial
  | none =>
  refine (Cites.accept? .var).bind fun found _ => ?_
  cases found with
  | some token => exact (cites_variableDeclaration fuel).bind fun _ _ => .pure trivial
  | none => exact (cites_terminated fuel _ _ _).bind fun _ _ => .pure trivial

theorem cites_loopClauses (fuel : Nat) : Cites tokens (loopClauses fuel) fun _ => True := by
  refine (Cites.expect .leftParen .forOpen).bind fun _ _ => ?_
  refine (cites_loopInitializer fuel).bind fun initializer _ => ?_
  refine (cites_expressionUnless fuel .semicolon).bind fun condition _ => ?_
  refine (Cites.expect .semicolon .loopConditionEnd).bind fun _ _ => ?_
  refine (cites_expressionUnless fuel .rightParen).bind fun increment _ => ?_
  exact (Cites.expect .rightParen .forClose).bind fun _ _ => .pure trivial

theorem cites_parenthesizedCondition (fuel : Nat) (opening : SyntaxCause) :
    Cites tokens (parenthesizedCondition fuel opening) fun _ => True :=
  (Cites.expect .leftParen opening).bind fun _ _ => cites_terminated fuel _ _ _

theorem cites_parameters (fuel : Nat) (done : List Name) :
    Cites tokens (parameters fuel done) fun _ => True := by
  induction fuel generalizing done with
  | zero => exact .fail _
  | succ fuel ih =>
    have more : Cites tokens (expectName .parameterName >>= fun name => accept? .comma >>=
        fun comma => match comma with
        | some _ => parameters fuel (name :: done)
        | none => pure (name :: done).reverse) fun _ => True := by
      refine (Cites.expectName _).bind fun name _ => ?_
      refine (Cites.accept? .comma).bind fun comma _ => ?_
      cases comma with
      | none => exact .pure trivial
      | some comma => exact ih _
    rw [parameters]
    dsimp only
    -- the limit is checked first: its error cites the token at hand and reading goes on
    split
    · exact (Cites.report _).bind fun _ _ => more
    · exact more

theorem cites_parameterList (fuel : Nat) :
    Cites tokens (parameterList fuel) fun _ => True := by
  refine (Cites.next _).bind fun found _ => ?_
  cases found with
  | true => exact .pure trivial
  | false => exact cites_parameters fuel []

theorem cites_superclass? : Cites tokens superclass? fun _ => True := by
  refine (Cites.accept? _).bind fun found _ => ?_
  cases found with
  | none => exact .pure trivial
  | some token =>
    refine (Cites.expectName _).bind fun name _ => ?_
    exact (Cites.occurrence name).bind fun _ _ => .pure trivial

/-! ## Statements and declarations -/

mutual

theorem cites_declaration (fuel : Nat) : Cites tokens (declaration fuel) fun _ => True := by
  cases fuel with
  | zero => exact .fail _
  | succ fuel =>
    rw [declaration]
    refine (Cites.accept? _).bind fun found _ => ?_
    cases found with
    | some token => exact cites_classDeclaration fuel
    | none =>
    refine (Cites.accept? _).bind fun found _ => ?_
    cases found with
    | some token => exact (cites_function fuel .function).bind fun _ _ => .pure trivial
    | none =>
    refine (Cites.accept? _).bind fun found _ => ?_
    cases found with
    | some token => exact cites_variableDeclaration fuel
    | none => exact cites_statement fuel

theorem cites_declarations (fuel : Nat) (done : List Stmt) :
    Cites tokens (declarations fuel done) fun _ => True := by
  cases fuel with
  | zero => exact .fail _
  | succ fuel =>
    rw [declarations]
    refine (Cites.next _).bind fun closed _ => Cites.atEnd.bind fun ended _ => ?_
    split
    · exact .pure trivial
    · refine (cites_declaration fuel).recovering.bind fun found _ => ?_
      cases found with
      | none => exact cites_declarations fuel done
      | some s => exact cites_declarations fuel (s :: done)

theorem cites_block (fuel : Nat) : Cites tokens (block fuel) fun _ => True := by
  cases fuel with
  | zero => exact .fail _
  | succ fuel =>
    rw [block]
    refine (cites_declarations fuel []).bind fun body _ => ?_
    exact (Cites.expect _ _).bind fun _ _ => .pure trivial

theorem cites_function (fuel : Nat) (declared : Declared) :
    Cites tokens (function fuel declared) fun _ => True := by
  cases fuel with
  | zero => exact .fail _
  | succ fuel =>
    rw [function]
    refine (Cites.expectName _).bind fun name _ => ?_
    refine (Cites.expect _ _).bind fun _ _ => ?_
    refine (cites_parameterList fuel).bind fun ps _ => ?_
    refine (Cites.expect _ _).bind fun _ _ => ?_
    refine (Cites.expect _ _).bind fun _ _ => ?_
    exact (cites_block fuel).bind fun _ _ => .pure trivial

theorem cites_methods (fuel : Nat) (done : List FunctionDecl) :
    Cites tokens (methods fuel done) fun _ => True := by
  cases fuel with
  | zero => exact .fail _
  | succ fuel =>
    rw [methods]
    refine (Cites.next _).bind fun closed _ => Cites.atEnd.bind fun ended _ => ?_
    split
    · exact .pure trivial
    · exact (cites_function fuel .method).bind fun d _ => cites_methods fuel (d :: done)

theorem cites_classDeclaration (fuel : Nat) :
    Cites tokens (classDeclaration fuel) fun _ => True := by
  cases fuel with
  | zero => exact .fail _
  | succ fuel =>
    rw [classDeclaration]
    refine (Cites.expectName _).bind fun name _ => ?_
    refine cites_superclass?.bind fun superclass _ => ?_
    refine (Cites.expect _ _).bind fun _ _ => ?_
    refine (cites_methods fuel []).bind fun body _ => ?_
    exact (Cites.expect _ _).bind fun _ _ => .pure trivial

/-- Every error of a statement is about tokens of the text, whichever statement it is. -/
theorem cites_statement (fuel : Nat) : Cites tokens (statement fuel) fun _ => True := by
  cases fuel with
  | zero => exact .fail _
  | succ fuel =>
    rw [statement]
    refine (Cites.accept? _).bind fun found _ => ?_
    cases found with
    | some token =>
      refine (cites_loopClauses fuel).bind fun clauses _ => ?_
      exact (cites_statement fuel).bind fun body _ => .pure trivial
    | none =>
    refine (Cites.accept? _).bind fun found _ => ?_
    cases found with
    | some token =>
      refine (cites_parenthesizedCondition fuel _).bind fun condition _ => ?_
      refine (cites_statement fuel).bind fun yes _ => ?_
      refine (Cites.accept? _).bind fun found _ => ?_
      cases found with
      | none => exact .pure trivial
      | some token => exact (cites_statement fuel).bind fun no _ => .pure trivial
    | none =>
    refine (Cites.accept? _).bind fun found _ => ?_
    cases found with
    | some token =>
      refine (cites_parenthesizedCondition fuel _).bind fun condition _ => ?_
      exact (cites_statement fuel).bind fun body _ => .pure trivial
    | none =>
    refine (Cites.accept? _).bind fun found _ => ?_
    cases found with
    | some keyword => exact cites_returnStatement fuel keyword
    | none =>
    refine (Cites.accept? _).bind fun found _ => ?_
    cases found with
    | some keyword => exact cites_jumpStatement .break keyword
    | none =>
    refine (Cites.accept? _).bind fun found _ => ?_
    cases found with
    | some keyword => exact cites_jumpStatement .continue keyword
    | none =>
    refine (Cites.accept? _).bind fun found _ => ?_
    cases found with
    | some token => exact (cites_block fuel).bind fun body _ => .pure trivial
    | none =>
    refine (Cites.accept? _).bind fun found _ => ?_
    cases found with
    | some token => exact cites_terminated fuel _ _ _
    -- a print and an expression statement both end at a semicolon
    | none => exact cites_terminated fuel _ _ _

end

/-! ## Whole texts -/

/-- Every error of a program is about tokens of the text, those recovered from included. -/
theorem cites_declarationsToEnd (fuel : Nat) (done : List Stmt) :
    Cites tokens (declarationsToEnd fuel done) fun _ => True := by
  induction fuel generalizing done with
  | zero => exact .fail _
  | succ fuel ih =>
    rw [declarationsToEnd]
    refine Cites.atEnd.bind fun ended _ => ?_
    cases ended with
    | true => exact .pure trivial
    | false =>
      refine (cites_declaration fuel).recovering.bind fun found _ => ?_
      cases found with
      | none => exact ih done
      | some s => exact ih (s :: done)

theorem cites_wholeExpression (fuel : Nat) :
    Cites tokens (wholeExpression fuel) fun _ => True := by
  refine (cites_assignment fuel).bind fun e _ => ?_
  refine Cites.atEnd.bind fun ended _ => ?_
  cases ended with
  | true => exact .pure trivial
  | false => exact (Cites.report _).bind fun _ _ => .pure trivial

/-- A rejection says why: it has errors, each of them in the tokens. -/
def Rejected {α : Type} (tokens : Tokens) (reading : Reading α) : Prop :=
  ∀ errors, reading = .error errors → errors ≠ [] ∧ ∀ error ∈ errors, error.IsIn tokens

/-- The errors with which a parser's run ends. -/
theorem Cites.rejected {α : Type} {p : Parser α} {s : State}
    (h : Cites tokens p fun _ => True) (reads : s.Reads tokens) :
    Rejected tokens (s.run p).1 := by
  have ends := h s reads
  intro errors rejected
  unfold State.run at rejected
  cases hp : p s with
  | error e s' =>
    rw [hp] at rejected ends
    cases rejected
    refine ⟨by simp, fun error among => ?_⟩
    -- an error recorded on the way, or the one that ended the reading
    rcases List.mem_append.mp among with before | last
    · exact ends.1.errors error before
    · rw [List.mem_singleton.mp last]
      exact ends.2
  | ok a s' =>
    rw [hp] at rejected ends
    dsimp only at rejected
    unfold State.conclude at rejected
    cases found : s'.errors with
    | nil => rw [found] at rejected; cases rejected
    | cons first rest =>
      rw [found] at rejected
      cases rejected
      exact ⟨List.cons_ne_nil _ _, found ▸ ends.1.errors⟩

/-- A run ends where the text does that it began in. -/
theorem Cites.endLine {α : Type} {p : Parser α} {s : State}
    (h : Cites tokens p fun _ => True) (reads : s.Reads tokens) :
    (s.run p).2.endLine = tokens.endLine := by
  have ends := h s reads
  unfold State.run
  cases hp : p s with
  | error e s' =>
    rw [hp] at ends
    exact ends.1.endLine
  | ok a s' =>
    rw [hp] at ends
    dsimp only
    unfold State.conclude
    cases s'.errors with
    | nil => exact ends.1.endLine
    | cons first rest => exact ends.1.endLine

/-- A reader that has read nothing, or starts again. -/
theorem reads_start (tokens : Tokens) (n : NodeId) :
    State.Reads ⟨tokens.list, tokens.endLine, [], n⟩ tokens :=
  ⟨List.Subset.refl _, rfl, by simp⟩

/-- A rejected program has an error, and each of its errors is about tokens of the text. -/
theorem program_rejected (tokens : Tokens) (n : NodeId) :
    Rejected tokens (program tokens n).1 :=
  (cites_declarationsToEnd _ []).rejected (reads_start tokens n)

/-- A rejected expression has an error, and each of its errors is about tokens of the text. -/
theorem singleExpression_rejected (tokens : Tokens) (n : NodeId) :
    Rejected tokens (singleExpression tokens n).1 :=
  (cites_wholeExpression _).rejected (reads_start tokens n)

/-- A rejected input has an error, and each of its errors is about tokens of the text. -/
theorem input_rejected (tokens : Tokens) (n : NodeId) :
    Rejected tokens (input tokens n).1 := by
  have kept : ((Reader.start tokens n).state.run (wholeExpression _)).2.endLine =
      tokens.endLine := (cites_wholeExpression (Reader.start tokens n).state.fuel).endLine
    (reads_start tokens n)
  intro errors rejected
  rw [input, Reader.input_eq, Reader.expression, State.expression] at rejected
  generalize (Reader.start tokens n).state.run _ = run at kept rejected
  obtain ⟨reading, state⟩ := run
  cases reading with
  | ok e => cases rejected
  | error first =>
    -- the second reading starts on the same tokens with no error recorded
    have again : State.Reads ⟨tokens.list, state.endLine, [], state.nextId⟩ tokens :=
      ⟨List.Subset.refl _, kept, by simp⟩
    have second := (cites_declarationsToEnd (allowance tokens.list.length) []).rejected again
    refine second errors ?_
    dsimp only [Reader.again, Reader.program, Reader.restart, Reader.start, State.program,
      State.fuel] at rejected
    revert rejected
    cases (State.run _ _).1 with
    | ok ss =>
      intro rejected
      cases rejected
    | error errors =>
      intro rejected
      cases rejected
      rfl

end ClassScript.Parsing
