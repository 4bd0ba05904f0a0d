import ClassScript.Proofs.Parsing.Renamed

/-!
# Reading with later identities

A parser looks at no identity: it draws new ones and puts them into trees. So where
identities are drawn from a later number on, the same tokens are consumed, the same errors
are recorded, and what is read has later identities (`Moves`, one lemma for each parser).
Unlike the trees of tokens, this also speaks about tokens that are rejected: what is wrong
with a program does not depend on the identities (`program_up`).
-/

namespace ClassScript.Parsing

open Source Syntax

/-- Identities that begin further up. -/
def up (k : Nat) : Renaming := .ofNodes (· + k)

/-- The state in which identities are drawn from further up. -/
def State.up (k : Nat) (s : State) : State := { s with nextId := s.nextId + k }

/-- What a parser ends with, and the second parser from further up. -/
def upEnd {α β : Type} (k : Nat) (act : α → β) :
    EStateM.Result SyntaxError State α → EStateM.Result SyntaxError State β
  | .ok a s => .ok (act a) (s.up k)
  | .error error s => .error error (s.up k)

/-- The second parser does from further up what the first one does, where its value is
made from the other one. -/
def Moves {α β : Type} (k : Nat) (act : α → β) (p : Parser α) (q : Parser β) : Prop :=
  ∀ s : State, q (s.up k) = upEnd k act (p s)

namespace Moves

variable {k : Nat} {α β γ δ : Type} {act : α → β} {p : Parser α} {q : Parser β}

theorem pure {a : α} {b : β} (same : b = act a) : Moves k act (pure a) (pure b) := by
  intro s
  rw [same]
  rfl

/-- Two parsers one after the other, where the second goes on from a moved value. -/
theorem bind {act' : γ → δ} {f : α → Parser γ} {g : β → Parser δ} (first : Moves k act p q)
    (rest : ∀ a, Moves k act' (f a) (g (act a))) : Moves k act' (p >>= f) (q >>= g) := by
  intro s
  show EStateM.bind q g (s.up k) = upEnd k act' (EStateM.bind p f s)
  unfold EStateM.bind
  rw [first s]
  cases p s with
  | ok a s' => exact rest a s'
  | error error s' => rfl

theorem fail (cause : SyntaxCause) : Moves k act (fail cause) (fail cause) :=
  fun _ => rfl

theorem report (cause : SyntaxCause) : Moves k id (report cause) (report cause) :=
  fun _ => rfl

theorem reportAt (token : Token) (cause : SyntaxCause) :
    Moves k id (reportAt token cause) (reportAt token cause) :=
  fun _ => rfl

theorem atEnd : Moves k id atEnd atEnd :=
  fun _ => rfl

/-- The identity drawn is moved as the counter is. -/
theorem freshId : Moves k (up k).node freshId freshId := by
  intro s
  have counter : s.nextId + k + 1 = s.nextId + 1 + k := Nat.add_right_comm ..
  exact congrArg (fun n => EStateM.Result.ok (s.nextId + k) { s with nextId := n }) counter

theorem next (kind : Kind) : Moves k id (next kind) (next kind) := by
  rintro ⟨_ | ⟨token, rest⟩, endLine, errors, n⟩ <;> rfl

theorem accept? (kind : Kind) : Moves k id (accept? kind) (accept? kind) := by
  rintro ⟨_ | ⟨token, rest⟩, endLine, errors, n⟩
  · rfl
  · unfold Parsing.accept? State.up
    by_cases found : token.kind = kind
    · simp only [if_pos found]
      rfl
    · simp only [if_neg found]
      rfl

theorem expect (kind : Kind) (cause : SyntaxCause) :
    Moves k id (expect kind cause) (expect kind cause) := by
  rintro ⟨_ | ⟨token, rest⟩, endLine, errors, n⟩
  · rfl
  · unfold Parsing.expect State.up
    by_cases found : token.kind = kind
    · simp only [if_pos found]
      rfl
    · simp only [if_neg found]
      rfl

theorem expectName (cause : SyntaxCause) :
    Moves k (Name.rename (up k)) (expectName cause) (expectName cause) :=
  (expect .identifier cause).bind fun _ => .pure rfl

/-- An occurrence draws the moved identity. -/
theorem occurrence (name : Name) : Moves k (Occurrence.rename (up k))
    (occurrence name) (occurrence (name.rename (up k))) :=
  freshId.bind fun _ => .pure rfl

theorem acceptInfix? (level : Level) : Moves k id (acceptInfix? level) (acceptInfix? level) := by
  rintro ⟨_ | ⟨token, rest⟩, endLine, errors, n⟩
  · rfl
  · unfold Parsing.acceptInfix? State.up
    dsimp only
    cases infixOp? token.kind with
    | none => rfl
    | some found =>
      by_cases own : found.1 = level
      · simp only [if_pos own]
        rfl
      · simp only [if_neg own]
        rfl

theorem acceptPrefix? : Moves k id acceptPrefix? acceptPrefix? := by
  rintro ⟨_ | ⟨token, rest⟩, endLine, errors, n⟩
  · rfl
  · unfold Parsing.acceptPrefix? State.up
    dsimp only
    cases prefixOp? token.kind <;> rfl

theorem acceptLiteral? : Moves k id acceptLiteral? acceptLiteral? := by
  rintro ⟨_ | ⟨token, rest⟩, endLine, errors, n⟩
  · rfl
  · unfold Parsing.acceptLiteral? State.up
    dsimp only
    cases literal? token <;> rfl

theorem synchronize : ∀ s : State, (s.up k).synchronize = s.synchronize.up k := by
  rintro ⟨_ | ⟨token, rest⟩, endLine, errors, n⟩ <;> rfl

/-- Parsing goes on at the same token. -/
theorem recovering (h : Moves k act p q) :
    Moves k (Option.map act) (recovering p) (recovering q) := by
  intro s
  unfold Parsing.recovering
  rw [h s]
  cases p s with
  | ok a s' => rfl
  | error error s' => exact congrArg (EStateM.Result.ok none) (synchronize (s'.record error))

end Moves

variable {k : Nat}

/-! ## Expressions -/

theorem moves_assignTo (target : Expr) (equals : Token) (value : Expr) :
    Moves k (Expr.rename (up k)) (assignTo target equals value)
      (assignTo (target.rename (up k)) equals (value.rename (up k))) := by
  cases target with
  | «variable» old => exact (Moves.occurrence old.name).bind fun _ => .pure rfl
  | get object name => exact .pure rfl
  | _ => exact (Moves.reportAt _ _).bind fun _ => .pure rfl

theorem moves_superAccess (keyword : Token) :
    Moves k (Expr.rename (up k)) (superAccess keyword) (superAccess keyword) := by
  refine (Moves.expect .dot .superDot).bind fun _ => ?_
  refine (Moves.expectName .superMethod).bind fun _ => ?_
  exact Moves.freshId.bind fun _ => .pure rfl

mutual

theorem moves_assignment (fuel : Nat) :
    Moves k (Expr.rename (up k)) (assignment fuel) (assignment fuel) := by
  cases fuel with
  | zero => exact .fail _
  | succ fuel =>
    rw [assignment]
    refine (moves_infixChain fuel .or).bind fun target => ?_
    refine (Moves.accept? .equal).bind fun equals => ?_
    cases equals with
    | none => exact .pure rfl
    | some equals =>
      exact (moves_assignment fuel).bind fun value => moves_assignTo target equals value
termination_by fuel
decreasing_by all_goals omega

theorem moves_infixChain (fuel : Nat) (level : Level) :
    Moves k (Expr.rename (up k)) (infixChain fuel level) (infixChain fuel level) := by
  cases fuel with
  | zero => exact .fail _
  | succ fuel =>
    rw [infixChain]
    exact (moves_operand fuel level).bind fun left => moves_infixRest fuel level left
termination_by fuel
decreasing_by all_goals omega

/-- The rest of a chain goes on from a moved operand. -/
theorem moves_infixRest (fuel : Nat) (level : Level) (left : Expr) :
    Moves k (Expr.rename (up k)) (infixRest fuel level left)
      (infixRest fuel level (left.rename (up k))) := by
  cases fuel with
  | zero => exact .fail _
  | succ fuel =>
    rw [infixRest, infixRest]
    refine (Moves.acceptInfix? level).bind fun found => ?_
    cases found with
    | none => exact .pure rfl
    | some found =>
      refine (moves_operand fuel level).bind fun right => ?_
      have rest := moves_infixRest fuel level (found.1.join found.2.line left right)
      rwa [InfixOp.rename_join] at rest
termination_by fuel
decreasing_by all_goals omega

theorem moves_operand (fuel : Nat) (level : Level) :
    Moves k (Expr.rename (up k)) (operand fuel level) (operand fuel level) := by
  cases fuel with
  | zero => exact .fail _
  | succ fuel =>
    rw [operand]
    cases level.tighter? with
    | none => exact moves_unary fuel
    | some tighter => exact moves_infixChain fuel tighter
termination_by fuel
decreasing_by all_goals omega

theorem moves_unary (fuel : Nat) :
    Moves k (Expr.rename (up k)) (unary fuel) (unary fuel) := by
  cases fuel with
  | zero => exact .fail _
  | succ fuel =>
    rw [unary]
    refine Moves.acceptPrefix?.bind fun found => ?_
    cases found with
    | none => exact (moves_primary fuel).bind fun subject => moves_accessRest fuel subject
    | some found => exact (moves_unary fuel).bind fun _ => .pure rfl
termination_by fuel
decreasing_by all_goals omega

/-- What follows a call or a property read goes on from a moved subject. -/
theorem moves_accessRest (fuel : Nat) (subject : Expr) :
    Moves k (Expr.rename (up k)) (accessRest fuel subject)
      (accessRest fuel (subject.rename (up k))) := by
  cases fuel with
  | zero => exact .fail _
  | succ fuel =>
    rw [accessRest, accessRest]
    refine (Moves.accept? .leftParen).bind fun opening => ?_
    cases opening with
    | some opening =>
      refine (moves_argumentList fuel).bind fun arguments => ?_
      -- the call built so far is renamed as a whole before reading goes on
      exact (Moves.expect .rightParen .argumentsClose).bind fun close =>
        moves_accessRest fuel (.call subject close.line arguments)
    | none =>
      refine (Moves.accept? .dot).bind fun dot => ?_
      cases dot with
      | none => exact .pure rfl
      | some dot =>
        exact (Moves.expectName .propertyName).bind fun name =>
          moves_accessRest fuel (.get subject name)
termination_by fuel
decreasing_by all_goals omega

theorem moves_argumentList (fuel : Nat) :
    Moves k (Expr.renameAll (up k)) (argumentList fuel) (argumentList fuel) := by
  cases fuel with
  | zero => exact .fail _
  | succ fuel =>
    rw [argumentList]
    refine (Moves.next .rightParen).bind fun closed => ?_
    cases closed with
    | true => exact .pure rfl
    | false => exact moves_arguments fuel []
termination_by fuel
decreasing_by all_goals omega

/-- The arguments already read are moved with those to come. -/
theorem moves_arguments (fuel : Nat) (done : List Expr) :
    Moves k (Expr.renameAll (up k)) (arguments fuel done)
      (arguments fuel (Expr.renameAll (up k) done)) := by
  cases fuel with
  | zero => exact .fail _
  | succ fuel =>
    have more : Moves k (Expr.renameAll (up k))
        (assignment fuel >>= fun argument => accept? .comma >>= fun comma =>
          match comma with
          | some _ => arguments fuel (argument :: done)
          | none => pure (argument :: done).reverse)
        (assignment fuel >>= fun argument => accept? .comma >>= fun comma =>
          match comma with
          | some _ => arguments fuel (argument :: Expr.renameAll (up k) done)
          | none => pure (argument :: Expr.renameAll (up k) done).reverse) := by
      refine (moves_assignment fuel).bind fun argument => ?_
      refine (Moves.accept? .comma).bind fun comma => ?_
      cases comma with
      | none => exact .pure (by simp only [Expr.renameAll_eq, List.map_reverse, List.map_cons])
      | some comma => exact moves_arguments fuel (argument :: done)
    -- as many arguments are read on both sides, so the limit is hit on both or on neither
    have length : (Expr.renameAll (up k) done).length = done.length := by
      rw [Expr.renameAll_eq, List.length_map]
    rw [arguments, arguments]
    dsimp only
    rw [length]
    split
    · exact (Moves.report _).bind fun _ => more
    · exact more
termination_by fuel
decreasing_by all_goals omega

/-- A primary expression is read the same from a moved counter, its identity moved. -/
theorem moves_primary (fuel : Nat) :
    Moves k (Expr.rename (up k)) (primary fuel) (primary fuel) := by
  cases fuel with
  | zero => exact .fail _
  | succ fuel =>
    rw [primary]
    refine Moves.acceptLiteral?.bind fun found => ?_
    cases found with
    | some value => exact .pure rfl
    | none =>
    refine (Moves.accept? .this).bind fun found => ?_
    cases found with
    -- an identity is drawn here, shifted like the counter it comes from
    | some token => exact Moves.freshId.bind fun _ => .pure rfl
    | none =>
    refine (Moves.accept? .super).bind fun found => ?_
    cases found with
    | some token => exact moves_superAccess token
    | none =>
    refine (Moves.accept? .identifier).bind fun found => ?_
    cases found with
    | some token => exact (Moves.occurrence _).bind fun _ => .pure rfl
    | none =>
    refine (Moves.accept? .leftParen).bind fun found => ?_
    cases found with
    | none => exact .fail _
    | some token =>
      refine (moves_assignment fuel).bind fun inner => ?_
      exact (Moves.expect .rightParen .groupClose).bind fun _ => .pure rfl
termination_by fuel
decreasing_by all_goals omega

end

/-! ## Simple statements -/

theorem moves_expressionUnless (fuel : Nat) (kind : Kind) :
    Moves k (Option.map (Expr.rename (up k))) (expressionUnless fuel kind)
      (expressionUnless fuel kind) := by
  refine (Moves.next kind).bind fun found => ?_
  cases found with
  | true => exact .pure rfl
  | false => exact (moves_assignment fuel).bind fun _ => .pure rfl

theorem moves_variableDeclaration (fuel : Nat) :
    Moves k (Stmt.rename (up k)) (variableDeclaration fuel) (variableDeclaration fuel) := by
  refine (Moves.expectName _).bind fun name => ?_
  refine (Moves.accept? .equal).bind fun equals => ?_
  have finish (initializer : Option Expr) : Moves k (Stmt.rename (up k))
      (expect .semicolon .variableEnd >>= fun _ => pure (Stmt.var name initializer))
      (expect .semicolon .variableEnd >>= fun _ =>
        pure (Stmt.var (name.rename (up k)) (initializer.map (Expr.rename (up k))))) :=
    (Moves.expect _ _).bind fun _ => .pure rfl
  cases equals with
  | none => exact finish none
  | some equals => exact (moves_assignment fuel).bind fun e => finish (some e)

/-- An expression, what must stand behind it, and what is made of it. -/
theorem moves_terminated {α β : Type} {act : α → β} (fuel : Nat) (kind : Kind)
    (cause : SyntaxCause) (make : Expr → α) (make' : Expr → β)
    (same : ∀ e, make' (e.rename (up k)) = act (make e)) : Moves k act
      (do
        let e ← expression fuel
        let _ ← expect kind cause
        return make e)
      (do
        let e ← expression fuel
        let _ ← expect kind cause
        return make' e) :=
  (moves_assignment fuel).bind fun e => (Moves.expect _ _).bind fun _ => .pure (same e)

theorem moves_returnStatement (fuel : Nat) (keyword : Token) :
    Moves k (Stmt.rename (up k)) (returnStatement fuel keyword) (returnStatement fuel keyword) :=
  (moves_expressionUnless fuel _).bind fun _ => (Moves.expect _ _).bind fun _ => .pure rfl

theorem moves_jumpStatement (jump : Jump) (keyword : Token) :
    Moves k (Stmt.rename (up k)) (jumpStatement jump keyword) (jumpStatement jump keyword) := by
  refine (Moves.expect _ _).bind fun _ => ?_
  cases jump <;> exact .pure rfl

theorem moves_loopInitializer (fuel : Nat) :
    Moves k (Option.map (Stmt.rename (up k))) (loopInitializer fuel) (loopInitializer fuel) := by
  refine (Moves.accept? .semicolon).bind fun found => ?_
  cases found with
  | some token => exact .pure rfl
  | none =>
  refine (Moves.accept? .var).bind fun found => ?_
  cases found with
  | some token => exact (moves_variableDeclaration fuel).bind fun _ => .pure rfl
  | none =>
    have statement : Moves k (Stmt.rename (up k)) (expressionStatement fuel)
        (expressionStatement fuel) := moves_terminated fuel _ _ _ _ fun _ => rfl
    exact statement.bind fun _ => .pure rfl

/-- The clauses of a loop with later identities. -/
def renameClauses (r : Renaming) :
    Option Stmt × Expr × Option Expr → Option Stmt × Expr × Option Expr
  | (initializer, condition, increment) =>
    (initializer.map (Stmt.rename r), condition.rename r, increment.map (Expr.rename r))

theorem moves_loopClauses (fuel : Nat) :
    Moves k (renameClauses (up k)) (loopClauses fuel) (loopClauses fuel) := by
  refine (Moves.expect .leftParen .forOpen).bind fun _ => ?_
  refine (moves_loopInitializer fuel).bind fun initializer => ?_
  refine (moves_expressionUnless fuel .semicolon).bind fun condition => ?_
  refine (Moves.expect .semicolon .loopConditionEnd).bind fun _ => ?_
  refine (moves_expressionUnless fuel .rightParen).bind fun increment => ?_
  refine (Moves.expect .rightParen .forClose).bind fun _ => .pure ?_
  rw [renameClauses, rename_condition]

theorem moves_parenthesizedCondition (fuel : Nat) (opening : SyntaxCause) :
    Moves k (Expr.rename (up k)) (parenthesizedCondition fuel opening)
      (parenthesizedCondition fuel opening) :=
  (Moves.expect .leftParen opening).bind fun _ => moves_terminated fuel _ _ _ _ fun _ => rfl

theorem moves_parameters (fuel : Nat) (done : List Name) :
    Moves k (List.map (Name.rename (up k))) (parameters fuel done)
      (parameters fuel (done.map (Name.rename (up k)))) := by
  induction fuel generalizing done with
  | zero => exact .fail _
  | succ fuel ih =>
    have more : Moves k (List.map (Name.rename (up k)))
        (expectName .parameterName >>= fun name => accept? .comma >>= fun comma =>
          match comma with
          | some _ => parameters fuel (name :: done)
          | none => pure (name :: done).reverse)
        (expectName .parameterName >>= fun name => accept? .comma >>= fun comma =>
          match comma with
          | some _ => parameters fuel (name :: done.map (Name.rename (up k)))
          | none => pure (name :: done.map (Name.rename (up k))).reverse) := by
      refine (Moves.expectName _).bind fun name => ?_
      refine (Moves.accept? .comma).bind fun comma => ?_
      cases comma with
      | none => exact .pure (by rw [List.map_reverse, List.map_cons])
      | some comma => exact ih (name :: done)
    rw [parameters, parameters]
    dsimp only
    -- as many names are read on both sides, so the limit is hit on both or on neither
    rw [List.length_map]
    split
    · exact (Moves.report _).bind fun _ => more
    · exact more

theorem moves_parameterList (fuel : Nat) :
    Moves k (List.map (Name.rename (up k))) (parameterList fuel) (parameterList fuel) := by
  refine (Moves.next _).bind fun found => ?_
  cases found with
  | true => exact .pure rfl
  | false => exact moves_parameters fuel []

theorem moves_superclass? :
    Moves k (Option.map (Occurrence.rename (up k))) superclass? superclass? := by
  refine (Moves.accept? _).bind fun found => ?_
  cases found with
  | none => exact .pure rfl
  | some token =>
    refine (Moves.expectName _).bind fun name => ?_
    exact (Moves.occurrence name).bind fun _ => .pure rfl

/-! ## Statements and declarations -/

theorem renameAll_reverse (r : Renaming) (ss : List Stmt) :
    (Stmt.renameAll r ss).reverse = Stmt.renameAll r ss.reverse := by
  rw [Stmt.renameAll_eq, Stmt.renameAll_eq, List.map_reverse]

mutual

theorem moves_declaration (fuel : Nat) :
    Moves k (Stmt.rename (up k)) (declaration fuel) (declaration fuel) := by
  cases fuel with
  | zero => exact .fail _
  | succ fuel =>
    rw [declaration]
    refine (Moves.accept? _).bind fun found => ?_
    cases found with
    | some token => exact moves_classDeclaration fuel
    | none =>
    refine (Moves.accept? _).bind fun found => ?_
    cases found with
    | some token => exact (moves_function fuel .function).bind fun _ => .pure rfl
    | none =>
    refine (Moves.accept? _).bind fun found => ?_
    cases found with
    | some token => exact moves_variableDeclaration fuel
    -- the same token is at hand on both sides, so both take the same branch
    | none => exact moves_statement fuel
termination_by fuel
decreasing_by all_goals omega

theorem moves_declarations (fuel : Nat) (done : List Stmt) :
    Moves k (Stmt.renameAll (up k)) (declarations fuel done)
      (declarations fuel (Stmt.renameAll (up k) done)) := by
  cases fuel with
  | zero => exact .fail _
  | succ fuel =>
    rw [declarations, declarations]
    refine (Moves.next _).bind fun closed => Moves.atEnd.bind fun ended => ?_
    show Moves k _ (ite (closed || ended) _ _) (ite (closed || ended) _ _)
    split
    · exact .pure (renameAll_reverse _ done)
    · refine (moves_declaration fuel).recovering.bind fun found => ?_
      cases found with
      | none => exact moves_declarations fuel done
      | some s => exact moves_declarations fuel (s :: done)
termination_by fuel
decreasing_by all_goals omega

theorem moves_block (fuel : Nat) :
    Moves k (Stmt.renameAll (up k)) (block fuel) (block fuel) := by
  cases fuel with
  | zero => exact .fail _
  | succ fuel =>
    rw [block]
    refine (moves_declarations fuel []).bind fun body => ?_
    exact (Moves.expect _ _).bind fun _ => .pure rfl
termination_by fuel
decreasing_by all_goals omega

theorem moves_function (fuel : Nat) (declared : Declared) :
    Moves k (FunctionDecl.rename (up k)) (function fuel declared) (function fuel declared) := by
  cases fuel with
  | zero => exact .fail _
  | succ fuel =>
    rw [function]
    refine (Moves.expectName _).bind fun name => ?_
    refine (Moves.expect _ _).bind fun _ => ?_
    refine (moves_parameterList fuel).bind fun ps => ?_
    refine (Moves.expect _ _).bind fun _ => ?_
    refine (Moves.expect _ _).bind fun _ => ?_
    exact (moves_block fuel).bind fun _ => .pure rfl
termination_by fuel
decreasing_by all_goals omega

theorem moves_methods (fuel : Nat) (done : List FunctionDecl) :
    Moves k (FunctionDecl.renameAll (up k)) (methods fuel done)
      (methods fuel (FunctionDecl.renameAll (up k) done)) := by
  cases fuel with
  | zero => exact .fail _
  | succ fuel =>
    rw [methods, methods]
    refine (Moves.next _).bind fun closed => Moves.atEnd.bind fun ended => ?_
    show Moves k _ (ite (closed || ended) _ _) (ite (closed || ended) _ _)
    split
    · exact .pure (by rw [FunctionDecl.renameAll_eq, FunctionDecl.renameAll_eq, List.map_reverse])
    · exact (moves_function fuel .method).bind fun d => moves_methods fuel (d :: done)
termination_by fuel
decreasing_by all_goals omega

theorem moves_classDeclaration (fuel : Nat) :
    Moves k (Stmt.rename (up k)) (classDeclaration fuel) (classDeclaration fuel) := by
  cases fuel with
  | zero => exact .fail _
  | succ fuel =>
    rw [classDeclaration]
    refine (Moves.expectName _).bind fun name => ?_
    refine moves_superclass?.bind fun superclass => ?_
    refine (Moves.expect _ _).bind fun _ => ?_
    refine (moves_methods fuel []).bind fun body => ?_
    exact (Moves.expect _ _).bind fun _ => .pure rfl
termination_by fuel
decreasing_by all_goals omega

/-- A statement is read the same from a moved counter, with all its identities moved. -/
theorem moves_statement (fuel : Nat) :
    Moves k (Stmt.rename (up k)) (statement fuel) (statement fuel) := by
  cases fuel with
  | zero => exact .fail _
  | succ fuel =>
    rw [statement]
    refine (Moves.accept? _).bind fun found => ?_
    cases found with
    | some token =>
      refine (moves_loopClauses fuel).bind fun clauses => ?_
      exact (moves_statement fuel).bind fun body => .pure (rename_countingLoop ..).symm
    | none =>
    refine (Moves.accept? _).bind fun found => ?_
    cases found with
    | some token =>
      refine (moves_parenthesizedCondition fuel _).bind fun condition => ?_
      refine (moves_statement fuel).bind fun yes => ?_
      refine (Moves.accept? _).bind fun found => ?_
      cases found with
      | none => exact .pure rfl
      | some token => exact (moves_statement fuel).bind fun no => .pure rfl
    | none =>
    refine (Moves.accept? _).bind fun found => ?_
    cases found with
    | some token =>
      refine (moves_parenthesizedCondition fuel _).bind fun condition => ?_
      exact (moves_statement fuel).bind fun body => .pure rfl
    | none =>
    refine (Moves.accept? _).bind fun found => ?_
    cases found with
    | some keyword => exact moves_returnStatement fuel keyword
    | none =>
    refine (Moves.accept? _).bind fun found => ?_
    cases found with
    | some keyword => exact moves_jumpStatement .break keyword
    | none =>
    refine (Moves.accept? _).bind fun found => ?_
    cases found with
    | some keyword => exact moves_jumpStatement .continue keyword
    | none =>
    refine (Moves.accept? _).bind fun found => ?_
    cases found with
    -- no branch looks at an identity
    | some token => exact (moves_block fuel).bind fun body => .pure rfl
    | none =>
    refine (Moves.accept? _).bind fun found => ?_
    cases found with
    | some token => exact moves_terminated fuel _ _ _ _ fun _ => rfl
    | none => exact moves_terminated fuel _ _ _ _ fun _ => rfl
termination_by fuel
decreasing_by all_goals omega

end

/-! ## Whole texts -/

/-- A program is read the same from a moved counter, recoveries from errors included. -/
theorem moves_declarationsToEnd (fuel : Nat) (done : List Stmt) :
    Moves k (Stmt.renameAll (up k)) (declarationsToEnd fuel done)
      (declarationsToEnd fuel (Stmt.renameAll (up k) done)) := by
  induction fuel generalizing done with
  | zero => exact .fail _
  | succ fuel ih =>
    rw [declarationsToEnd, declarationsToEnd]
    refine Moves.atEnd.bind fun ended => ?_
    cases ended with
    | true => exact .pure (renameAll_reverse _ done)
    | false =>
      refine (moves_declaration fuel).recovering.bind fun found => ?_
      cases found with
      | none => exact ih done
      | some s => exact ih (s :: done)

/-- A run from further up ends as the run does, with later identities. -/
theorem Moves.run {α β : Type} {act : α → β} {p : Parser α} {q : Parser β} (moves : Moves k act p q)
    (s : State) : (s.up k).run q = ((s.run p).1.map act, (s.run p).2.up k) := by
  unfold State.run
  rw [moves s]
  cases p s with
  | error error s' => rfl
  | ok a s' =>
    obtain ⟨rest, endLine, errors, n⟩ := s'
    cases errors <;> rfl

/-- The program that tokens are, or what is wrong with them, does not depend on the
identities drawn before. -/
theorem program_up (tokens : Tokens) (n : NodeId) :
    program tokens (n + k) =
      ((program tokens n).1.map (Stmt.renameAll (up k)), (program tokens n).2 + k) := by
  have moved := (moves_declarationsToEnd (k := k) (allowance tokens.list.length) []).run
    ⟨tokens.list, tokens.endLine, [], n⟩
  exact congrArg (fun done => (done.1, done.2.nextId)) moved

end ClassScript.Parsing
