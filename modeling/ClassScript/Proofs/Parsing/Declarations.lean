import ClassScript.Proofs.Parsing.Identities
import ClassScript.Proofs.Parsing.Runs

/-!
# Statements as a parser makes them

The statements of a program are plain and their identities are new, and so are those
of whatever a text is read as (`program_new`, `singleExpression_new`, `input_new`).
-/

namespace ClassScript.Parsing

open Source Syntax

/-- A plain statement with identities from the given range. -/
def NewStmt (a b : Nat) (s : Stmt) : Prop := s.Plain ∧ Drawn a b s.ids

def NewStmts (a b : Nat) (ss : List Stmt) : Prop :=
  Stmt.AllPlain ss ∧ Drawn a b (Stmt.idsOfAll ss)

def NewFunction (a b : Nat) (d : FunctionDecl) : Prop := d.Plain ∧ Drawn a b d.ids

def NewFunctions (a b : Nat) (ds : List FunctionDecl) : Prop :=
  FunctionDecl.AllPlain ds ∧ Drawn a b (FunctionDecl.idsOfAll ds)

def NewExpr? (a b : Nat) (e : Option Expr) : Prop := Expr.Plain? e ∧ Drawn a b (Expr.idsOf? e)

/-- A statement that may stand where no declaration may. -/
def NewBranch (a b : Nat) (s : Stmt) : Prop := NewStmt a b s ∧ s.declares = []

theorem newExpr?_none (a b : Nat) : NewExpr? a b none := ⟨by simp [Expr.Plain?], .nil a b⟩

theorem NewExpr.some {a b : Nat} {e : Expr} (new : NewExpr a b e) : NewExpr? a b (some e) :=
  ⟨by simpa [Expr.Plain?] using new.1, new.2⟩

/-- A statement whose identities come after those of a row extends the row. -/
theorem NewStmts.snoc {a b c : Nat} {ss : List Stmt} {s : Stmt} (row : NewStmts a b ss)
    (last : NewStmt b c s) (ordered : a ≤ b) (ordered' : b ≤ c) :
    NewStmts a c (ss ++ [s]) := by
  have ids (ss : List Stmt) : Stmt.idsOfAll (ss ++ [s]) = Stmt.idsOfAll ss ++ s.ids := by
    induction ss with
    | nil => simp [Stmt.idsOfAll]
    | cons first rest ih => simp [Stmt.idsOfAll, ih]
  have plain (ss : List Stmt) (all : Stmt.AllPlain ss) : Stmt.AllPlain (ss ++ [s]) := by
    induction ss with
    | nil => exact ⟨last.1, trivial⟩
    | cons first rest ih => exact ⟨all.1, ih all.2⟩
  exact ⟨plain ss row.1, by rw [ids]; exact row.2.append last.2 ordered ordered'⟩

/-- A method whose identities come after those of a row extends the row. -/
theorem NewFunctions.snoc {a b c : Nat} {ds : List FunctionDecl} {d : FunctionDecl}
    (row : NewFunctions a b ds) (last : NewFunction b c d) (ordered : a ≤ b)
    (ordered' : b ≤ c) : NewFunctions a c (ds ++ [d]) := by
  have ids (ds : List FunctionDecl) :
      FunctionDecl.idsOfAll (ds ++ [d]) = FunctionDecl.idsOfAll ds ++ d.ids := by
    induction ds with
    | nil => simp [FunctionDecl.idsOfAll]
    | cons first rest ih => simp [FunctionDecl.idsOfAll, ih]
  have plain (ds : List FunctionDecl) (all : FunctionDecl.AllPlain ds) :
      FunctionDecl.AllPlain (ds ++ [d]) := by
    induction ds with
    | nil => exact ⟨last.1, trivial⟩
    | cons first rest ih => exact ⟨all.1, ih all.2⟩
  exact ⟨plain ds row.1, by rw [ids]; exact row.2.append last.2 ordered ordered'⟩

/-! ## Simple statements -/

theorem yields_expressionUnless (fuel n : Nat) (kind : Kind) :
    Yields n (expressionUnless fuel kind) fun e last => NewExpr? n last e := by
  apply (Yields.next kind).bind
  intro found n₁ _ same
  obtain rfl := same
  cases found with
  | true => exact .pure (newExpr?_none _ _)
  | false => exact (yields_assignment fuel _).bind fun e n₂ _ new => .pure new.some

theorem yields_variableDeclaration (fuel n : Nat) :
    Yields n (variableDeclaration fuel) fun s last => NewStmt n last s := by
  apply (Yields.expectName _).bind
  intro name n₁ _ h
  obtain ⟨rfl, named⟩ := h
  apply (Yields.accept? .equal).bind
  intro equals n₂ _ h
  obtain rfl := h.1
  -- the declaration ends in the same way with an initializer and without one
  have finish {n₃ : Nat} {initializer : Option Expr} (new : NewExpr? n₂ n₃ initializer) :
      Yields n₃ (expect .semicolon .variableEnd >>= fun _ => pure (.var name initializer))
        fun s last => NewStmt n₂ last s := by
    refine (Yields.expect _ _).bind fun _ n₄ _ h => .pure ?_
    obtain rfl := h.1
    exact ⟨⟨named, new.1⟩, new.2⟩
  cases equals with
  | none => exact finish (newExpr?_none _ _)
  | some equals =>
    exact (yields_assignment fuel _).bind fun e n₃ _ new => finish new.some

theorem yields_expressionStatement (fuel n : Nat) :
    Yields n (expressionStatement fuel) fun s last => NewBranch n last s := by
  apply (yields_assignment fuel n).bind
  intro e n₁ _ new
  refine (Yields.expect _ _).bind fun _ n₂ _ h => .pure ?_
  obtain rfl := h.1
  exact ⟨new, rfl⟩

theorem yields_printStatement (fuel n : Nat) :
    Yields n (printStatement fuel) fun s last => NewBranch n last s := by
  apply (yields_assignment fuel n).bind
  intro e n₁ _ new
  refine (Yields.expect _ _).bind fun _ n₂ _ h => .pure ?_
  obtain rfl := h.1
  exact ⟨new, rfl⟩

theorem yields_returnStatement (fuel n : Nat) (keyword : Token) :
    Yields n (returnStatement fuel keyword) fun s last => NewBranch n last s := by
  apply (yields_expressionUnless fuel n _).bind
  intro e n₁ _ new
  refine (Yields.expect _ _).bind fun _ n₂ _ h => .pure ?_
  obtain rfl := h.1
  exact ⟨new, rfl⟩

theorem yields_jumpStatement (n : Nat) (jump : Jump) (keyword : Token) :
    Yields n (jumpStatement jump keyword) fun s last => NewBranch n last s := by
  apply (Yields.expect _ _).bind
  intro _ n₁ _ h
  obtain rfl := h.1
  cases jump <;> exact .pure ⟨⟨trivial, .nil _ _⟩, rfl⟩

/-- The clauses of a counting loop, in the order in which they stand. -/
def NewClauses (a b : Nat) : Option Stmt × Expr × Option Expr → Prop
  | (initializer, condition, increment) =>
    ∃ n₁ n₂, a ≤ n₁ ∧ n₁ ≤ n₂ ∧ n₂ ≤ b ∧ (∀ s ∈ initializer, NewStmt a n₁ s) ∧
      NewExpr n₁ n₂ condition ∧ NewExpr? n₂ b increment

theorem yields_loopInitializer (fuel n : Nat) :
    Yields n (loopInitializer fuel) fun s last => ∀ s' ∈ s, NewStmt n last s' := by
  apply (Yields.accept? .semicolon).bind
  intro found n₁ _ h
  obtain rfl := h.1
  cases found with
  | some token => exact .pure (by simp)
  | none =>
  apply (Yields.accept? .var).bind
  intro found n₂ _ h
  obtain rfl := h.1
  cases found with
  | some token =>
    exact (yields_variableDeclaration fuel _).bind fun s n₃ _ new => .pure (by simpa using new)
  | none =>
    exact (yields_expressionStatement fuel _).bind fun s n₃ _ new =>
      .pure (by simpa using new.1)

theorem yields_loopClauses (fuel n : Nat) :
    Yields n (loopClauses fuel) fun clauses last => NewClauses n last clauses := by
  apply (Yields.expect _ _).bind
  intro _ n₁ _ h
  obtain rfl := h.1
  apply (yields_loopInitializer fuel _).bind
  intro initializer n₂ le₂ first
  apply (yields_expressionUnless fuel _ _).bind
  intro condition n₃ le₃ test
  apply (Yields.expect _ _).bind
  intro _ n₄ _ h
  obtain rfl := h.1
  apply (yields_expressionUnless fuel _ _).bind
  intro increment n₅ le₅ step
  refine (Yields.expect _ _).bind fun _ n₆ _ h => .pure ?_
  obtain rfl := h.1
  -- a condition that is left out is a literal, which draws nothing
  have test' : NewExpr n₂ n₄ (condition.getD (.literal (.bool true))) := by
    cases condition with
    | none => exact ⟨trivial, .nil _ _⟩
    | some e => exact ⟨test.1 e rfl, test.2⟩
  exact ⟨n₂, n₄, le₂, le₃, le₅, first, test', step⟩

/-- A counting loop, whose body comes behind its clauses. -/
theorem newBranch_countingLoop {a b c : Nat} {initializer : Option Stmt} {condition : Expr}
    {increment : Option Expr} {body : Stmt}
    (clauses : NewClauses a b (initializer, condition, increment)) (inner : NewBranch b c body)
    (ordered : b ≤ c) : NewBranch a c (countingLoop initializer condition body increment) := by
  obtain ⟨n₁, n₂, le₁, le₂, le₃, first, test, step⟩ := clauses
  have loop : NewStmt n₁ c (.loop condition body increment) :=
    ⟨⟨test.1, ⟨inner.1.1, inner.2⟩, step.1⟩,
      test.2.append (inner.1.2.append' step.2 le₃ ordered) le₂ (by omega)⟩
  cases initializer with
  | none => exact ⟨⟨loop.1, loop.2.mono le₁ (Nat.le_refl _)⟩, inner.2⟩
  | some s =>
    have new := first s rfl
    refine ⟨⟨⟨new.1, loop.1, trivial⟩, ?_⟩, rfl⟩
    have drawn := new.2.append loop.2 le₁ (by omega)
    simpa [countingLoop, Stmt.ids, Stmt.idsOfAll] using drawn

theorem yields_parenthesizedCondition (fuel n : Nat) (opening : SyntaxCause) :
    Yields n (parenthesizedCondition fuel opening) fun e last => NewExpr n last e := by
  apply (Yields.expect _ _).bind
  intro _ n₁ _ h
  obtain rfl := h.1
  apply (yields_assignment fuel _).bind
  intro e n₂ _ new
  refine (Yields.expect _ _).bind fun _ n₃ _ h => .pure ?_
  obtain rfl := h.1
  exact new

/-- One parameter, and what follows it with or without a comma. -/
theorem yields_parameter {α : Type} {n : Nat} {last more : Name → Parser α} {good : α → Nat → Prop}
    (stops : ∀ name, name.text ∉ reserved → Yields n (last name) good)
    (goes : ∀ name, name.text ∉ reserved → Yields n (more name) good) :
    Yields n (do
      let name ← expectName .parameterName
      match ← accept? .comma with
      | some _ => more name
      | none => last name) good := by
  apply (Yields.expectName _).bind
  intro name n₁ _ h
  obtain ⟨rfl, named⟩ := h
  apply (Yields.accept? .comma).bind
  intro comma n₂ _ h
  obtain rfl := h.1
  cases comma with
  | none => exact stops name named
  | some comma => exact goes name named

/-- Parameters draw no identity, and none of them is a reserved word. -/
theorem yields_parameters (fuel n : Nat) (done : List Name)
    (plain : ∀ p ∈ done, p.text ∉ reserved) :
    Yields n (parameters fuel done) fun ps last => last = n ∧ ∀ p ∈ ps, p.text ∉ reserved := by
  induction fuel generalizing done n with
  | zero => exact .fail _
  | succ fuel ih =>
    -- every parameter read is a plain name, those read before included
    have longer (name : Name) (named : name.text ∉ reserved) :
        ∀ p ∈ name :: done, p.text ∉ reserved := List.forall_mem_cons.mpr ⟨named, plain⟩
    have stops (name : Name) (named : name.text ∉ reserved) :
        Yields n (pure (name :: done).reverse)
          fun ps last => last = n ∧ ∀ p ∈ ps, p.text ∉ reserved :=
      .pure ⟨rfl, fun p inside => longer name named p (List.mem_reverse.mp inside)⟩
    have goes (name : Name) (named : name.text ∉ reserved) := ih n _ (longer name named)
    rw [parameters]
    dsimp only
    split
    · apply (Yields.report _).bind
      intro _ n₁ _ same
      rw [same]
      exact yields_parameter stops goes
    · exact yields_parameter stops goes

theorem yields_parameterList (fuel n : Nat) :
    Yields n (parameterList fuel) fun ps last => last = n ∧ ∀ p ∈ ps, p.text ∉ reserved := by
  apply (Yields.next _).bind
  intro found n₁ _ same
  obtain rfl := same
  cases found with
  | true => exact .pure ⟨rfl, by simp⟩
  | false => exact yields_parameters fuel _ [] (by simp)

theorem yields_superclass? (n : Nat) :
    Yields n superclass? fun o last =>
      ∀ o' ∈ o, o'.name.text ∉ reserved ∧ Drawn n last [o'.id] := by
  apply (Yields.accept? _).bind
  intro found n₁ _ h
  obtain rfl := h.1
  cases found with
  | none => exact .pure (by simp)
  | some token =>
    apply (Yields.expectName _).bind
    intro name n₂ _ h
    obtain ⟨rfl, named⟩ := h
    refine (Yields.occurrence name).bind fun o n₃ _ h => .pure ?_
    obtain ⟨rfl, rfl⟩ := h
    rintro o' ⟨⟩
    exact ⟨named, .single _⟩

/-! ## Statements and declarations -/

/-- Recovery skips tokens, and draws nothing. -/
theorem Yields.recovering {α : Type} {n : Nat} {p : Parser α} {post : α → Nat → Prop}
    (h : Yields n p post) :
    Yields n (recovering p) fun found last => ∀ a ∈ found, post a last := by
  intro s named same
  have before := h s named same
  unfold Parsing.recovering
  cases hp : p s with
  | ok a s' =>
    rw [hp] at before
    exact ⟨before.1, before.2.1, by simpa using before.2.2⟩
  | error e s' =>
    rw [hp] at before
    obtain ⟨named', later⟩ := before
    dsimp only
    -- skipping to the next boundary only drops tokens
    unfold State.synchronize
    cases shape : (s'.record e).rest with
    | nil => exact ⟨named', later, by simp⟩
    | cons token rest =>
      have rest_named : Named rest := (Named.of_cons (shape ▸ named')).2
      exact ⟨fun t inside => rest_named t ((statementBoundary_suffix token rest).subset inside),
        later, by simp⟩

mutual

theorem yields_declaration (fuel n : Nat) :
    Yields n (declaration fuel) fun s last => NewStmt n last s := by
  cases fuel with
  | zero => exact .fail _
  | succ fuel =>
    rw [declaration]
    apply (Yields.accept? _).bind
    intro found n₁ _ h
    obtain rfl := h.1
    -- the first token decides, and drawing starts after it
    cases found with
    | some token => exact yields_classDeclaration fuel _
    | none =>
    apply (Yields.accept? _).bind
    intro found n₂ _ h
    obtain rfl := h.1
    cases found with
    | some token =>
      exact (yields_function fuel _ .function).bind fun d n₃ _ new => .pure new
    | none =>
    apply (Yields.accept? _).bind
    intro found n₃ _ h
    obtain rfl := h.1
    cases found with
    | some token => exact yields_variableDeclaration fuel _
    | none => exact (yields_statement fuel _).imp fun s last _ new => new.1

/-- The declarations of a block come after those read before, each with identities of its own.
-/
theorem yields_declarations (fuel : Nat) (done : List Stmt) (a n : Nat) (ordered : a ≤ n)
    (row : NewStmts a n done.reverse) :
    Yields n (declarations fuel done) fun ss last => NewStmts a last ss := by
  cases fuel with
  | zero => exact .fail _
  | succ fuel =>
    rw [declarations]
    apply (Yields.next _).bind
    intro closed n₁ _ same
    obtain rfl := same
    apply Yields.atEnd.bind
    intro ended n₂ _ same
    obtain rfl := same
    split
    · exact .pure row
    · apply (yields_declaration fuel _).recovering.bind
      intro found n₃ le₃ new
      cases found with
      -- a declaration given up adds nothing to the row, though it may have drawn identities
      | none =>
        exact yields_declarations fuel done a n₃ (Nat.le_trans ordered le₃)
          ⟨row.1, row.2.mono (Nat.le_refl _) le₃⟩
      | some s =>
        refine yields_declarations fuel _ a n₃ (Nat.le_trans ordered le₃) ?_
        rw [List.reverse_cons]
        exact row.snoc (new s rfl) ordered le₃

theorem yields_block (fuel n : Nat) :
    Yields n (block fuel) fun ss last => NewStmts n last ss := by
  cases fuel with
  | zero => exact .fail _
  | succ fuel =>
    rw [block]
    apply (yields_declarations fuel [] n n (Nat.le_refl _) ⟨trivial, .nil _ _⟩).bind
    intro body n₁ _ row
    refine (Yields.expect _ _).bind fun _ n₂ _ h => .pure ?_
    obtain rfl := h.1
    exact row

theorem yields_function (fuel n : Nat) (declared : Declared) :
    Yields n (function fuel declared) fun d last => NewFunction n last d := by
  cases fuel with
  | zero => exact .fail _
  | succ fuel =>
    rw [function]
    apply (Yields.expectName _).bind
    intro name n₁ _ h
    obtain ⟨rfl, named⟩ := h
    -- the tokens around the parameters draw nothing
    apply (Yields.expect _ _).bind
    intro _ n₂ _ h
    obtain rfl := h.1
    apply (yields_parameterList fuel _).bind
    intro ps n₃ _ h
    obtain ⟨rfl, parameters⟩ := h
    apply (Yields.expect _ _).bind
    intro _ n₄ _ h
    obtain rfl := h.1
    apply (Yields.expect _ _).bind
    intro _ n₅ _ h
    obtain rfl := h.1
    exact (yields_block fuel _).bind fun body n₆ _ row =>
      .pure ⟨⟨named, parameters, row.1⟩, row.2⟩

theorem yields_methods (fuel : Nat) (done : List FunctionDecl) (a n : Nat) (ordered : a ≤ n)
    (row : NewFunctions a n done.reverse) :
    Yields n (methods fuel done) fun ds last => NewFunctions a last ds := by
  cases fuel with
  | zero => exact .fail _
  | succ fuel =>
    rw [methods]
    apply (Yields.next _).bind
    intro closed n₁ _ same
    obtain rfl := same
    apply Yields.atEnd.bind
    intro ended n₂ _ same
    obtain rfl := same
    split
    · exact .pure row
    · refine (yields_function fuel _ .method).bind fun d n₃ le₃ new => ?_
      refine yields_methods fuel _ a n₃ (Nat.le_trans ordered le₃) ?_
      -- the row is kept in reverse, and the new method ends it
      rw [List.reverse_cons]
      exact row.snoc new ordered le₃

theorem yields_classDeclaration (fuel n : Nat) :
    Yields n (classDeclaration fuel) fun s last => NewStmt n last s := by
  cases fuel with
  | zero => exact .fail _
  | succ fuel =>
    rw [classDeclaration]
    apply (Yields.expectName _).bind
    intro name n₁ _ h
    obtain ⟨rfl, named⟩ := h
    apply (yields_superclass? _).bind
    intro superclass n₂ le₂ inherited
    apply (Yields.expect _ _).bind
    intro _ n₃ _ h
    obtain rfl := h.1
    apply (yields_methods fuel [] _ _ (Nat.le_refl _) ⟨trivial, .nil _ _⟩).bind
    intro body n₄ le₄ row
    refine (Yields.expect _ _).bind fun _ n₅ _ h => .pure ?_
    obtain rfl := h.1
    -- the superclass is an occurrence and draws the first identity of the class
    cases superclass with
    | none => exact ⟨⟨named, row.1⟩, row.2.mono le₂ (Nat.le_refl _)⟩
    | some superclass =>
      obtain ⟨plain, drawn⟩ := inherited superclass rfl
      exact ⟨⟨named, plain, row.1⟩, drawn.append row.2 le₂ le₄⟩

/-- A statement, which may stand as a branch, draws its identities while it is read. -/
theorem yields_statement (fuel n : Nat) :
    Yields n (statement fuel) fun s last => NewBranch n last s := by
  cases fuel with
  | zero => exact .fail _
  | succ fuel =>
    rw [statement]
    apply (Yields.accept? _).bind
    intro found n₁ _ h
    obtain rfl := h.1
    cases found with
    | some token =>
      apply (yields_loopClauses fuel _).bind
      intro clauses n₂ _ new
      exact (yields_statement fuel _).bind fun body n₃ le₃ inner =>
        .pure (newBranch_countingLoop new inner le₃)
    | none =>
    apply (Yields.accept? _).bind
    intro found n₂ _ h
    obtain rfl := h.1
    cases found with
    | some token =>
      apply (yields_parenthesizedCondition fuel _ _).bind
      intro condition n₃ le₃ test
      apply (yields_statement fuel _).bind
      intro yes n₄ le₄ first
      apply (Yields.accept? _).bind
      intro found n₅ _ h
      obtain rfl := h.1
      cases found with
      | none =>
        exact .pure ⟨⟨⟨test.1, first.1.1, first.2⟩, test.2.append first.1.2 le₃ le₄⟩, first.2⟩
      | some token =>
        refine (yields_statement fuel _).bind fun no n₆ le₆ second => .pure ?_
        refine ⟨⟨⟨test.1, ⟨first.1.1, first.2⟩, second.1.1, second.2⟩, ?_⟩, ?_⟩
        -- condition and parts draw one after the other
        · exact test.2.append (first.1.2.append second.1.2 le₄ le₆) le₃ (by omega)
        · rw [Stmt.declares, first.2, second.2]
          rfl
    | none =>
    apply (Yields.accept? _).bind
    intro found n₃ _ h
    obtain rfl := h.1
    cases found with
    | some token =>
      apply (yields_parenthesizedCondition fuel _ _).bind
      intro condition n₄ le₄ test
      refine (yields_statement fuel _).bind fun body n₅ le₅ inner => .pure ?_
      refine ⟨⟨⟨test.1, ⟨inner.1.1, inner.2⟩, by simp [Expr.Plain?]⟩, ?_⟩, inner.2⟩
      have drawn := test.2.append inner.1.2 le₄ le₅
      simpa [Stmt.ids, Expr.idsOf?] using drawn
    | none =>
    apply (Yields.accept? _).bind
    intro found n₄ _ h
    obtain rfl := h.1
    cases found with
    | some keyword => exact yields_returnStatement fuel _ keyword
    | none =>
    apply (Yields.accept? _).bind
    intro found n₅ _ h
    obtain rfl := h.1
    cases found with
    | some keyword => exact yields_jumpStatement _ .break keyword
    | none =>
    apply (Yields.accept? _).bind
    intro found n₆ _ h
    obtain rfl := h.1
    cases found with
    | some keyword => exact yields_jumpStatement _ .continue keyword
    | none =>
    apply (Yields.accept? _).bind
    intro found n₇ _ h
    obtain rfl := h.1
    cases found with
    | some token =>
      exact (yields_block fuel _).bind fun body n₈ _ row => .pure ⟨row, rfl⟩
    | none =>
    apply (Yields.accept? _).bind
    intro found n₈ _ h
    obtain rfl := h.1
    cases found with
    | some token => exact yields_printStatement fuel _
    | none => exact yields_expressionStatement fuel _

end

/-! ## Whole texts -/

theorem yields_declarationsToEnd (fuel : Nat) (done : List Stmt) (a n : Nat)
    (ordered : a ≤ n) (row : NewStmts a n done.reverse) :
    Yields n (declarationsToEnd fuel done) fun ss last => NewStmts a last ss := by
  induction fuel generalizing done n with
  | zero => exact .fail _
  | succ fuel ih =>
    rw [declarationsToEnd]
    apply Yields.atEnd.bind
    intro ended n₁ _ same
    obtain rfl := same
    cases ended with
    | true => exact .pure row
    | false =>
      apply (yields_declaration fuel _).recovering.bind
      intro found n₂ le₂ new
      cases found with
      -- a declaration given up adds nothing to the row, though it may have drawn identities
      | none =>
        exact ih done n₂ (Nat.le_trans ordered le₂)
          ⟨row.1, row.2.mono (Nat.le_refl _) le₂⟩
      | some s =>
        refine ih _ n₂ (Nat.le_trans ordered le₂) ?_
        rw [List.reverse_cons]
        exact row.snoc (new s rfl) ordered le₂

theorem yields_wholeExpression (fuel n : Nat) :
    Yields n (wholeExpression fuel) fun e last => NewExpr n last e := by
  apply (yields_assignment fuel n).bind
  intro e n₁ _ new
  apply Yields.atEnd.bind
  intro ended n₂ _ same
  obtain rfl := same
  cases ended with
  | true => exact .pure new
  | false => exact (Yields.report _).bind fun _ n₃ _ same => .pure (same ▸ new)

/-- What is read, and the next identity, are as stated; identities are drawn in order
also where a reading fails. -/
def Reads {α : Type} (n : Nat) (post : α → Nat → Prop) : Reading α × Nat → Prop
  | (.ok a, last) => n ≤ last ∧ post a last
  | (.error _, last) => n ≤ last

/-- A parser that yields something is read so. -/
theorem Yields.reads {α : Type} {n : Nat} {p : Parser α} {post : α → Nat → Prop}
    (h : Yields n p post) {s : State} (named : Named s.rest) (same : s.nextId = n) :
    Reads n post ((s.run p).1, (s.run p).2.nextId) := by
  have ends := h s named same
  unfold State.run
  cases hp : p s with
  | ok a s' =>
    rw [hp] at ends
    dsimp only
    unfold State.conclude
    cases s'.errors with
    | nil => exact ends.2
    | cons error rest => exact ends.2.1
  | error e s' =>
    rw [hp] at ends
    exact ends.2

/-- The statements of an accepted program carry identities drawn from the counter, each once. -/
theorem program_new {tokens : Tokens} (named : Named tokens.list) (n : Nat) :
    Reads n (fun ss last => NewStmts n last ss) (program tokens n) :=
  (yields_declarationsToEnd _ [] n n (Nat.le_refl _) ⟨trivial, .nil _ _⟩).reads
    (s := ⟨tokens.list, tokens.endLine, [], n⟩) named rfl

/-- The expression of an accepted line carries identities drawn from the counter, each once. -/
theorem singleExpression_new {tokens : Tokens} (named : Named tokens.list) (n : Nat) :
    Reads n (fun e last => NewExpr n last e) (singleExpression tokens n) :=
  (yields_wholeExpression _ n).reads (s := ⟨tokens.list, tokens.endLine, [], n⟩) named rfl

/-- Whatever an interactive line is read as. -/
def NewInput (a b : Nat) : Input → Prop
  | .statements ss => NewStmts a b ss
  | .expression e => NewExpr a b e

/-- Whichever form an input has, its identities are drawn from the counter, each once. -/
theorem input_new {tokens : Tokens} (named : Named tokens.list) (n : Nat) :
    Reads n (fun i last => NewInput n last i) (input tokens n) := by
  have first := singleExpression_new named n
  unfold singleExpression at first
  rw [input, Reader.input_eq]
  generalize hr : (Reader.start tokens n).expression = read at first
  obtain ⟨reading, reader⟩ := read
  cases reading with
  | ok e => exact first
  -- the second reading starts behind the identities that the first one drew
  | error errors =>
    have drawn : n ≤ reader.state.nextId := first
    have kept : reader.tokens = tokens := by
      unfold Reader.expression at hr
      rw [← (Prod.mk.inj hr).2]
      rfl
    have second := (yields_declarationsToEnd reader.restart.state.fuel [] _ _ (Nat.le_refl _)
      ⟨trivial, .nil _ _⟩).reads (s := reader.restart.state)
        (by rw [show reader.restart.state.rest = tokens.list by rw [← kept]; rfl]; exact named)
        rfl
    dsimp only
    unfold Reader.again Reader.program State.program
    dsimp only
    generalize (reader.restart.state.run _) = run at second
    obtain ⟨reading, state⟩ := run
    cases reading with
    | ok ss =>
      obtain ⟨later, row⟩ := second
      exact ⟨Nat.le_trans drawn later, row.1, row.2.mono drawn (Nat.le_refl _)⟩
    | error errors => exact Nat.le_trans drawn second

end ClassScript.Parsing
