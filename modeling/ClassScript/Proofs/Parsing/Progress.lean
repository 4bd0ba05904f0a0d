import ClassScript.Proofs.Parsing.Settled

/-!
# Progress of the parser

A parser with fuel enough for what is left comes to an end by itself: more fuel changes
nothing (`Completes`). It takes tokens from the front only, and what it records are the errors
that come up in its run, each of them once. A declaration takes a token if there is one, also
where it fails; so the loops of blocks, classes and programs end, whatever they read. The
calls of a reader report all that was recorded and leave nothing recorded, and only the call
for an interactive line goes back, to the first token (`parser_progresses`).
-/

namespace ClassScript.Parsing

open Source Syntax

/-- The rules of the parser, each with what it is given. -/
inductive Routine : Type → Type
  | superAccess (keyword : Token) : Routine Expr
  | assignTo (target : Expr) (equals : Token) (value : Expr) : Routine Expr
  | assignment : Routine Expr
  | infixChain (level : Level) : Routine Expr
  | infixRest (level : Level) (left : Expr) : Routine Expr
  | operand (level : Level) : Routine Expr
  | unary : Routine Expr
  | accessRest (subject : Expr) : Routine Expr
  | argumentList : Routine (List Expr)
  | arguments (done : List Expr) : Routine (List Expr)
  | primary : Routine Expr
  | expressionUnless (kind : Kind) : Routine (Option Expr)
  | variableDeclaration : Routine Stmt
  | expressionStatement : Routine Stmt
  | printStatement : Routine Stmt
  | returnStatement (keyword : Token) : Routine Stmt
  | jumpStatement (jump : Jump) (keyword : Token) : Routine Stmt
  | loopInitializer : Routine (Option Stmt)
  | loopClauses : Routine (Option Stmt × Expr × Option Expr)
  | parenthesizedCondition (opening : SyntaxCause) (fed : opening ≠ .nestingTooDeep) :
      Routine Expr
  | parameters (done : List Name) : Routine (List Name)
  | parameterList : Routine (List Name)
  | superclass? : Routine (Option Occurrence)
  | declaration : Routine Stmt
  | declarations (done : List Stmt) : Routine (List Stmt)
  | block : Routine (List Stmt)
  | function (declared : Declared) : Routine FunctionDecl
  | methods (done : List FunctionDecl) : Routine (List FunctionDecl)
  | classDeclaration : Routine Stmt
  | statement : Routine Stmt
  | declarationsToEnd (done : List Stmt) : Routine (List Stmt)
  | wholeExpression : Routine Expr

namespace Routine

/-- The parser of a rule. -/
def parser : {α : Type} → Routine α → Nat → Parser α
  | _, .superAccess keyword, _ => Parsing.superAccess keyword
  | _, .assignTo target equals value, _ => Parsing.assignTo target equals value
  | _, .assignment, fuel => Parsing.assignment fuel
  | _, .infixChain level, fuel => Parsing.infixChain fuel level
  | _, .infixRest level left, fuel => Parsing.infixRest fuel level left
  | _, .operand level, fuel => Parsing.operand fuel level
  | _, .unary, fuel => Parsing.unary fuel
  | _, .accessRest subject, fuel => Parsing.accessRest fuel subject
  | _, .argumentList, fuel => Parsing.argumentList fuel
  | _, .arguments done, fuel => Parsing.arguments fuel done
  | _, .primary, fuel => Parsing.primary fuel
  | _, .expressionUnless kind, fuel => Parsing.expressionUnless fuel kind
  | _, .variableDeclaration, fuel => Parsing.variableDeclaration fuel
  | _, .expressionStatement, fuel => Parsing.expressionStatement fuel
  | _, .printStatement, fuel => Parsing.printStatement fuel
  | _, .returnStatement keyword, fuel => Parsing.returnStatement fuel keyword
  | _, .jumpStatement jump keyword, _ => Parsing.jumpStatement jump keyword
  | _, .loopInitializer, fuel => Parsing.loopInitializer fuel
  | _, .loopClauses, fuel => Parsing.loopClauses fuel
  | _, .parenthesizedCondition opening _, fuel => Parsing.parenthesizedCondition fuel opening
  | _, .parameters done, fuel => Parsing.parameters fuel done
  | _, .parameterList, fuel => Parsing.parameterList fuel
  | _, .superclass?, _ => Parsing.superclass?
  | _, .declaration, fuel => Parsing.declaration fuel
  | _, .declarations done, fuel => Parsing.declarations fuel done
  | _, .block, fuel => Parsing.block fuel
  | _, .function declared, fuel => Parsing.function fuel declared
  | _, .methods done, fuel => Parsing.methods fuel done
  | _, .classDeclaration, fuel => Parsing.classDeclaration fuel
  | _, .statement, fuel => Parsing.statement fuel
  | _, .declarationsToEnd done, fuel => Parsing.declarationsToEnd fuel done
  | _, .wholeExpression, fuel => Parsing.wholeExpression fuel

/-- How deep a rule may call before it has taken a token. -/
def depth : {α : Type} → Routine α → Nat
  | _, .superAccess _ | _, .assignTo .. | _, .jumpStatement .. | _, .superclass? => 0
  | _, .infixRest .. | _, .accessRest _ | _, .primary | _, .parameters _ | _, .parameterList => 1
  | _, .function _ | _, .classDeclaration => 1
  | _, .unary | _, .methods _ => 2
  | _, .infixChain level => level.depth
  | _, .operand level => level.depth - 1
  | _, .assignment | _, .expressionUnless _ | _, .variableDeclaration => 15
  | _, .expressionStatement | _, .printStatement | _, .returnStatement _ => 15
  | _, .loopInitializer | _, .loopClauses | _, .parenthesizedCondition .. => 15
  | _, .wholeExpression => 15
  | _, .arguments _ | _, .statement => 16
  | _, .argumentList | _, .declaration => 17
  | _, .declarations _ | _, .declarationsToEnd _ => 18
  | _, .block => 19

/-- Every rule, with the fuel of its call, settles: more fuel changes nothing. -/
theorem settles {α : Type} (routine : Routine α) {tokens : List Token} {fuel more : Nat}
    (enough : 32 * tokens.length + routine.depth ≤ fuel) (le : fuel ≤ more) :
    Settles tokens 0 (routine.parser fuel) (routine.parser more) := by
  -- one lemma for each routine of the parser
  cases routine with
  | superAccess keyword => exact (settles_superAccess keyword).any
  | assignTo target equals value => exact settles_assignTo target equals value
  | assignment => exact (settles_assignment enough le).any
  | infixChain level => exact (settles_infixChain level enough le).any
  | infixRest level left => exact settles_infixRest level left enough le
  | operand level => exact (settles_operand level enough le).any
  | unary => exact (settles_unary enough le).any
  | accessRest subject => exact settles_accessRest subject enough le
  | argumentList => exact settles_argumentList enough le
  | arguments done => exact (settles_arguments done enough le).any
  | primary => exact (settles_primary enough le).any
  | expressionUnless kind => exact settles_expressionUnless kind enough le
  | variableDeclaration => exact (settles_variableDeclaration enough le).any
  | expressionStatement => exact (settles_expressionStatement enough le).any
  | printStatement => exact (settles_printStatement enough le).any
  | returnStatement keyword => exact settles_returnStatement keyword enough le
  | jumpStatement jump keyword => exact (settles_jumpStatement jump keyword).any
  | loopInitializer => exact (settles_loopInitializer enough le).any
  | loopClauses => exact (settles_loopClauses enough le).any
  | parenthesizedCondition _ fed => exact (settles_parenthesizedCondition fed enough le).any
  | parameters done => exact (settles_parameters done enough le).any
  | parameterList => exact settles_parameterList enough le
  | superclass? => exact settles_superclass?
  | declaration => exact (settles_declaration enough le).any
  | declarations done => exact settles_declarations done enough le
  | block => exact (settles_block enough le).any
  | function declared => exact (settles_function declared enough le).any
  | methods done => exact settles_methods done enough le
  | classDeclaration => exact (settles_classDeclaration enough le).any
  | statement => exact (settles_statement enough le).any
  | declarationsToEnd done => exact settles_declarationsToEnd done enough le
  | wholeExpression => exact (settles_wholeExpression enough le).any

end Routine

/-- A parser that is given the fuel, or more, comes to the end, and the listed errors come up
in its run. -/
structure Completes {α : Type} (p : Nat → Parser α) (fuel : Nat) (s : State)
    (log : List SyntaxError) (ending : Ending α) : Prop where
  /-- Fuel on top of it changes nothing. -/
  runs : ∀ spare, Runs (p (fuel + spare)) s log ending
  /-- Fuel never ran out. -/
  fed : .nestingTooDeep ∉ log.map SyntaxError.cause
  /-- Each error of the run is recorded once, behind those that were recorded before. -/
  recorded : ending.errors = s.errors ++ log
  /-- Tokens are taken from the front. -/
  onward : s.Onward ending.state

/-- Every rule completes with fuel in proportion to the tokens left. -/
theorem Routine.completes {α : Type} (routine : Routine α) {s : State} {fuel : Nat}
    (enough : 32 * s.rest.length + routine.depth ≤ fuel) :
    ∃ log, Completes routine.parser fuel s log (routine.parser fuel s) := by
  obtain ⟨log, runs, -, fed, -⟩ := routine.settles enough (Nat.le_refl fuel) s rfl
  refine ⟨log, fun spare => ?_, ?_, runs.errors, runs.onward⟩
  · have more : 32 * s.rest.length + routine.depth ≤ fuel + spare := Nat.le_add_right_of_le enough
    obtain ⟨log', runs', -⟩ := routine.settles more (Nat.le_refl _) s rfl
    obtain ⟨-, -, same, -⟩ := routine.settles enough (Nat.le_add_right fuel spare) s rfl
    rw [same] at runs'
    -- with more fuel it is another parser, but one with the same end
    rwa [runs.unique runs']
  · rintro among
    obtain ⟨error, among, cause⟩ := List.mem_map.mp among
    exact fed error among cause

/-! ## Declarations and programs -/

/-- A declaration takes a token if there is one, or skips one. -/
theorem declaration_progresses {s : State} {token : Token} {rest : List Token} {fuel : Nat}
    (left : s.rest = token :: rest) (enough : 32 * s.rest.length + 17 ≤ fuel) :
    ∃ found t, recovering (declaration fuel) s = .ok found t ∧ t.rest <:+ rest := by
  have some : s.rest ≠ [] := by rw [left]; exact List.cons_ne_nil token rest
  obtain ⟨log, runs, -, -, taken⟩ :=
    (settles_declaration enough (Nat.le_refl fuel)).recovering some s rfl
  have ends : ∃ found t, recovering (declaration fuel) s = .ok found t := by
    unfold recovering
    split <;> exact ⟨_, _, rfl⟩
  obtain ⟨found, t, ran⟩ := ends
  refine ⟨found, t, ran, ?_⟩
  have fewer := taken found t ran
  rw [ran] at runs
  have suffix : t.rest <:+ token :: rest := left ▸ runs.onward.rest
  -- a suffix that is shorter than the list is one of its tail
  rcases List.suffix_cons_iff.mp suffix with whole | tail
  · rw [whole, left, List.length_cons] at fewer
    omega
  · exact tail

/-- A program is read to the end, whatever stands in it. -/
theorem declarationsToEnd_ends {fuel : Nat} (done : List Stmt) {s : State}
    (enough : 32 * s.rest.length + 18 ≤ fuel) :
    ∃ program t, declarationsToEnd fuel done s = .ok program t ∧ t.rest = [] := by
  induction fuel generalizing done s with
  | zero => omega
  | succ fuel ih =>
    rw [declarationsToEnd]
    show ∃ program t, EStateM.bind atEnd _ s = _ ∧ _
    rw [EStateM.bind, atEnd]
    cases left : s.rest with
    | nil => exact ⟨_, s, rfl, left⟩
    | cons token rest =>
      have enough' : 32 * s.rest.length + 17 ≤ fuel := by omega
      obtain ⟨found, t, ran, tail⟩ := declaration_progresses left enough'
      -- every round takes a token, recovering included
      have fewer := tail.length_le
      rw [left, List.length_cons] at enough
      have next (done : List Stmt) := ih done (s := t) (by omega)
      show ∃ program u, EStateM.bind (recovering (declaration fuel)) _ s = _ ∧ _
      rw [EStateM.bind, ran]
      cases found with
      | none => exact next done
      | some stmt => exact next (stmt :: done)

/-! ## Calls of a reader -/

/-- The errors of a reading: none if something was read. -/
def Reading.errors {α : Type} : Reading α → List SyntaxError
  | .ok _ => []
  | .error errors => errors

/-- A call that has run the parser with the fuel that it gives it: the run comes to its end,
its errors are reported behind those recorded before, and none is left recorded. -/
structure Concludes {α : Type} (p : Nat → Parser α) (s : State) (log : List SyntaxError)
    (reading : Reading α) (after : State) : Prop where
  completes : Completes p s.fuel s log (p s.fuel s)
  reported : reading.errors = s.errors ++ log
  cleared : after = { Ending.state (p s.fuel s) with errors := [] }

/-- A call gives as much fuel as its rule may need. -/
theorem State.fuel_enough (s : State) {depth : Nat} (shallow : depth ≤ 32) :
    32 * s.rest.length + depth ≤ s.fuel := by
  unfold State.fuel allowance
  omega

theorem State.conclude_eq {α : Type} (s : State) (value : α) :
    (s.conclude value).1.errors = s.errors ∧ (s.conclude value).2 = { s with errors := [] } := by
  obtain ⟨rest, endLine, errors, nextId⟩ := s
  cases errors <;> exact ⟨rfl, rfl⟩

theorem State.run_eq {α : Type} (s : State) (p : Parser α) :
    (s.run p).1.errors = Ending.errors (p s) ∧
      (s.run p).2 = { Ending.state (p s) with errors := [] } := by
  unfold State.run
  cases p s with
  | ok value t => exact t.conclude_eq value
  | error error t => exact ⟨rfl, rfl⟩

/-- A public call that runs a rule concludes: the errors recorded are answered and cleared. -/
theorem Routine.concludes {α : Type} (routine : Routine α) (shallow : routine.depth ≤ 32)
    (s : State) : ∃ log, Concludes routine.parser s log
      (s.run (routine.parser s.fuel)).1 (s.run (routine.parser s.fuel)).2 := by
  obtain ⟨log, completes⟩ := routine.completes (s.fuel_enough shallow)
  obtain ⟨reported, cleared⟩ := s.run_eq (routine.parser s.fuel)
  exact ⟨log, completes, reported.trans completes.recorded, cleared⟩

/-- Reading a program concludes, and no token is left. -/
theorem program_concludes (s : State) :
    (∃ log, Concludes (declarationsToEnd · []) s log s.program.1 s.program.2) ∧
      s.program.2.rest = [] := by
  obtain ⟨log, concludes⟩ := (Routine.declarationsToEnd []).concludes (by decide) s
  refine ⟨⟨log, concludes⟩, ?_⟩
  obtain ⟨program, t, ran, ended⟩ := declarationsToEnd_ends [] (s.fuel_enough (by decide))
  have cleared := concludes.cleared
  change s.program.2 = { Ending.state (declarationsToEnd s.fuel [] s) with errors := [] } at cleared
  rw [cleared, ran]
  exact ended

/-- Reading an expression concludes. -/
theorem expression_concludes (s : State) :
    ∃ log, Concludes wholeExpression s log s.expression.1 s.expression.2 :=
  Routine.wholeExpression.concludes (by decide) s

/-- An interactive line: the errors of the attempt at an expression count for nothing if the
program is read. -/
theorem input_concludes (reader : Reader) :
    (∃ e after, reader.expression = (.ok e, after) ∧
      reader.input = (.ok (.expression e), after)) ∨
    ∃ errors after log, reader.expression = (.error errors, after) ∧
      Concludes (declarationsToEnd · []) after.restart.state log after.restart.program.1
        reader.input.2.state ∧
      reader.input = (after.restart.program.1.map .statements, after.restart.program.2) ∧
      reader.input.1.errors = log ∧ reader.input.2.state.rest = [] := by
  rcases first : reader.expression with ⟨reading, after⟩
  cases reading with
  | ok e => exact .inl ⟨e, after, rfl, by rw [Reader.input_eq, first]⟩
  | error errors =>
    obtain ⟨⟨log, concludes⟩, ended⟩ := program_concludes after.restart.state
    -- the second reading is that of a whole program, from the start
    have input : reader.input =
        (after.restart.program.1.map .statements, after.restart.program.2) := by
      rw [Reader.input_eq, first]
      rfl
    refine .inr ⟨errors, after, log, rfl, ?_, input, ?_, ?_⟩
    · rw [input]
      exact concludes
    · rw [input]
      have reported : after.restart.program.1.errors = log := concludes.reported
      rw [← reported]
      cases after.restart.program.1 <;> rfl
    · rw [input]
      exact ended

/-- The calls of a reader. -/
inductive Call where
  | program | expression | input
deriving Repr, DecidableEq

/-- What a call gives, and the reader after it. -/
def Reader.call (reader : Reader) : Call → Reading Input × Reader
  | .program => (reader.program.1.map .statements, reader.program.2)
  | .expression => (reader.expression.1.map .expression, reader.expression.2)
  | .input => reader.input

/-- The reader stands somewhere in its tokens, and no error is recorded. -/
structure Reader.Within (reader : Reader) (tokens : Tokens) : Prop where
  same : reader.tokens = tokens
  rest : reader.state.rest <:+ tokens.list
  errors : reader.state.errors = []

namespace Reader.Within

variable {reader : Reader} {tokens : Tokens}

theorem start (tokens : Tokens) (nextId : NodeId) : (Reader.start tokens nextId).Within tokens :=
  ⟨rfl, List.suffix_refl _, rfl⟩

theorem program (within : reader.state.rest <:+ reader.tokens.list)
    (same : reader.tokens = tokens) : reader.program.2.Within tokens := by
  obtain ⟨⟨log, concludes⟩, -⟩ := program_concludes reader.state
  refine ⟨same, ?_, congrArg State.errors concludes.cleared⟩
  show reader.state.program.2.rest <:+ tokens.list
  rw [concludes.cleared, ← same]
  exact concludes.completes.onward.rest.trans within

theorem expression (within : reader.state.rest <:+ reader.tokens.list)
    (same : reader.tokens = tokens) : reader.expression.2.Within tokens := by
  obtain ⟨log, concludes⟩ := expression_concludes reader.state
  refine ⟨same, ?_, congrArg State.errors concludes.cleared⟩
  show reader.state.expression.2.rest <:+ tokens.list
  rw [concludes.cleared, ← same]
  exact concludes.completes.onward.rest.trans within

/-- Every call leaves the reader within its tokens. -/
theorem call (within : reader.Within tokens) (call : Call) :
    (reader.call call).2.Within tokens := by
  have inside : reader.state.rest <:+ reader.tokens.list := within.same ▸ within.rest
  have first : reader.expression.2.Within tokens := .expression inside within.same
  cases call with
  | program => exact .program inside within.same
  | expression => exact first
  | input =>
    rcases input_concludes reader with ⟨e, after, read, input⟩ | ⟨_, after, _, read, -, input, -⟩
    · rw [read] at first
      show reader.input.2.Within tokens
      rwa [input]
    · rw [read] at first
      show reader.input.2.Within tokens
      rw [input]
      exact .program (List.suffix_refl _) first.same

/-- Any row of calls leaves the reader within its tokens. -/
theorem calls (within : reader.Within tokens) (calls : List Call) :
    (calls.foldl (fun reader call => (reader.call call).2) reader).Within tokens := by
  induction calls generalizing reader with
  | nil => exact within
  | cons first rest ih => exact ih (within.call first)

end Reader.Within

/-- The parser makes progress and stays within its tokens. Every rule comes to its end, goes
on to later tokens only and has each of its errors recorded once. A declaration goes on by a
token at least. The calls of a reader end, report all errors and leave none, and only an
interactive line goes back, with nothing left of the first attempt. After any calls, the
reader stands within its tokens, and no error is recorded. -/
theorem parser_progresses :
    (∀ (α : Type) (routine : Routine α) (s : State),
      let fuel := 32 * s.rest.length + routine.depth
      ∃ log, Completes routine.parser fuel s log (routine.parser fuel s)) ∧
    (∀ (s : State) (token : Token) (rest : List Token) (spare : Nat),
      let start := { s with rest := token :: rest }
      let fuel := 32 * start.rest.length + 17 + spare
      ∃ found t, recovering (declaration fuel) start = .ok found t ∧ t.rest <:+ rest) ∧
    (∀ s : State, (∃ log, Concludes (declarationsToEnd · []) s log s.program.1 s.program.2) ∧
      s.program.2.rest = []) ∧
    (∀ s : State, ∃ log, Concludes wholeExpression s log s.expression.1 s.expression.2) ∧
    (∀ reader : Reader,
      (∃ e after, reader.expression = (.ok e, after) ∧
        reader.input = (.ok (.expression e), after)) ∨
      ∃ errors after log, reader.expression = (.error errors, after) ∧
        Concludes (declarationsToEnd · []) after.restart.state log after.restart.program.1
          reader.input.2.state ∧
        reader.input = (after.restart.program.1.map .statements, after.restart.program.2) ∧
        reader.input.1.errors = log ∧ reader.input.2.state.rest = []) ∧
    ∀ (tokens : Tokens) (nextId : NodeId) (calls : List Call),
      (calls.foldl (fun reader call => (reader.call call).2)
        (Reader.start tokens nextId)).Within tokens := by
  refine ⟨fun α routine s => routine.completes (Nat.le_refl _), fun s token rest spare => ?_,
    program_concludes, expression_concludes, input_concludes, fun tokens nextId calls => ?_⟩
  · exact declaration_progresses rfl (Nat.le_add_right _ _)
  · exact (Reader.Within.start tokens nextId).calls calls

end ClassScript.Parsing
