import ClassScript.Proofs.Parsing.Errors
import ClassScript.Proofs.Parsing.Moved

/-!
# Interactive lines

No tokens are both an expression and a program: a program ends with a semicolon or a
closing brace, and an expression never does (`Tree.ends`). A reader may be asked for
programs, expressions and interactive lines in any order. No request leaves errors behind
(`Ready.call`), and a line that is no expression from where the reader stands is read as a
program from the first token on, as if nothing had been read before (`input_classified`).
-/

namespace ClassScript.Parsing

open Source Syntax

/-! ## Last tokens -/

/-- The tokens that an expression can end with. -/
def endsExpression : Kind → Bool
  | .number | .string | .true | .false | .nil | .this | .identifier | .rightParen => true
  | _ => false

/-- The tokens that a statement can end with. -/
def endsStatement : Kind → Bool
  | .semicolon | .rightBrace => true
  | _ => false

/-- There is a last token, and it is of such a kind. -/
def EndsWith (good : Kind → Bool) (ts : List Token) : Prop :=
  ∃ t, ts.getLast? = some t ∧ good t.kind

/-- Either there are no tokens, or the last one is of such a kind. -/
def MayEndWith (good : Kind → Bool) (ts : List Token) : Prop := ts = [] ∨ EndsWith good ts

/-- How the tokens of a phrase end. -/
def Phrase.Ends (ts : List Token) : Phrase → Prop
  | primary _ | call _ | unary _ | chain _ _ | assignment _ => EndsWith endsExpression ts
  | callRest _ _ | chainRest _ _ _ => MayEndWith endsExpression ts
  | «variable» _ | expressionStatement _ | statement _ _ | declaration _ | function _ =>
    EndsWith endsStatement ts
  | declarations _ => MayEndWith endsStatement ts
  | _ => True

section Ends

variable {good : Kind → Bool} {ts us : List Token} {t : Token}

theorem EndsWith.last (last : good t.kind) : EndsWith good (ts ++ [t]) :=
  ⟨t, List.getLast?_concat, last⟩

theorem EndsWith.single (last : good t.kind) : EndsWith good [t] := ⟨t, rfl, last⟩

/-- What ends so behind other tokens. -/
theorem EndsWith.behind (ends : EndsWith good us) : EndsWith good (ts ++ us) := by
  obtain ⟨t, last, kind⟩ := ends
  refine ⟨t, ?_, kind⟩
  rw [List.getLast?_append, last]
  rfl

theorem EndsWith.cons (ends : EndsWith good us) : EndsWith good (t :: us) := by
  show EndsWith good ([t] ++ us)
  exact ends.behind

/-- More tokens keep the end, or bring an end of their own. -/
theorem EndsWith.append (ends : EndsWith good ts) (more : MayEndWith good us) :
    EndsWith good (ts ++ us) := by
  rcases more with rfl | more
  · rwa [List.append_nil]
  · exact more.behind

end Ends

theorem Phrase.ends_operand {level : Level} {e : Expr} {ts : List Token} :
    (operand level e).Ends ts ↔ EndsWith endsExpression ts := by
  cases level <;> exact Iff.rfl

/-- Every constant can end an expression. -/
theorem endsExpression_of_denotes {t : Token} {value : Literal}
    (constant : t.Denotes value) : endsExpression t.kind := by
  rcases constant with same | same | same | same | same <;> rw [same] <;> rfl

/-- Expressions and statements end with different tokens. -/
theorem Tree.ends {n n' : NodeId} {ts : List Token} {p : Phrase} (tree : Tree n ts p n') :
    p.Ends ts := by
  induction tree with
  -- the cases go by what stands last: a token of the construct, or the end of its last part
  | literal constant => exact .single (endsExpression_of_denotes constant)
  | this kind | identifier kind => exact .single (by rw [kind]; rfl)
  | super _ _ name =>
    have named : EndsWith endsExpression [_] := .single (by rw [name]; rfl)
    exact named.cons.cons
  | group _ _ closes => exact .last (by rw [closes]; rfl)
  | uncalled | unjoined | noDeclarations => exact .inl rfl
  | called _ _ closes _ _ rest =>
    have closing : EndsWith endsExpression [_] := .single (by rw [closes]; rfl)
    exact .inr (closing.append rest).behind
  | property _ name _ rest =>
    have named : EndsWith endsExpression [_] := .single (by rw [name]; rfl)
    exact .inr (named.append rest).cons
  | call _ _ first rest => exact first.append rest
  | operated _ _ ih => exact ih.cons
  | unary _ ih | unassigned _ ih => exact ih
  | joined _ _ _ operand rest =>
    exact .inr ((Phrase.ends_operand.mp operand).cons.append rest)
  | chain _ _ first rest => exact (Phrase.ends_operand.mp first).append rest
  | assigned _ _ _ ih => exact ih.cons.cons
  | set _ _ _ _ _ _ ih => exact ih.cons.cons.cons.behind
  | uninitialized _ ends | breaks _ ends | continues _ ends =>
    have closing : EndsWith endsStatement [_] := .single (by rw [ends]; rfl)
    exact closing.cons
  | initialized _ _ _ ends | expression _ ends | returns _ _ ends | print _ _ ends =>
    exact .last (by rw [ends]; rfl)
  | expressionStatement _ ih | statement _ ih => exact ih
  | forLoop _ _ _ _ _ _ _ _ _ _ _ _ ih => exact ih.cons.behind
  | ifThen _ _ _ _ _ _ ih | whileLoop _ _ _ _ _ _ ih => exact ih.cons.behind
  | ifElse _ _ _ _ _ _ _ _ _ ih => exact ih.cons.behind
  | block _ _ closes => exact .last (by rw [closes]; rfl)
  | classDecl _ _ _ _ _ closes => exact .last (by rw [closes]; rfl)
  | funDecl _ _ ih | varDecl _ _ ih => exact ih.cons
  | declarations _ _ first rest => exact .inr (first.append rest)
  | function _ _ _ _ _ _ ends => exact .last (by rw [ends]; rfl)
  | _ => trivial

/-- No tokens are both an expression and a program. -/
theorem Tree.not_both {n n' m m' : NodeId} {ts : List Token} {e : Expr} {ss : Program}
    (single : Tree n ts (.assignment e) n') (program : Tree m ts (.declarations ss) m') :
    False := by
  obtain ⟨t, last, kind⟩ := single.ends
  rcases program.ends with rfl | ⟨t', last', kind'⟩
  · cases last
  · obtain rfl : t = t' := Option.some.inj (last.symm.trans last')
    revert kind kind'
    cases t.kind <;> nofun

/-! ## Readers after any requests -/

/-- What a reader can be asked for. -/
inductive Request where
  | program | expression | input
deriving Repr, DecidableEq

/-- The reader after a request. -/
def Reader.ask (reader : Reader) : Request → Reader
  | .program => reader.program.2
  | .expression => reader.expression.2
  | .input => reader.input.2

/-- The reader after requests in order. -/
def Reader.after (reader : Reader) (requests : List Request) : Reader :=
  requests.foldl Reader.ask reader

/-- The reader has these tokens, stands somewhere in them, and has no errors. -/
structure Ready (tokens : Tokens) (reader : Reader) : Prop where
  same : reader.tokens = tokens
  reads : reader.state.Reads tokens
  clean : reader.state.errors = []

section Readers

variable {tokens : Tokens} {reader : Reader}

/-- A run stays in the tokens, and takes the errors away. -/
theorem Cites.ready {α : Type} {p : Parser α} {s : State} (cites : Cites tokens p fun _ => True)
    (reads : s.Reads tokens) : (s.run p).2.Reads tokens ∧ (s.run p).2.errors = [] := by
  have ends := cites s reads
  unfold State.run
  cases run : p s with
  | error error s' =>
    rw [run] at ends
    exact ⟨⟨ends.1.rest, ends.1.endLine, nofun⟩, rfl⟩
  | ok a s' =>
    rw [run] at ends
    dsimp only
    unfold State.conclude
    cases found : s'.errors with
    | nil => exact ⟨ends.1, found⟩
    | cons first rest => exact ⟨⟨ends.1.rest, ends.1.endLine, nofun⟩, rfl⟩

/-- A reader that has read nothing answers requests. -/
theorem ready_start (tokens : Tokens) (n : NodeId) : Ready tokens (Reader.start tokens n) :=
  ⟨rfl, reads_start tokens n, rfl⟩

theorem Ready.program (ready : Ready tokens reader) : Ready tokens reader.program.2 :=
  have ⟨reads, clean⟩ := (cites_declarationsToEnd _ []).ready ready.reads
  ⟨ready.same, reads, clean⟩

theorem Ready.expression (ready : Ready tokens reader) : Ready tokens reader.expression.2 :=
  have ⟨reads, clean⟩ := (cites_wholeExpression _).ready ready.reads
  ⟨ready.same, reads, clean⟩

/-- A reader that starts again is one that has read nothing. -/
theorem Ready.restart (ready : Ready tokens reader) :
    reader.restart = Reader.start tokens reader.state.nextId := by
  obtain ⟨rfl, reads, -⟩ := ready
  show Reader.mk reader.tokens ⟨_, reader.state.endLine, [], _⟩ = _
  rw [reads.endLine]
  rfl

/-- A line that is an expression from here on. -/
theorem input_of_expression {e : Expr} (read : reader.expression.1 = .ok e) :
    reader.input = (.ok (.expression e), reader.expression.2) := by
  rw [Reader.input_eq]
  generalize reader.expression = attempt at read ⊢
  obtain ⟨reading, behind⟩ := attempt
  cases read
  rfl

/-- A line that is no expression from here on is a program as a whole. -/
theorem Ready.input_of_error (ready : Ready tokens reader) {errors : List SyntaxError}
    (failed : reader.expression.1 = .error errors) : ∃ n,
      reader.input.1 = (Parsing.program tokens n).1.map .statements ∧
        reader.input.2 = (Reader.start tokens n).program.2 := by
  have behind := ready.expression
  rw [Reader.input_eq]
  generalize reader.expression = attempt at failed behind ⊢
  obtain ⟨reading, reader'⟩ := attempt
  cases failed
  have again : reader'.restart = Reader.start tokens reader'.state.nextId := behind.restart
  dsimp only
  rw [Reader.again, again]
  exact ⟨reader'.state.nextId, rfl, rfl⟩

theorem Ready.input (ready : Ready tokens reader) : Ready tokens reader.input.2 := by
  cases attempt : reader.expression.1 with
  | ok e =>
    rw [input_of_expression attempt]
    exact ready.expression
  | error errors =>
    obtain ⟨n, -, behind⟩ := ready.input_of_error attempt
    rw [behind]
    exact (ready_start tokens n).program

/-- Whichever form is asked for, the reader answers the next request too. -/
theorem Ready.ask (ready : Ready tokens reader) (request : Request) :
    Ready tokens (reader.ask request) := by
  cases request with
  | program => exact ready.program
  | expression => exact ready.expression
  | input => exact ready.input

/-- No requests leave errors behind. -/
theorem Ready.after (ready : Ready tokens reader) (requests : List Request) :
    Ready tokens (reader.after requests) := by
  induction requests generalizing reader with
  | nil => exact ready
  | cons request more ih => exact ih (ready.ask request)

end Readers

/-! ## The classification -/

/-- What is read as a program, or what is wrong with it, whatever identities are drawn. -/
def Reading.nameless : Reading Program → Reading Program :=
  Except.map (Stmt.renameAll .nameless)

/-- What a program is read as does not depend on the identities, up to them. -/
theorem program_nameless (tokens : Tokens) (n n' : NodeId) :
    Reading.nameless (program tokens n).1 = Reading.nameless (program tokens n').1 := by
  have settled (n : NodeId) :
      Reading.nameless (program tokens n).1 = Reading.nameless (program tokens 0).1 := by
    have moved := program_up (k := n) tokens 0
    rw [Nat.zero_add] at moved
    rw [moved]
    cases (program tokens 0).1 with
    | error errors => rfl
    | ok ss => exact congrArg Except.ok (Stmt.renameAll_renameAll ..)
  rw [settled n, settled n']

/-- Interactive lines are classified without ambiguity. No tokens are read both as an
expression and as a program by fresh readers. Whatever a reader was asked for before, a
line is the expression that reaches from here to the end if there is one, and otherwise
the program that a fresh reader reads, or the errors that it finds; and no errors stay
behind. -/
theorem input_classified (tokens : Tokens) :
    (∀ (n n' : NodeId) (e : Expr) (ss : Program),
      ¬ ((singleExpression tokens n).1 = .ok e ∧ (program tokens n').1 = .ok ss)) ∧
    ∀ (start : NodeId) (requests : List Request),
      let reader := (Reader.start tokens start).after requests
      (∀ e, reader.expression.1 = .ok e → reader.input.1 = .ok (.expression e)) ∧
      (∀ errors, reader.expression.1 = .error errors → ∀ fresh : NodeId,
        ∃ reading : Reading Program, reader.input.1 = reading.map .statements ∧
          Reading.nameless reading = Reading.nameless (program tokens fresh).1) ∧
      reader.state.errors = [] ∧ reader.input.2.state.errors = [] := by
  refine ⟨?_, ?_⟩
  -- one text would have a tree of both forms, which end in different tokens
  · rintro n n' e ss ⟨single, whole⟩
    have tree : Tree n tokens.list (.assignment e) (singleExpression tokens n).2 :=
      singleExpression_iff.mp (Prod.ext single rfl)
    have trees : Tree n' tokens.list (.declarations ss) (program tokens n').2 :=
      program_iff.mp (Prod.ext whole rfl)
    exact tree.not_both trees
  · intro start requests reader
    have ready : Ready tokens reader := (ready_start tokens start).after requests
    refine ⟨?_, ?_, ready.clean, ready.input.clean⟩
    · intro e read
      rw [input_of_expression read]
    · intro errors failed fresh
      -- only the identities tell the second reading from one on a fresh reader
      obtain ⟨n, read, -⟩ := ready.input_of_error failed
      exact ⟨(program tokens n).1, read, program_nameless tokens n fresh⟩

/-- A variable is an expression where nothing was read, and no program where all was. -/
theorem variable_classified :
    let tokens : Tokens := ⟨[⟨.identifier, "a", 1⟩], 1⟩
    let e : Expr := .variable ⟨0, ⟨"a", 1⟩⟩
    let error : SyntaxError := ⟨1, none, .expression⟩
    let reader := (Reader.start tokens 0).after [.program]
    (Reader.start tokens 0).input.1 = .ok (.expression e) ∧
      ¬ ((singleExpression tokens 0).1 = .ok e ∧ (program tokens 0).1 = .ok []) ∧
      reader.expression.1 = .error [error] ∧ ∃ reading : Reading Program,
        reader.input.1 = reading.map .statements ∧
          Reading.nameless reading = Reading.nameless (program tokens 0).1 := by
  intro tokens e error reader
  have read : ((Reader.start tokens 0).after []).expression.1 = .ok e := by cbv
  have failed : reader.expression.1 = .error [error] := by cbv
  obtain ⟨apart, classified⟩ := input_classified tokens
  exact ⟨(classified 0 []).1 e read, apart 0 0 e [], failed,
    (classified 0 [.program]).2.1 [error] failed 0⟩

end ClassScript.Parsing
