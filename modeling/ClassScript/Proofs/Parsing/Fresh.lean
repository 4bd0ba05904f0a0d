import ClassScript.Proofs.Parsing.Declarations
import ClassScript.Proofs.Parsing.Progress
import ClassScript.Proofs.Parsing.Renamed
import ClassScript.Proofs.Parsing.Sound

/-!
# The identities of all readings

The identities in the tree of a text are distinct, and drawn while the text was read
(`Tree.drawn`). A reading that fails, or that is given up, has drawn identities too, and they
are not drawn again: no run takes a number back. So where several readers draw from one
counter, each call draws behind all calls before it (`Process.step_drawn`), and no identity
occurs twice in all that is read (`Process.trees_drawn`).
-/

namespace ClassScript.Parsing

open Source Syntax

/-! ## The identities in a tree -/

/-- The identities in what a phrase is read as. -/
def Phrase.ids : Phrase → List NodeId
  | primary e | call e | unary e | assignment e => e.ids
  | callRest _ e | chainRest _ _ e | chain _ e => e.ids
  | arguments es | moreArguments es => Expr.idsOfAll es
  | optional e => Expr.idsOf? e
  | «variable» s | expressionStatement s | statement _ s | declaration s => s.ids
  | initializer s => (s.map Stmt.ids).getD []
  | declarations ss => Stmt.idsOfAll ss
  | parameters _ | moreParameters _ => []
  | function d => d.ids
  | methods ds => FunctionDecl.idsOfAll ds
  | superclass o => (o.map Occurrence.id).toList

/-- The identities in what stands before the tokens of a phrase. -/
def Phrase.idsBefore : Phrase → List NodeId
  | callRest subject _ => subject.ids
  | chainRest _ left _ => left.ids
  | _ => []

theorem Phrase.ids_operand (level : Level) (e : Expr) : (operand level e).ids = e.ids := by
  cases level <;> rfl

theorem Phrase.idsBefore_operand (level : Level) (e : Expr) :
    (operand level e).idsBefore = [] := by
  cases level <;> rfl

/-- A node that joins two operands draws no identity of its own. -/
theorem Joins.ids {t : Token} {left right node : Expr} {level : Level}
    (joins : Joins t left right level node) : node.ids = left.ids ++ right.ids := by
  cases joins <;> rfl

theorem ids_condition (condition : Option Expr) :
    (condition.getD (.literal (.bool true))).ids = Expr.idsOf? condition := by
  cases condition <;> rfl

/-- The loop that a loop with clauses stands for has their identities, in the order of
execution. -/
theorem ids_countingLoop (initializer : Option Stmt) (condition : Expr) (body : Stmt)
    (increment : Option Expr) : (countingLoop initializer condition body increment).ids =
      (initializer.map Stmt.ids).getD [] ++
        (condition.ids ++ (body.ids ++ Expr.idsOf? increment)) := by
  cases initializer with
  | none => rfl
  | some s => simp [countingLoop, Stmt.ids, Stmt.idsOfAll]

/-- The identities in what tokens are read as are distinct, and drawn in reading them, if
those in what stands before were drawn before. -/
theorem Tree.drawn {n n' : NodeId} {ts : List Token} {p : Phrase} (tree : Tree n ts p n') :
    ∀ a ≤ n, Drawn a n p.idsBefore → Drawn a n' p.ids := by
  induction tree with
  | literal | noArguments | noMoreArguments | leftOut | uninitialized | noInitializer | breaks
  | continues | noDeclarations | noSuperclass | noMethods | noParameters | noMoreParameters
  | parameters | moreParameters => exact fun _ _ _ => .nil _ _
  | uncalled | unjoined => exact fun _ _ before => before
  | this | «super» | identifier | superclass =>
    exact fun _ behind _ => (Drawn.single _).mono behind (Nat.le_refl _)
  | group _ _ _ ih | operated _ _ ih | unary _ ih | unassigned _ ih | given _ ih
  | initialized _ _ _ _ ih | expression _ _ ih | variableInitializer _ _ ih
  | expressionInitializer _ ih | expressionStatement _ ih | returns _ _ _ ih | block _ _ _ ih
  | print _ _ _ ih | funDecl _ _ ih | varDecl _ _ ih | statement _ ih =>
    exact fun a behind before => ih a behind before
  | function _ _ list _ _ _ _ _ ih =>
    exact fun a behind _ => ih a (Nat.le_trans behind list.le) (.nil _ _)
  | property _ _ _ ih => exact fun a behind before => ih a behind before
  | called _ arguments _ _ first rest =>
    intro a behind before
    refine rest a (Nat.le_trans behind arguments.le) ?_
    exact before.append (first _ (Nat.le_refl _) (.nil _ _)) behind arguments.le
  | call inner _ first rest =>
    exact fun a behind _ => rest a (Nat.le_trans behind inner.le) (first a behind (.nil _ _))
  | joined joins operand _ first rest =>
    intro a behind before
    refine rest a (Nat.le_trans behind operand.le) ?_
    rw [Phrase.ids_operand, Phrase.idsBefore_operand] at first
    rw [Phrase.idsBefore, joins.ids]
    exact Drawn.append before (first _ (Nat.le_refl _) (.nil _ _)) behind operand.le
  | chain operand _ first rest =>
    rw [Phrase.ids_operand, Phrase.idsBefore_operand] at first
    exact fun a behind _ => rest a (Nat.le_trans behind operand.le) (first a behind (.nil _ _))
  | arguments inner more _ first rest | moreArguments _ inner more first rest
  | declarations inner more first rest | methods inner more first rest
  | ifThen _ _ inner _ more first rest =>
    exact fun a behind _ => (first a behind (.nil _ _)).append
      (rest _ (Nat.le_refl _) (.nil _ _)) (Nat.le_trans behind inner.le) more.le
  | assigned _ _ value ih =>
    intro a behind _
    exact (ih a (Nat.le_succ_of_le behind) (.nil _ _)).append (.single _)
      (Nat.le_trans (Nat.le_succ_of_le behind) value.le) (Nat.le_succ _)
  | set owner _ _ _ value first rest =>
    exact fun a behind _ => (rest _ (Nat.le_refl _) (.nil _ _)).append'
      (first a behind (.nil _ _)) (Nat.le_trans behind owner.le) value.le
  | ifElse _ _ test _ yes _ no first second third =>
    intro a behind _
    refine (first a behind (.nil _ _)).append ?_ (Nat.le_trans behind test.le)
      (Nat.le_trans yes.le no.le)
    exact (second _ (Nat.le_refl _) (.nil _ _)).append (third _ (Nat.le_refl _) (.nil _ _))
      yes.le no.le
  | whileLoop _ _ test _ inner first rest =>
    intro a behind _
    have both := (first a behind (.nil _ _)).append (rest _ (Nat.le_refl _) (.nil _ _))
      (Nat.le_trans behind test.le) inner.le
    exact both.perm (by simp [Phrase.ids, Stmt.ids, Expr.idsOf?])
  | forLoop _ _ initial test _ step _ inner counts first second third fourth =>
    intro a behind _
    obtain rfl := counts_iff.mp counts
    -- the increment is read before the body, but stands behind it in the tree
    have clauses := (first a behind (.nil _ _)).append (second _ (Nat.le_refl _) (.nil _ _))
      (Nat.le_trans behind initial.le) test.le
    have loop := (third _ (Nat.le_refl _) (.nil _ _)).append
      (fourth _ (Nat.le_refl _) (.nil _ _)) step.le inner.le
    have all := clauses.append loop
      (Nat.le_trans behind (Nat.le_trans initial.le test.le)) (Nat.le_trans step.le inner.le)
    refine all.perm ?_
    simp only [Phrase.ids, ids_countingLoop, ids_condition, List.append_assoc]
    exact (List.perm_append_comm.append_left _).append_left _
  | @classDecl _ _ _ _ superclass _ _ _ _ _ _ _ _ parent _ methods _ first rest =>
    intro a behind _
    have both := (first a behind (.nil _ _)).append (rest _ (Nat.le_refl _) (.nil _ _))
      (Nat.le_trans behind parent.le) methods.le
    cases superclass <;> exact both

/-! ## Calls -/

/-- The identities in what was read. -/
def Input.ids : Input → List NodeId
  | .statements program => Stmt.idsOfAll program
  | .expression e => e.ids

/-- A call that ends with the next identity to draw: it has drawn those in what it gives. -/
structure Draws {α : Type} (ids : α → List NodeId) (first : NodeId) (reading : Reading α)
    (last : NodeId) : Prop where
  ordered : first ≤ last
  drawn : ∀ a, reading = .ok a → Drawn first last (ids a)

namespace Draws

variable {α β : Type} {ids : α → List NodeId} {first last : NodeId} {reading : Reading α}

/-- What is drawn for a value is drawn for what is made of it, if the identities stay. -/
theorem map {f : α → β} {more : β → List NodeId} (draws : Draws ids first reading last)
    (same : ∀ a, more (f a) = ids a) : Draws more first (reading.map f) last := by
  refine ⟨draws.ordered, fun b read => ?_⟩
  cases reading with
  | error errors => cases read
  | ok a =>
    cases read
    rw [same]
    exact draws.drawn a rfl

/-- Some identities were drawn before by a call that came to nothing. -/
theorem after {earlier : NodeId} (draws : Draws ids first reading last)
    (before : earlier ≤ first) : Draws ids earlier reading last :=
  ⟨Nat.le_trans before draws.ordered,
    fun a read => (draws.drawn a read).mono before (Nat.le_refl _)⟩

/-- A parser that finds a tree with the identities from the next one on draws them. -/
theorem run {p : Nat → Parser α} {s : State} {log : List SyntaxError}
    {post : α → Nat → List Token → Prop}
    (concludes : Concludes p s log (s.run (p s.fuel)).1 (s.run (p s.fuel)).2)
    (finds : Finds s.nextId s.rest (p s.fuel) post)
    (drawn : ∀ a n rest, post a n rest → Drawn s.nextId n (ids a)) :
    Draws ids s.nextId (s.run (p s.fuel)).1 (s.run (p s.fuel)).2.nextId := by
  refine ⟨?_, fun a read => ?_⟩
  · rw [concludes.cleared]
    exact concludes.completes.onward.nextId
  · -- a reading that gives something began without errors
    have clean : s.errors = [] := by
      have reported := concludes.reported
      rw [read] at reported
      exact (List.append_eq_nil_iff.mp reported.symm).1
    exact drawn a _ _ (finds.run clean (Prod.ext read rfl))

end Draws

/-- A program read draws the identities of its statements from the counter. -/
theorem program_draws (s : State) :
    Draws Stmt.idsOfAll s.nextId s.program.1 s.program.2.nextId := by
  obtain ⟨log, concludes⟩ := (Routine.declarationsToEnd []).concludes (by decide) s
  refine .run concludes (finds_declarationsToEnd s.fuel [] s.nextId s.rest) ?_
  rintro _ n _ ⟨ss, rfl, -, tree⟩
  exact tree.drawn _ (Nat.le_refl _) (.nil _ _)

/-- An expression read draws its identities from the counter. -/
theorem expression_draws (s : State) :
    Draws Expr.ids s.nextId s.expression.1 s.expression.2.nextId := by
  obtain ⟨log, concludes⟩ := Routine.wholeExpression.concludes (by decide) s
  refine .run concludes (finds_wholeExpression s.fuel s.nextId s.rest) ?_
  rintro e n _ ⟨-, tree⟩
  exact tree.drawn _ (Nat.le_refl _) (.nil _ _)

/-- An interactive line may have drawn identities for an expression that it gives up. -/
theorem call_draws (reader : Reader) (call : Call) :
    Draws Input.ids reader.state.nextId (reader.call call).1
      (reader.call call).2.state.nextId := by
  have first : Draws Expr.ids reader.state.nextId reader.expression.1
      reader.expression.2.state.nextId := expression_draws reader.state
  cases call with
  | program => exact (program_draws reader.state).map fun _ => rfl
  | expression => exact first.map fun _ => rfl
  | input =>
    show Draws Input.ids _ reader.input.1 reader.input.2.state.nextId
    rcases input_concludes reader with ⟨e, after, read, input⟩ | ⟨_, after, _, read, -, input, -⟩
    · rw [read] at first
      rw [input]
      exact first.map (f := Input.expression) fun _ => rfl
    · rw [read] at first
      rw [input]
      -- the second reading draws from where the first one stopped
      have program : Draws Input.ids after.state.nextId (after.restart.program.1.map .statements)
          after.restart.program.2.state.nextId :=
        (program_draws after.restart.state).map fun _ => rfl
      exact program.after first.ordered

/-! ## Several readers -/

/-- Readers of several texts that draw identities from one counter. -/
structure Process where
  readers : List Reader
  nextId : NodeId

/-- What may be asked of a process: a reader of a text, or a call of the reader of a number. -/
inductive Command where
  | «open» (tokens : Tokens)
  | call (reader : Nat) (call : Call)

/-- A reader that draws its next identity from a counter. -/
def Reader.resume (reader : Reader) (nextId : NodeId) : Reader :=
  { reader with state := { reader.state with nextId } }

namespace Process

def start (nextId : NodeId) : Process := ⟨[], nextId⟩

/-- What a command reads, if it reads something, and the process after it. -/
def step (p : Process) : Command → Option Input × Process
  | .open tokens => (none, { p with readers := p.readers ++ [.start tokens p.nextId] })
  | .call number call =>
    match p.readers[number]? with
    | none => (none, p)
    | some reader =>
      let (reading, after) := (reader.resume p.nextId).call call
      (reading.toOption, ⟨p.readers.set number after, after.state.nextId⟩)

/-- All that is read while the commands are run, in order. -/
def trees : Process → List Command → List Input
  | _, [] => []
  | p, command :: rest => (p.step command).1.toList ++ (p.step command).2.trees rest

def after : Process → List Command → Process
  | p, [] => p
  | p, command :: rest => (p.step command).2.after rest

/-- The counter only goes up, and what a command reads has identities that the command drew. -/
theorem step_drawn (p : Process) (command : Command) :
    p.nextId ≤ (p.step command).2.nextId ∧
      Drawn p.nextId (p.step command).2.nextId ((p.step command).1.toList.flatMap Input.ids) := by
  have idle : Drawn p.nextId p.nextId [] := .nil _ _
  cases command with
  | «open» tokens => exact ⟨Nat.le_refl _, idle⟩
  | call number call =>
    rw [step]
    -- a request to a reader that was never opened draws nothing
    cases p.readers[number]? with
    | none => exact ⟨Nat.le_refl _, idle⟩
    | some reader =>
      have draws : Draws Input.ids p.nextId _ _ := call_draws (reader.resume p.nextId) call
      dsimp only
      generalize (reader.resume p.nextId).call call = outcome at draws ⊢
      obtain ⟨reading, after⟩ := outcome
      refine ⟨draws.ordered, ?_⟩
      cases reading with
      | error errors => exact .nil _ _
      | ok input => simpa [Except.toOption] using draws.drawn input rfl

/-- In all that is read, no identity occurs twice. -/
theorem trees_drawn (p : Process) (commands : List Command) :
    p.nextId ≤ (p.after commands).nextId ∧
      Drawn p.nextId (p.after commands).nextId ((p.trees commands).flatMap Input.ids) := by
  induction commands generalizing p with
  | nil => exact ⟨Nat.le_refl _, .nil _ _⟩
  | cons command rest ih =>
    obtain ⟨ordered, first⟩ := p.step_drawn command
    obtain ⟨ordered', more⟩ := ih (p.step command).2
    refine ⟨Nat.le_trans ordered ordered', ?_⟩
    rw [trees, List.flatMap_append]
    exact first.append more ordered ordered'

/-- The first reader gives up an expression, for which 0 was drawn. -/
example :
    let tokens : Tokens := ⟨[⟨.identifier, "a", 1⟩, ⟨.semicolon, ";", 1⟩], 1⟩
    let commands : List Command := [.open tokens, .open tokens, .call 0 .input, .call 1 .program]
    ((start 0).trees commands).flatMap Input.ids = [1, 2] := by
  decide +kernel

end Process

end ClassScript.Parsing
