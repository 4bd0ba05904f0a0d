import ClassScript.Proofs.Parsing.Located
import ClassScript.Proofs.Parsing.Written

/-!
# Counting loops, written out

The parts of a counting loop, as tokens, make a block with a plain loop, which does the
increment at the end of its body (`LoopTokens.writtenOut`). Where no `continue` leads out of
the body, the two are statements with the same core (`Loop.readable`). Every `for` in a
program begins such a loop (`exists_loop`).
-/

namespace ClassScript.Parsing

open Source Syntax

/-- A counting loop, part by part. -/
structure LoopTokens where
  keyword : Token
  opening : Token
  /-- What runs first, with its semicolon. -/
  first : List Token
  test : List Token
  semicolon : Token
  step : List Token
  closing : Token
  body : List Token

namespace LoopTokens

variable (l : LoopTokens)

/-- What follows the keyword. -/
def rest : List Token :=
  l.opening :: l.first ++ l.test ++ l.semicolon :: l.step ++ l.closing :: l.body

def tokens : List Token := l.keyword :: l.rest

/-- The condition, which is `true` if it is left out. -/
def condition (word : Kind → Token) : List Token := if l.test = [] then [word .true] else l.test

/-- The initializer, if there is more than its semicolon. -/
def initializer : List Token := if l.first.length = 1 then [] else l.first

/-- The increment as a statement, if there is one. -/
def increment (word : Kind → Token) : List Token :=
  if l.step = [] then [] else l.step ++ [word .semicolon]

/-- The loop as one would write it with `while`. The parts keep their tokens, and the words
in between are given by their kinds. -/
def writtenOut (word : Kind → Token) : List Token :=
  word .leftBrace :: l.initializer ++ word .while :: word .leftParen :: l.condition word ++
    word .rightParen :: word .leftBrace :: l.body ++ l.increment word ++
      [word .rightBrace, word .rightBrace]

/-- What is written out has the tokens of the loop, and words that are no identifiers. -/
theorem mem_writtenOut {word : Kind → Token} : ∀ t ∈ l.writtenOut word,
    t ∈ l.tokens ∨ ∃ kind, kind ≠ .identifier ∧ t = word kind := by
  -- a token is inserted or comes from one of the four parts
  have inserted (kind : Kind) (other : kind ≠ .identifier) :
      word kind ∈ l.tokens ∨ ∃ kind', kind' ≠ .identifier ∧ word kind = word kind' :=
    .inr ⟨kind, other, rfl⟩
  have part {ts : List Token} (sub : ts ⊆ l.tokens) :
      ∀ t ∈ ts, t ∈ l.tokens ∨ ∃ kind, kind ≠ .identifier ∧ t = word kind :=
    fun t among => .inl (sub among)
  have first : l.first ⊆ l.tokens := fun t among => by simp [tokens, rest, among]
  have test : l.test ⊆ l.tokens := fun t among => by simp [tokens, rest, among]
  have step : l.step ⊆ l.tokens := fun t among => by simp [tokens, rest, among]
  have body : l.body ⊆ l.tokens := fun t among => by simp [tokens, rest, among]
  unfold writtenOut initializer condition increment
  simp only [List.forall_mem_append, List.forall_mem_cons]
  refine ⟨⟨⟨⟨⟨inserted _ nofun, ?_⟩, inserted _ nofun, inserted _ nofun, ?_⟩, inserted _ nofun,
    inserted _ nofun, part body⟩, ?_⟩, inserted _ nofun, inserted _ nofun, nofun⟩
  · split
    · exact nofun
    · exact part first
  · split
    · exact List.forall_mem_singleton.mpr (inserted .true nofun)
    · exact part test
  · split
    · exact nofun
    · rw [List.forall_mem_append]
      exact ⟨part step, List.forall_mem_singleton.mpr (inserted .semicolon nofun)⟩

end LoopTokens

/-- The tokens are such a phrase. -/
def IsPhrase (ts : List Token) (p : Phrase) : Prop := ∃ n n', Tree n ts p n'

/-- The parts are those of a counting loop. -/
structure Loop (l : LoopTokens) (initializer : Option Stmt) (condition increment : Option Expr)
    (isOpen : Bool) (body : Stmt) : Prop where
  keyword : l.keyword.kind = .for
  opens : l.opening.kind = .leftParen
  first : IsPhrase l.first (.initializer initializer)
  test : IsPhrase l.test (.optional condition)
  ends : l.semicolon.kind = .semicolon
  step : IsPhrase l.step (.optional increment)
  closes : l.closing.kind = .rightParen
  inner : IsPhrase l.body (.statement isOpen body)

/-- A statement declares nothing in the scope that it stands in. -/
theorem Tree.statement_declarations {n n' : NodeId} {ts : List Token} {isOpen : Bool} {s : Stmt}
    (tree : Tree n ts (.statement isOpen s) n') : s.declarations = [] := by
  generalize shape : Phrase.statement isOpen s = p at tree
  induction tree generalizing isOpen s with
  | expressionStatement inner =>
    cases shape
    cases inner
    rfl
  -- with an initializer the loop is a block, without one it declares what its body does
  | forLoop _ _ _ _ _ _ _ _ counts _ _ _ ih =>
    cases shape
    cases counts with
    | bare =>
      have none := ih rfl
      exact none
    | block => rfl
  | ifThen _ _ _ _ _ _ ih | whileLoop _ _ _ _ _ _ ih =>
    cases shape
    have none := ih rfl
    exact none
  | ifElse _ _ _ _ _ _ _ _ ih ih' =>
    cases shape
    have both := And.intro (ih rfl) (ih' rfl)
    exact List.append_eq_nil_iff.mpr both
  | returns | breaks | continues | block | print =>
    cases shape
    rfl
  | _ => cases shape

/-- A variable declaration has two tokens at least after its keyword. -/
theorem Tree.variable_length {n n' : NodeId} {ts : List Token} {s : Stmt}
    (tree : Tree n ts (.variable s) n') : 1 < ts.length := by
  cases tree <;> simp

/-- An expression statement has two tokens at least. -/
theorem Tree.expressionStatement_length {n n' : NodeId} {ts : List Token} {s : Stmt}
    (tree : Tree n ts (.expressionStatement s) n') : 1 < ts.length := by
  cases tree with
  | expression inner =>
    obtain ⟨t, more, rfl, -⟩ := inner.begins rfl
    simp

namespace Readable

variable {ts us : List Token}

theorem of_statement {isOpen : Bool} {s : Stmt} (h : IsPhrase ts (.statement isOpen s)) :
    Readable ts (.statement isOpen s) := by
  obtain ⟨n, n', tree⟩ := h
  intro m
  exact ⟨_, _, tree.move m, .statement id (s.core_rename _)⟩

/-- Only the core counts. -/
theorem of_core {isOpen : Bool} {s s' : Stmt} (h : Readable ts (.statement isOpen s'))
    (same : s'.core = s.core) : Readable ts (.statement isOpen s) := by
  intro m
  obtain ⟨isOpen', s'', m', tree, closed, core⟩ := h.statement m
  exact ⟨_, m', tree, .statement closed (core.trans same)⟩

/-- One declaration alone. -/
theorem single {s : Stmt} (h : Readable ts (.declaration s)) : Readable ts (.declarations [s]) :=
  (h.declarations_first (n := 0) .noDeclarations).cast (by simp)

end Readable

/-- A primary expression is an assignment without a target. -/
theorem Tree.assignment_of_primary {n n' : NodeId} {ts : List Token} {e : Expr}
    (tree : Tree n ts (.primary e) n') : Tree n ts (.assignment e) n' := by
  have last : Tree n ts (.madeBy 8 e) n' := Tree.of_primary tree
  exact last.madeBy_le (Nat.zero_le 8)

/-- The word `true` as an expression. -/
theorem tree_true {t : Token} (keyword : t.kind = .true) (n : NodeId) :
    Tree n [t] (.assignment (.literal (.bool true))) n := by
  exact Tree.assignment_of_primary (.literal (.true keyword))

namespace Loop

variable {l : LoopTokens} {initializer : Option Stmt} {condition increment : Option Expr}
  {isOpen : Bool} {body : Stmt} (loop : Loop l initializer condition increment isOpen body)
  {word : Kind → Token} (words : ∀ kind, (word kind).kind = kind)
include loop

/-- The parts, one behind the other, are a loop. -/
theorem whole : Readable l.tokens (.statement isOpen (countingLoop initializer
    (condition.getD (.literal (.bool true))) body increment)) := by
  obtain ⟨_, _, first⟩ := loop.first
  obtain ⟨_, _, test⟩ := loop.test
  obtain ⟨_, _, step⟩ := loop.step
  exact .forLoop loop.keyword loop.opens first test loop.ends step loop.closes
    (.of_statement loop.inner)

theorem plain : body.declarations = [] := by
  obtain ⟨_, _, inner⟩ := loop.inner
  exact inner.statement_declarations

include words

/-- The body with the increment behind it. -/
theorem readable_body :
    Readable (word .leftBrace :: (l.body ++ l.increment word) ++ [word .rightBrace])
      (.statement false (.block (body :: increment.toList.map .expression))) := by
  have inner := (Readable.of_statement loop.inner).ofStatement
  refine .block (words _) ?_ (words _)
  obtain ⟨n, n', step⟩ := loop.step
  unfold LoopTokens.increment
  generalize l.step = ts at step ⊢
  cases step with
  -- without an increment the block holds the body alone
  | leftOut =>
    rw [if_pos rfl, List.append_nil]
    exact inner.single
  | given given =>
    obtain ⟨t, more, nonempty, -⟩ := given.begins rfl
    rw [if_neg (by simp [nonempty])]
    have statement := Tree.declarations (.statement (.expressionStatement
      (.expression given (words .semicolon)))) .noDeclarations
    rw [List.append_nil] at statement
    exact inner.declarations_first statement

/-- The loop with its condition. -/
theorem readable_while : Readable (word .while :: word .leftParen :: l.condition word ++
      word .rightParen :: (word .leftBrace :: (l.body ++ l.increment word) ++ [word .rightBrace]))
    (.statement false (.loop (condition.getD (.literal (.bool true)))
      (.block (body :: increment.toList.map .expression)) none)) := by
  obtain ⟨n, n', test⟩ := loop.test
  unfold LoopTokens.condition
  generalize l.test = ts at test ⊢
  cases test with
  | leftOut =>
    rw [if_pos rfl]
    exact .whileLoop (words _) (words _) (tree_true (words _) 0) (words _)
      (loop.readable_body words)
  | given given =>
    obtain ⟨t, more, nonempty, -⟩ := given.begins rfl
    rw [if_neg (by simp [nonempty])]
    exact .whileLoop (words _) (words _) given (words _) (loop.readable_body words)

/-- What is written out is the block with the plain loop. -/
theorem readable_writtenOut : Readable (l.writtenOut word) (.statement false
    (writtenOut initializer (condition.getD (.literal (.bool true))) body increment)) := by
  have last := (loop.readable_while words).ofStatement.single
  -- whatever the initializer is, the loop stands last in a block
  have block {ts : List Token} {ss : List Stmt} (inner : Readable ts (.declarations ss)) :
      Readable (word .leftBrace :: ts ++ [word .rightBrace]) (.statement false (.block ss)) :=
    .block (words _) inner (words _)
  obtain ⟨n, n', first⟩ := loop.first
  unfold LoopTokens.writtenOut LoopTokens.initializer
  generalize l.first = ts at first ⊢
  cases first with
  | noInitializer => exact (block last).cast (by simp)
  | variableInitializer keyword declared =>
    have more := declared.variable_length
    rw [if_neg (by rw [List.length_cons]; omega)]
    exact (block (.declarations_rest (.varDecl keyword declared) last)).cast (by simp)
  | expressionInitializer inner =>
    have more := inner.expressionStatement_length
    rw [if_neg (by omega)]
    exact (block (.declarations_rest (.statement (.expressionStatement inner)) last)).cast (by simp)

/-- Where no `continue` leads out of the body, what is written out has the core of the
loop. -/
theorem readable (stays : ¬ body.Escapes .continue) : Readable (l.writtenOut word)
    (.statement false (countingLoop initializer
      (condition.getD (.literal (.bool true))) body increment)) := by
  have ends : body.continues = false := by
    by_contra found
    exact stays (body.escapes_of_continues (Bool.eq_true_of_not_eq_false found))
  exact (loop.readable_writtenOut words).of_core (core_countingLoop loop.plain ends).symm

end Loop

/-- Every `for` in the tokens of a program begins a loop, which ends where no `else` could
go on with it. -/
theorem exists_loop {n n' : NodeId} {before rest : List Token} {t : Token} {ss : List Stmt}
    (program : Tree n (before ++ t :: rest) (.declarations ss) n') (keyword : t.kind = .for) :
    ∃ l after initializer condition increment isOpen body, t :: rest = l.tokens ++ after ∧
      Loop l initializer condition increment isOpen body ∧ (isOpen = true → NoElse after) := by
  have found : Located t before rest (.declarations ss) [] := program.located keyword rfl nofun
  obtain ⟨loop, after, m, m', isOpen, s, rfl, tree, ends, -⟩ := found
  rw [List.append_nil] at ends
  generalize shape : t :: loop = ts at tree
  cases tree with
  -- the statement found starts with for, which leaves one construct
  | @forLoop _ _ opening first initializer _ test condition _ semicolon step increment _ closing
      inner _ body _ _ for_ opens firstTree testTree semi stepTree closes innerTree _ =>
    obtain ⟨rfl, rfl⟩ := List.cons.inj shape
    let l : LoopTokens := ⟨t, opening, first, test, semicolon, step, closing, inner⟩
    exact ⟨l, after, initializer, condition, increment, isOpen, body, rfl,
      ⟨for_, opens, ⟨_, _, firstTree⟩, ⟨_, _, testTree⟩, semi, ⟨_, _, stepTree⟩, closes,
        ⟨_, _, innerTree⟩⟩, ends⟩
  | expressionStatement inner =>
    subst shape
    exact absurd keyword (inner.noFor rfl t List.mem_cons_self)
  | ifThen other | ifElse other | whileLoop other | returns other | breaks other
  | continues other | block other | print other =>
    obtain ⟨rfl, -⟩ := List.cons.inj shape
    rw [keyword] at other
    cases other

end ClassScript.Parsing
