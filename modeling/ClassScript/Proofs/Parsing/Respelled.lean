import ClassScript.Proofs.Parsing.Tree
import ClassScript.Proofs.Syntax.Respelled
import Mathlib.Data.List.Forall2

/-!
# Trees with local names that are spelled otherwise

Where some scopes of a tree are respelled, the tree is that of the tokens with some of the
identifiers respelled (`Tree.respell`). The names in a tree are identifiers of its text
(`Tree.names`), so a word that is none of these is no name in it.
-/

namespace ClassScript.Parsing

open Source Syntax Binding

section Definitions

variable (σ : String → String)

/-- The token, or an identifier that is spelled otherwise. -/
def Respelled (token token' : Token) : Prop :=
  token' = token ∨ token.kind = .identifier ∧ token' = { token with lexeme := σ token.lexeme }

def respellToken (isRespelled : Bool) (token : Token) : Token :=
  { token with lexeme := spelled σ isRespelled token.lexeme }

variable (table : Locals)

def Phrase.respell (flags : Flags) (scheme : Scheme) : Phrase → Phrase
  | primary e => primary (e.respell σ table flags)
  | callRest subject e => callRest (subject.respell σ table flags) (e.respell σ table flags)
  | call e => call (e.respell σ table flags)
  | arguments es => arguments (Expr.respellAll σ table flags es)
  | moreArguments es => moreArguments (Expr.respellAll σ table flags es)
  | unary e => unary (e.respell σ table flags)
  | chainRest level left e =>
    chainRest level (left.respell σ table flags) (e.respell σ table flags)
  | chain level e => chain level (e.respell σ table flags)
  | assignment e => assignment (e.respell σ table flags)
  | optional e => optional (e.map (Expr.respell σ table flags))
  | «variable» s => «variable» (s.respell σ table flags scheme)
  | expressionStatement s => expressionStatement (s.respell σ table flags scheme)
  | initializer s => initializer (s.map (Stmt.respell σ table flags scheme))
  | statement isOpen s => statement isOpen (s.respell σ table flags scheme)
  | declaration s => declaration (s.respell σ table flags scheme)
  | declarations ss => declarations (Stmt.respellAll σ table flags scheme ss)
  | parameters names => parameters (names.map (Name.respell σ (scheme [])))
  | moreParameters names => moreParameters (names.map (Name.respell σ (scheme [])))
  | function d => function (d.respell σ table flags scheme)
  | methods ds => methods (FunctionDecl.respellAll σ table flags scheme ds)
  | superclass o => superclass (o.map (Occurrence.respell σ table flags))

end Definitions

variable {σ : String → String} {table : Locals}

/-- A token of a name may be respelled or left alone. -/
theorem Respelled.token {t : Token} (name : t.kind = .identifier) (isRespelled : Bool) :
    Respelled σ t (respellToken σ isRespelled t) := by
  cases isRespelled with
  | false => exact .inl rfl
  | true => exact .inr ⟨name, rfl⟩

/-- Tokens in a row, with some identifiers spelled otherwise. -/
def RespelledRow (σ : String → String) : List Token → List Token → Prop :=
  List.Forall₂ (Respelled σ)

namespace RespelledRow

variable {ts ts' us us' : List Token} {t t' : Token}

theorem refl (ts : List Token) : RespelledRow σ ts ts :=
  List.forall₂_same.mpr fun _ _ => .inl rfl

theorem keep (t : Token) (rest : RespelledRow σ ts ts') : RespelledRow σ (t :: ts) (t :: ts') :=
  .cons (.inl rfl) rest

theorem name (name : t.kind = .identifier) (isRespelled : Bool) (rest : RespelledRow σ ts ts') :
    RespelledRow σ (t :: ts) (respellToken σ isRespelled t :: ts') :=
  .cons (.token name isRespelled) rest

theorem append (first : RespelledRow σ ts ts') (second : RespelledRow σ us us') :
    RespelledRow σ (ts ++ us) (ts' ++ us') :=
  List.rel_append first second

end RespelledRow

/-! ## The tree of the respelled tokens -/

theorem Phrase.respell_operand (flags : Flags) (scheme : Scheme) (level : Level) (e : Expr) :
    (operand level e).respell σ table flags scheme =
      operand level (e.respell σ table flags) := by
  cases level <;> rfl

/-- A node that joins two operands joins them respelled. -/
theorem Joins.respell {t : Token} {left right node : Expr} {level : Level}
    (joins : Joins t left right level node) (flags : Flags) : Joins t
      (left.respell σ table flags) (right.respell σ table flags) level
        (node.respell σ table flags) := by
  cases joins with
  | logical sign => exact .logical sign
  | binary sign => exact .binary sign

/-- The parts of a counting loop are respelled alike. With an initializer the loop stands in
a block, whose scope has the variable. -/
theorem respell_countingLoop (σ : String → String) (table : Locals) (flags : Flags)
    (scheme : Scheme) (initializer : Option Stmt)
    (condition : Expr) (body : Stmt) (increment : Option Expr) : ∃ around before inside,
      (countingLoop initializer condition body increment).respell σ table flags scheme =
        countingLoop (initializer.map (Stmt.respell σ table around before))
          (condition.respell σ table around) (body.respell σ table around inside)
          (increment.map (Expr.respell σ table around)) := by
  cases initializer with
  | none => exact ⟨flags, scheme, _, rfl⟩
  | some s => exact ⟨_, _, _, rfl⟩

theorem respell_condition (flags : Flags) (condition : Option Expr) :
    (condition.getD (.literal (.bool true))).respell σ table flags =
      (condition.map (Expr.respell σ table flags)).getD (.literal (.bool true)) := by
  cases condition <;> rfl

theorem length_respellAll (flags : Flags) (es : List Expr) :
    (Expr.respellAll σ table flags es).length = es.length := by
  induction es with
  | nil => rfl
  | cons e rest ih => rw [Expr.respellAll, List.length_cons, List.length_cons, ih]

/-- The tokens of a phrase can be respelled so that they are read as the phrase respelled. -/
def Respellable (σ : String → String) (table : Locals) (n : NodeId) (ts : List Token) (p : Phrase)
    (n' : NodeId) (flags : Flags) (scheme : Scheme) : Prop :=
  ∃ ts', RespelledRow σ ts ts' ∧ Tree n ts' (p.respell σ table flags scheme) n'

section Constructs

variable {n n₁ n₂ n₃ n₄ : NodeId} {t opening closing : Token} {ts us vs ws : List Token}
  {flags : Flags} {scheme : Scheme}

/-- With an initializer a counting loop is a block with a scope of its own, in which its
clauses and its body are respelled. -/
theorem respell_forLoop {initializer : Option Stmt} {condition increment : Option Expr}
    {isOpen : Bool} {body s : Stmt} {semicolon : Token} (keyword : t.kind = .for)
    (opens : opening.kind = .leftParen)
    (first : ∀ flags scheme, Respellable σ table n ts (.initializer initializer) n₁ flags scheme)
    (test : ∀ flags scheme, Respellable σ table n₁ us (.optional condition) n₂ flags scheme)
    (ends : semicolon.kind = .semicolon)
    (step : ∀ flags scheme, Respellable σ table n₂ vs (.optional increment) n₃ flags scheme)
    (closes : closing.kind = .rightParen)
    (inner : ∀ flags scheme, Respellable σ table n₃ ws (.statement isOpen body) n₄ flags scheme)
    (counts : Counts condition increment body initializer s) :
    Respellable σ table n (t :: opening :: ts ++ us ++ semicolon :: vs ++ closing :: ws)
      (.statement isOpen s) n₄ flags scheme := by
  obtain rfl := counts_iff.mp counts
  obtain ⟨around, before, inside, same⟩ := respell_countingLoop σ table
    flags scheme initializer (condition.getD (.literal (.bool true))) body increment
  -- an initializer opens a scope around the loop, which every clause is read in
  obtain ⟨ts', row, first'⟩ := first around before
  obtain ⟨us', row₁, test'⟩ := test around scheme
  obtain ⟨vs', row₂, step'⟩ := step around scheme
  obtain ⟨ws', row₃, inner'⟩ := inner around inside
  rw [Respellable, Phrase.respell, same, respell_condition]
  exact ⟨_, ((((row.keep _).keep _).append row₁).append (row₂.keep _)).append (row₃.keep _),
    .forLoop keyword opens first' test' ends step' closes inner' (counts_iff.mpr rfl)⟩

/-- The methods of a class stand in its scope for `this`, and those of a subclass also in the
one for `super`; neither is respelled. -/
theorem respell_classDecl {superclass : Option Occurrence} {body : List FunctionDecl} {name : Token}
    (keyword : t.kind = .classWord) (named : name.kind = .identifier)
    (parent : Respellable σ table n ts (.superclass superclass) n₁ flags scheme)
    (opens : opening.kind = .leftBrace)
    (inner : ∀ flags, Respellable σ table n₁ us (.methods body) n₂ flags scheme)
    (closes : closing.kind = .rightBrace) :
    Respellable σ table n (t :: name :: ts ++ opening :: us ++ [closing])
      (.declaration (.classDecl name.asName superclass body)) n₂ flags scheme := by
  obtain ⟨ts', row, parent'⟩ := parent
  cases superclass with
  | none =>
    -- the scope of this, and below that of super as well, is never respelled
    obtain ⟨us', row', inner'⟩ := inner (false :: flags)
    exact ⟨_, (((row.keep _).keep _).append (row'.keep _)).append (.refl _),
      .classDecl keyword named parent' opens inner' closes⟩
  | some o =>
    obtain ⟨us', row', inner'⟩ := inner (false :: false :: flags)
    exact ⟨_, (((row.keep _).keep _).append (row'.keep _)).append (.refl _),
      .classDecl keyword named parent' opens inner' closes⟩

end Constructs

/-- The tree with some scopes respelled is that of the tokens with identifiers respelled. -/
theorem Tree.respell {n n' : NodeId} {ts : List Token} {p : Phrase} (tree : Tree n ts p n')
    (flags : Flags) (scheme : Scheme) : Respellable σ table n ts p n' flags scheme := by
  induction tree generalizing flags scheme with
  -- expressions, where all parts stand in the same scopes
  | literal constant => exact ⟨_, .refl _, .literal constant⟩
  | this keyword => exact ⟨_, .refl _, .this keyword⟩
  | super keyword separator name => exact ⟨_, .refl _, .super keyword separator name⟩
  | identifier name => exact ⟨_, .name name _ (.refl []), .identifier name⟩
  | group opens inner closes ih =>
    obtain ⟨ts', row, inner'⟩ := ih flags scheme
    exact ⟨_, (row.keep _).append (.refl _), .group opens inner' closes⟩
  | uncalled => exact ⟨_, .refl _, .uncalled⟩
  | called opens arguments closes rest ih ih' =>
    obtain ⟨ts', row, arguments'⟩ := ih flags scheme
    obtain ⟨us', row', rest'⟩ := ih' flags scheme
    exact ⟨_, (row.keep _).append (row'.keep _), .called opens arguments' closes rest'⟩
  | property separator name rest ih =>
    obtain ⟨us', row, rest'⟩ := ih flags scheme
    exact ⟨_, (row.keep _).keep _, .property separator name rest'⟩
  | call first rest ih ih' =>
    obtain ⟨ts', row, first'⟩ := ih flags scheme
    obtain ⟨us', row', rest'⟩ := ih' flags scheme
    exact ⟨_, row.append row', .call first' rest'⟩
  | noArguments => exact ⟨_, .refl _, .noArguments⟩
  | arguments first more few ih ih' =>
    obtain ⟨ts', row, first'⟩ := ih flags scheme
    obtain ⟨us', row', more'⟩ := ih' flags scheme
    exact ⟨_, row.append row', .arguments first' more' (by rwa [length_respellAll])⟩
  | noMoreArguments => exact ⟨_, .refl _, .noMoreArguments⟩
  | moreArguments separator first more ih ih' =>
    obtain ⟨ts', row, first'⟩ := ih flags scheme
    obtain ⟨us', row', more'⟩ := ih' flags scheme
    exact ⟨_, (row.keep _).append row', .moreArguments separator first' more'⟩
  | operated sign operand ih =>
    obtain ⟨ts', row, operand'⟩ := ih flags scheme
    exact ⟨_, row.keep _, .operated sign operand'⟩
  | unary call ih =>
    obtain ⟨ts', row, call'⟩ := ih flags scheme
    exact ⟨_, row, .unary call'⟩
  | unjoined => exact ⟨_, .refl _, .unjoined⟩
  | joined joins operand rest ih ih' =>
    obtain ⟨ts', row, operand'⟩ := ih flags scheme
    obtain ⟨us', row', rest'⟩ := ih' flags scheme
    rw [Phrase.respell_operand] at operand'
    exact ⟨_, (row.keep _).append row', .joined (joins.respell flags) operand' rest'⟩
  | chain first rest ih ih' =>
    obtain ⟨ts', row, first'⟩ := ih flags scheme
    obtain ⟨us', row', rest'⟩ := ih' flags scheme
    rw [Phrase.respell_operand] at first'
    exact ⟨_, row.append row', .chain first' rest'⟩
  | unassigned chain ih =>
    obtain ⟨ts', row, chain'⟩ := ih flags scheme
    exact ⟨_, row, .unassigned chain'⟩
  | assigned name sign value ih =>
    obtain ⟨ts', row, value'⟩ := ih flags scheme
    exact ⟨_, .name name _ (row.keep _), .assigned name sign value'⟩
  | set owner separator name sign value ih ih' =>
    obtain ⟨ts', row, owner'⟩ := ih flags scheme
    obtain ⟨us', row', value'⟩ := ih' flags scheme
    exact ⟨_, row.append (((row'.keep _).keep _).keep _), .set owner' separator name sign value'⟩
  | leftOut => exact ⟨_, .refl _, .leftOut⟩
  | given given ih =>
    obtain ⟨ts', row, given'⟩ := ih flags scheme
    exact ⟨_, row, .given given'⟩
  -- statements, where a block opens a scope and a branch is a part by itself
  | uninitialized name ends => exact ⟨_, .name name _ (.refl _), .uninitialized name ends⟩
  | initialized name sign value ends ih =>
    obtain ⟨ts', row, value'⟩ := ih flags scheme
    exact ⟨_, .append (.name name _ (row.keep _)) (.refl _), .initialized name sign value' ends⟩
  | expression inner ends ih =>
    obtain ⟨ts', row, inner'⟩ := ih flags scheme
    exact ⟨_, row.append (.refl _), .expression inner' ends⟩
  | noInitializer ends => exact ⟨_, .refl _, .noInitializer ends⟩
  | variableInitializer keyword declared ih =>
    obtain ⟨ts', row, declared'⟩ := ih flags scheme
    exact ⟨_, row.keep _, .variableInitializer keyword declared'⟩
  | expressionInitializer inner ih =>
    obtain ⟨ts', row, inner'⟩ := ih flags scheme
    exact ⟨_, row, .expressionInitializer inner'⟩
  | expressionStatement inner ih =>
    obtain ⟨ts', row, inner'⟩ := ih flags scheme
    exact ⟨_, row, .expressionStatement inner'⟩
  | forLoop keyword opens _ _ ends _ closes _ counts first test step inner =>
    exact respell_forLoop keyword opens first test ends step closes inner counts
  | ifThen keyword opens test closes branch ih ih' =>
    obtain ⟨ts', row, test'⟩ := ih flags scheme
    obtain ⟨us', row', branch'⟩ := ih' flags (scheme.part 0)
    exact ⟨_, ((row.keep _).keep _).append (row'.keep _),
      .ifThen keyword opens test' closes branch'⟩
  | ifElse keyword opens test closes first otherwise second ih ih₁ ih₂ =>
    obtain ⟨ts', row, test'⟩ := ih flags scheme
    obtain ⟨us', row₁, first'⟩ := ih₁ flags (scheme.part 0)
    obtain ⟨vs', row₂, second'⟩ := ih₂ flags (scheme.part 1)
    exact ⟨_, (((row.keep _).keep _).append (row₁.keep _)).append (row₂.keep _),
      .ifElse keyword opens test' closes first' otherwise second'⟩
  | whileLoop keyword opens test closes inner ih ih' =>
    obtain ⟨ts', row, test'⟩ := ih flags scheme
    obtain ⟨us', row', inner'⟩ := ih' flags (scheme.part 0)
    exact ⟨_, ((row.keep _).keep _).append (row'.keep _),
      .whileLoop keyword opens test' closes inner'⟩
  | returns keyword value ends ih =>
    obtain ⟨ts', row, value'⟩ := ih flags scheme
    exact ⟨_, (row.keep _).append (.refl _), .returns keyword value' ends⟩
  | breaks keyword ends => exact ⟨_, .refl _, .breaks keyword ends⟩
  | continues keyword ends => exact ⟨_, .refl _, .continues keyword ends⟩
  | block opens inner closes ih =>
    obtain ⟨ts', row, inner'⟩ := ih (scheme [] :: flags) (scheme.part 0)
    exact ⟨_, (row.keep _).append (.refl _), .block opens inner' closes⟩
  | print keyword value ends ih =>
    obtain ⟨ts', row, value'⟩ := ih flags scheme
    exact ⟨_, (row.keep _).append (.refl _), .print keyword value' ends⟩
  -- declarations, where a function opens a scope for its parameters and its body
  | classDecl keyword named _ opens _ closes parent inner =>
    exact respell_classDecl keyword named (parent flags scheme) opens (inner · scheme) closes
  | funDecl keyword declared ih =>
    obtain ⟨ts', row, declared'⟩ := ih flags scheme
    exact ⟨_, row.keep _, .funDecl keyword declared'⟩
  | varDecl keyword declared ih =>
    obtain ⟨ts', row, declared'⟩ := ih flags scheme
    exact ⟨_, row.keep _, .varDecl keyword declared'⟩
  | statement inner ih =>
    obtain ⟨ts', row, inner'⟩ := ih flags scheme
    exact ⟨_, row, .statement inner'⟩
  | noDeclarations => exact ⟨_, .refl _, .noDeclarations⟩
  | declarations first rest ih ih' =>
    obtain ⟨ts', row, first'⟩ := ih flags (scheme.part 0)
    obtain ⟨us', row', rest'⟩ := ih' flags (scheme.part 1)
    exact ⟨_, row.append row', .declarations first' rest'⟩
  | noSuperclass => exact ⟨_, .refl _, .noSuperclass⟩
  | superclass sign name =>
    exact ⟨_, .keep _ (.name name _ (.refl [])), .superclass sign name⟩
  | noMethods => exact ⟨_, .refl _, .noMethods⟩
  | methods first rest ih ih' =>
    obtain ⟨ts', row, first'⟩ := ih flags (scheme.part 0)
    obtain ⟨us', row', rest'⟩ := ih' flags (scheme.part 1)
    exact ⟨_, row.append row', .methods first' rest'⟩
  | function name opens list closes begins inner ends ih ih' =>
    obtain ⟨ts', row, list'⟩ := ih flags scheme
    obtain ⟨us', row', inner'⟩ := ih' (scheme [] :: flags) (scheme.part 0)
    exact ⟨_, (((row.keep _).keep _).append ((row'.keep _).keep _)).append (.refl _),
      .function name opens list' closes begins inner' ends⟩
  | noParameters => exact ⟨_, .refl _, .noParameters⟩
  | parameters name more few ih =>
    obtain ⟨ts', row, more'⟩ := ih flags scheme
    exact ⟨_, .name name _ row, .parameters name more' (by rwa [List.length_map])⟩
  | noMoreParameters => exact ⟨_, .refl _, .noMoreParameters⟩
  | moreParameters separator name more ih =>
    obtain ⟨ts', row, more'⟩ := ih flags scheme
    exact ⟨_, .keep _ (.name name _ row), .moreParameters separator name more'⟩

/-! ## The names in a tree -/

/-- The names in what a phrase is read as. -/
def Phrase.names : Phrase → List String
  | primary e | call e | unary e | assignment e => e.names
  | callRest _ e | chainRest _ _ e | chain _ e => e.names
  | arguments es | moreArguments es => Expr.namesOfAll es
  | optional e => Expr.namesOf? e
  | «variable» s | expressionStatement s | statement _ s | declaration s => s.names
  | initializer s => (s.map Stmt.names).getD []
  | declarations ss => Stmt.namesOfAll ss
  | parameters names | moreParameters names => names.map Name.text
  | function d => d.names
  | methods ds => FunctionDecl.namesOfAll ds
  | superclass o => (o.map fun o => o.name.text).toList

/-- The names in what stands before the tokens of a phrase. -/
def Phrase.namesBefore : Phrase → List String
  | callRest subject _ => subject.names
  | chainRest _ left _ => left.names
  | _ => []

theorem Phrase.names_operand (level : Level) (e : Expr) : (operand level e).names = e.names := by
  cases level <;> rfl

theorem Phrase.namesBefore_operand (level : Level) (e : Expr) :
    (operand level e).namesBefore = [] := by
  cases level <;> rfl

theorem Joins.names {t : Token} {left right node : Expr} {level : Level}
    (joins : Joins t left right level node) : node.names = left.names ++ right.names := by
  cases joins <;> rfl

theorem names_condition (condition : Option Expr) :
    (condition.getD (.literal (.bool true))).names = Expr.namesOf? condition := by
  cases condition <;> rfl

/-- The loop that a loop with clauses stands for has their names, in the order of the tree. -/
theorem names_countingLoop (initializer : Option Stmt) (condition : Expr) (body : Stmt)
    (increment : Option Expr) : (countingLoop initializer condition body increment).names =
      (initializer.map Stmt.names).getD [] ++
        (condition.names ++ (body.names ++ Expr.namesOf? increment)) := by
  cases initializer with
  | none => rfl
  | some s => simp [countingLoop, Stmt.names, Stmt.namesOfAll]

/-- The names in what tokens are read as are identifiers among them, or stood before them. -/
theorem Tree.names {n n' : NodeId} {ts : List Token} {p : Phrase} (tree : Tree n ts p n') :
    ∀ name ∈ p.names, name ∈ p.namesBefore ∨ ∃ t ∈ ts, t.kind = .identifier ∧ t.lexeme = name := by
  induction tree with
  -- an operator adds no name, and the parts have theirs by induction
  | joined joins _ _ ih =>
    rw [Phrase.names_operand, Phrase.namesBefore_operand] at ih
    simp only [Phrase.names, Phrase.namesBefore, joins.names] at *
    grind
  | chain _ _ ih =>
    rw [Phrase.names_operand, Phrase.namesBefore_operand] at ih
    simp only [Phrase.names, Phrase.namesBefore] at *
    grind
  | forLoop _ _ _ _ _ _ _ _ counts first test step inner =>
    obtain rfl := counts_iff.mp counts
    simp only [Phrase.names, Phrase.namesBefore, names_countingLoop, names_condition,
      List.mem_append, List.not_mem_nil, false_or] at *
    intro name inside
    -- a name of the loop comes from one of its four parts
    rcases inside with here | here | here | here
    · obtain ⟨t, among, word⟩ := first name here
      exact ⟨t, by simp [among], word⟩
    · obtain ⟨t, among, word⟩ := test name here
      exact ⟨t, by simp [among], word⟩
    · obtain ⟨t, among, word⟩ := inner name here
      exact ⟨t, by simp [among], word⟩
    · obtain ⟨t, among, word⟩ := step name here
      exact ⟨t, by simp [among], word⟩
  | @classDecl _ _ _ _ superclass =>
    cases superclass <;> simp only [Phrase.names, Phrase.namesBefore, Stmt.names] at * <;>
      grind [Token.asName]
  | _ =>
    simp only [Phrase.names, Phrase.namesBefore, Expr.names, Expr.namesOfAll, Expr.namesOf?,
      Stmt.names, Stmt.namesOfAll, FunctionDecl.names, FunctionDecl.namesOfAll] at *
    grind [Token.asName]

end ClassScript.Parsing
