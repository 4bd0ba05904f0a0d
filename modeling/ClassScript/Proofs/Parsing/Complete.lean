import ClassScript.Parsing.Reader
import ClassScript.Proofs.Parsing.Tree

/-!
# Every tree is found

The parser reads the tokens of a tree and gives the tree, whatever stands behind them
that does not go on with it (`Tree.read`, `Tree.readStatement`, by induction on trees).
No call goes deeper than the fuel: what a construct may call before it has taken a token
is bounded by a number for each construct, and every token pays for 32 calls.
-/

namespace ClassScript.Parsing

open Source Syntax

/-- From the tokens and the identity on, the parser gives the value and leaves the other
tokens and identity. It adds no error. -/
def Gives {α : Type} (p : Parser α) (tokens : List Token) (n : Nat) (a : α)
    (rest : List Token) (n' : Nat) : Prop :=
  ∀ line errors, p ⟨tokens, line, errors, n⟩ = .ok a ⟨rest, line, errors, n'⟩

namespace Gives

variable {α β : Type} {n n₁ n' : Nat} {t : Token} {tokens middle rest : List Token}

theorem pure (a : α) : Gives (pure a) tokens n a tokens n := fun _ _ => rfl

/-- Two parsers one after the other give what the second gives on what the first leaves. -/
theorem bind {p : Parser α} {q : α → Parser β} {a : α} {b : β}
    (first : Gives p tokens n a middle n₁) (second : Gives (q a) middle n₁ b rest n') :
    Gives (p >>= q) tokens n b rest n' := by
  intro line errors
  show EStateM.bind p q _ = _
  rw [EStateM.bind, first line errors]
  exact second line errors

/-- A parser that gives a tree needs no recovery: the guarded parser gives the same tree. -/
theorem recovering {p : Parser α} {a : α} (h : Gives p tokens n a rest n') :
    Gives (recovering p) tokens n (some a) rest n' := by
  intro line errors
  rw [Parsing.recovering, h line errors]

theorem accept {kind : Kind} (same : t.kind = kind) :
    Gives (accept? kind) (t :: rest) n (some t) rest n := by
  intro line errors
  simp [accept?, same]

/-- Where the next token is of another kind, an optional token is not taken. -/
theorem refuse {kind : Kind} (other : ∀ t ∈ tokens.head?, t.kind ≠ kind) :
    Gives (accept? kind) tokens n none tokens n := by
  intro line errors
  cases tokens with
  | nil => rfl
  | cons t rest => simp [accept?, other t rfl]

/-- A token of one kind is not accepted as one of another kind. -/
theorem pass {kind own : Kind} (same : t.kind = own) (other : own ≠ kind) :
    Gives (accept? kind) (t :: rest) n none (t :: rest) n :=
  refuse fun _ first => by
    cases first
    rwa [same]

theorem expect {kind : Kind} (cause : SyntaxCause) (same : t.kind = kind) :
    Gives (expect kind cause) (t :: rest) n t rest n := by
  intro line errors
  simp [Parsing.expect, same]

theorem expectName (cause : SyntaxCause) (name : t.kind = .identifier) :
    Gives (expectName cause) (t :: rest) n t.asName rest n :=
  (expect cause name).bind (.pure _)

theorem next {kind : Kind} (same : t.kind = kind) :
    Gives (next kind) (t :: rest) n true (t :: rest) n := by
  intro line errors
  simp [Parsing.next, same]

theorem notNext {kind : Kind} (other : ∀ t ∈ tokens.head?, t.kind ≠ kind) :
    Gives (Parsing.next kind) tokens n false tokens n := by
  intro line errors
  cases tokens with
  | nil => rfl
  | cons t rest => simp [Parsing.next, other t rfl]

theorem atEnd : Gives atEnd tokens n tokens.isEmpty tokens n := fun _ _ => rfl

theorem freshId : Gives freshId tokens n n tokens (n + 1) := fun _ _ => rfl

theorem occurrence (name : Name) : Gives (occurrence name) tokens n ⟨n, name⟩ tokens (n + 1) :=
  freshId.bind (.pure _)

theorem acceptLiteral {value : Literal} (constant : t.Denotes value) :
    Gives acceptLiteral? (t :: rest) n (some value) rest n := by
  intro line errors
  simp [acceptLiteral?, literal?_iff.mpr constant]

theorem refuseLiteral (other : literal? t = none) :
    Gives acceptLiteral? (t :: rest) n none (t :: rest) n := by
  intro line errors
  simp [acceptLiteral?, other]

theorem acceptPrefix {op : UnaryOp} (sign : t.kind = op.kind) :
    Gives acceptPrefix? (t :: rest) n (some (op, t)) rest n := by
  intro line errors
  simp [acceptPrefix?, prefixOp?_iff.mpr sign.symm]

theorem refusePrefix (other : prefixOp? t.kind = none) :
    Gives acceptPrefix? (t :: rest) n none (t :: rest) n := by
  intro line errors
  simp [acceptPrefix?, other]

theorem acceptInfix {level : Level} {op : InfixOp}
    (operator : infixOp? t.kind = some (level, op)) :
    Gives (acceptInfix? level) (t :: rest) n (some (op, t)) rest n := by
  intro line errors
  simp [acceptInfix?, operator]

/-- Where the next token is no operator of the level, a chain of that level ends. -/
theorem refuseInfix {level : Level}
    (other : ∀ t ∈ tokens.head?, ∀ op, infixOp? t.kind ≠ some (level, op)) :
    Gives (acceptInfix? level) tokens n none tokens n := by
  intro line errors
  cases tokens with
  | nil => rfl
  | cons t rest =>
    unfold acceptInfix?
    dsimp only
    cases operator : infixOp? t.kind with
    | none => rfl
    | some found =>
      obtain ⟨own, op⟩ := found
      have differs : own ≠ level := by
        rintro rfl
        exact other t rfl op operator
      simp [differs]

end Gives

/-! ## What ends an expression -/

/-- How tight a level binds. -/
def Level.rank : Level → Nat
  | .or => 0
  | .and => 1
  | .equality => 2
  | .comparison => 3
  | .term => 4
  | .factor => 5

/-- The next token is no call, no property access and no operator of the rank or a
tighter one. -/
def Stops (rank : Nat) (rest : List Token) : Prop :=
  ∀ t ∈ rest.head?, t.kind ≠ .leftParen ∧ t.kind ≠ .dot ∧
    ∀ level op, infixOp? t.kind = some (level, op) → level.rank < rank

/-- Tokens on which the looser levels stop are tokens on which fewer of them stop too. -/
theorem Stops.mono {rank rank' : Nat} {rest : List Token} (h : Stops rank rest)
    (le : rank ≤ rank') : Stops rank' rest := fun t first =>
  ⟨(h t first).1, (h t first).2.1, fun level op operator =>
    Nat.lt_of_lt_of_le ((h t first).2.2 level op operator) le⟩

/-- Behind an operand of a level, an operator of the level may follow. -/
theorem stops_of_operator {t : Token} {rest : List Token} {level : Level} {op : InfixOp}
    (operator : infixOp? t.kind = some (level, op)) : Stops (level.rank + 1) (t :: rest) := by
  rintro _ ⟨⟩
  refine ⟨?_, ?_, ?_⟩
  · intro same
    rw [same] at operator
    cases operator
  · intro same
    rw [same] at operator
    cases operator
  · intro level' op' operator'
    rw [operator] at operator'
    cases operator'
    exact Nat.lt_succ_self _

/-- The tokens that end an expression wherever it stands. -/
def closers : List Kind := [.rightParen, .semicolon, .comma]

/-- The next token ends an expression, or there is none. -/
def Closes (rest : List Token) : Prop := ∀ t ∈ rest.head?, t.kind ∈ closers

theorem closes_cons {t : Token} {rest : List Token} {kind : Kind} (same : t.kind = kind)
    (closes : kind ∈ closers) : Closes (t :: rest) := by
  rintro _ ⟨⟩
  rwa [same]

/-- No token that can close an expression continues one: it is neither an operator, nor an
opening parenthesis, a dot or an equals sign. -/
theorem not_operator_of_closers {kind : Kind} (closes : kind ∈ closers) :
    infixOp? kind = none ∧ kind ≠ .leftParen ∧ kind ≠ .dot ∧ kind ≠ .equal := by
  have all : ∀ kind ∈ closers,
      infixOp? kind = none ∧ kind ≠ .leftParen ∧ kind ≠ .dot ∧ kind ≠ .equal := by decide
  exact all kind closes

/-- A closing token stops a chain of any level. -/
theorem Closes.stops {rest : List Token} (h : Closes rest) : Stops 0 rest := by
  intro t first
  obtain ⟨operator, call, property, -⟩ := not_operator_of_closers (h t first)
  refine ⟨call, property, fun level op found => ?_⟩
  rw [operator] at found
  cases found

theorem stops_of_equal {t : Token} {rest : List Token} (sign : t.kind = .equal) :
    Stops 0 (t :: rest) := by
  rintro _ ⟨⟩
  rw [sign]
  exact ⟨nofun, nofun, nofun⟩

/-- The next token closes a list. -/
def ClosesList (rest : List Token) : Prop := ∃ t more, rest = t :: more ∧ t.kind = .rightParen

theorem ClosesList.closes {rest : List Token} (h : ClosesList rest) : Closes rest := by
  obtain ⟨t, more, rfl, same⟩ := h
  exact closes_cons same (by decide)

/-- What closes a list is not one more comma. -/
theorem ClosesList.not_comma {rest : List Token} (h : ClosesList rest) :
    ∀ t ∈ rest.head?, t.kind ≠ .comma := by
  obtain ⟨t, more, rfl, same⟩ := h
  rintro _ ⟨⟩
  rw [same]
  nofun

/-! ## Expressions -/

/-- How deep the parser of a level goes before it has taken a token. -/
def Level.depth (level : Level) : Nat := 14 - 2 * level.rank

/-- How the parsers read the tokens of a phrase of expressions, up to what stands behind
them. Behind a call the parser goes on with what has been made so far. -/
def Phrase.Read (ts rest : List Token) (n n' : Nat) : Phrase → Prop
  | .primary e => ∀ fuel, 32 * ts.length + 1 ≤ fuel →
    Gives (Parsing.primary fuel) (ts ++ rest) n e rest n'
  | .callRest subject e => ∀ amount a last n₂,
    (∀ fuel, amount ≤ fuel → Gives (accessRest fuel e) rest n' a last n₂) →
      ∀ fuel, 32 * ts.length + amount ≤ fuel →
        Gives (accessRest fuel subject) (ts ++ rest) n a last n₂
  | .call e => ∀ amount a last n₂,
    (∀ fuel, amount ≤ fuel → Gives (accessRest fuel e) rest n' a last n₂) →
      ∀ fuel, 32 * ts.length + amount + 1 ≤ fuel →
        Gives (Parsing.primary fuel >>= fun e => accessRest fuel e) (ts ++ rest) n a last n₂
  | .unary e => Stops 6 rest → ∀ fuel, 32 * ts.length + 3 ≤ fuel →
    Gives (Parsing.unary fuel) (ts ++ rest) n e rest n'
  | .chainRest level left e => Stops level.rank rest → ∀ fuel, 32 * ts.length + 1 ≤ fuel →
    Gives (infixRest fuel level left) (ts ++ rest) n e rest n'
  | .chain level e => Stops level.rank rest → ∀ fuel, 32 * ts.length + level.depth + 1 ≤ fuel →
    Gives (infixChain fuel level) (ts ++ rest) n e rest n'
  | .assignment e => Closes rest → ∀ fuel, 32 * ts.length + 16 ≤ fuel →
    Gives (Parsing.assignment fuel) (ts ++ rest) n e rest n'
  | .arguments es => ClosesList rest → ∀ fuel, 32 * ts.length + 18 ≤ fuel →
    Gives (argumentList fuel) (ts ++ rest) n es rest n'
  | .moreArguments es => ClosesList rest → ∀ done, done.length + es.length ≤ listLimit →
    ∀ fuel, 32 * ts.length ≤ fuel →
      Gives (accept? .comma >>= fun comma =>
        match comma with
        | some _ => Parsing.arguments fuel done
        | none => pure done.reverse) (ts ++ rest) n (done.reverse ++ es) rest n'
  | _ => True

/-! With one more fuel a rule is its body, by computation. So the lemmas on the rules follow
the bodies, parser by parser. -/

section Steps

variable {n n₁ n' fuel : Nat} {t : Token} {tokens middle rest : List Token} {e : Expr}
  {level : Level}

theorem exists_succ {amount fuel : Nat} (enough : amount + 1 ≤ fuel) :
    ∃ less, fuel = less + 1 ∧ amount ≤ less := ⟨fuel - 1, by omega, by omega⟩

theorem exists_less {fuel : Nat} (some : 0 < fuel) : ∃ less, fuel = less + 1 :=
  Nat.exists_eq_add_one.mpr some

/-- No call and no property access follows. -/
theorem gives_accessRest_stop (stops : Stops 6 rest) (some : 1 ≤ fuel) :
    Gives (accessRest fuel e) rest n e rest n := by
  obtain ⟨fuel, rfl, -⟩ := exists_succ some
  refine (Gives.refuse fun t first => (stops t first).1).bind ?_
  exact (Gives.refuse fun t first => (stops t first).2.1).bind (.pure e)

/-- No operator of the level follows. -/
theorem gives_infixRest_stop (stops : Stops level.rank rest) (some : 1 ≤ fuel) :
    Gives (infixRest fuel level e) rest n e rest n := by
  obtain ⟨fuel, rfl, -⟩ := exists_succ some
  refine (Gives.refuseInfix fun t first op operator => ?_).bind (.pure e)
  exact absurd ((stops t first).2.2 level op operator) (Nat.lt_irrefl _)

theorem rank_tighter {tighter : Level} (next : level.tighter? = some tighter) :
    tighter.rank = level.rank + 1 ∧ tighter.rank ≤ 5 := by
  cases level <;> cases next <;> exact ⟨rfl, by decide⟩

theorem rank_tightest (next : level.tighter? = none) : level.rank = 5 := by
  cases level <;> first | rfl | cases next

/-- An operand is read as the phrase that it is. -/
theorem gives_operand {ts : List Token} (read : (Phrase.operand level e).Read ts rest n n')
    (stops : Stops (level.rank + 1) rest) (enough : 32 * ts.length + level.depth ≤ fuel) :
    Gives (operand fuel level) (ts ++ rest) n e rest n' := by
  rw [Phrase.operand_eq] at read
  unfold Level.depth at enough
  cases next : level.tighter? with
  -- behind the tightest operators stands a unary expression, otherwise a chain of the next level
  | none =>
    have rank := rank_tightest next
    have deep : 32 * ts.length + 3 + 1 ≤ fuel := by omega
    obtain ⟨fuel, rfl, less⟩ := exists_succ deep
    rw [operand, next]
    rw [next] at read
    rw [rank] at stops
    exact read stops fuel less
  | some tighter =>
    obtain ⟨rank, bound⟩ := rank_tighter next
    have deep : 32 * ts.length + (13 - 2 * level.rank) + 1 ≤ fuel := by omega
    obtain ⟨fuel, rfl, less⟩ := exists_succ deep
    rw [operand, next]
    rw [next] at read
    rw [← rank] at stops
    refine read stops fuel ?_
    unfold Level.depth
    omega

/-- An operand without operators behind it is a chain of every level. -/
theorem gives_chain (amount : Nat) {depth : Nat}
    (unary : ∀ fuel, amount + 3 ≤ fuel → Gives (unary fuel) tokens n e rest n')
    (deep : depth = 5 - level.rank) (stops : Stops level.rank rest)
    (enough : amount + level.depth + 1 ≤ fuel) :
    Gives (infixChain fuel level) tokens n e rest n' := by
  -- by induction on the levels below this one: an expression without operators passes through all
  -- of them
  induction depth generalizing level fuel with
  | zero =>
    have tightest : level = .factor := by cases level <;> first | rfl | cases deep
    subst tightest
    obtain ⟨fuel, rfl, deeper⟩ := exists_succ enough
    change amount + 3 + 1 ≤ fuel at deeper
    obtain ⟨fuel, rfl, less⟩ := exists_succ deeper
    rw [infixChain, operand]
    exact (unary fuel less).bind (gives_infixRest_stop stops (by omega))
  | succ depth ih =>
    obtain ⟨tighter, next⟩ : ∃ tighter, level.tighter? = some tighter := by
      cases level <;> first | exact ⟨_, rfl⟩ | cases deep
    obtain ⟨rank, bound⟩ := rank_tighter next
    unfold Level.depth at ih enough
    obtain ⟨fuel, rfl, -⟩ := exists_succ enough
    have deeper : amount + (13 - 2 * level.rank) + 1 ≤ fuel := by omega
    obtain ⟨fuel, rfl, less⟩ := exists_succ deeper
    rw [infixChain, operand, next]
    have inner : Gives (infixChain fuel tighter) tokens n e rest n' :=
      ih (by omega) (stops.mono (by omega)) (by omega)
    exact inner.bind (gives_infixRest_stop stops (by omega))

theorem literal_none {t : Token} {kind : Kind} (same : t.kind = kind)
    (other : kind ∉ [.false, .true, .nil, .number, .string]) : literal? t = none := by
  unfold literal?
  rw [same]
  cases kind <;> first | rfl | exact absurd (by decide) other

/-- A token of a constant gives the node of that constant. -/
theorem gives_literal {value : Literal} (constant : t.Denotes value)
    (some : 1 ≤ fuel) : Gives (primary fuel) (t :: rest) n (.literal value) rest n := by
  obtain ⟨fuel, rfl, -⟩ := exists_succ some
  exact (Gives.acceptLiteral constant).bind (.pure _)

/-- `this` draws an identity and keeps the line of its token. -/
theorem gives_this (keyword : t.kind = .this) (some : 1 ≤ fuel) :
    Gives (primary fuel) (t :: rest) n (.this n t.line) rest (n + 1) := by
  obtain ⟨fuel, rfl, -⟩ := exists_succ some
  refine (Gives.refuseLiteral (literal_none keyword (by decide))).bind ?_
  exact (Gives.accept keyword).bind (Gives.freshId.bind (.pure _))

/-- `super`, the dot and the name of the method: the identity is drawn for `super` alone. -/
theorem gives_super {dot method : Token} (keyword : t.kind = .super) (separator : dot.kind = .dot)
    (name : method.kind = .identifier) (some : 1 ≤ fuel) :
    Gives (primary fuel) (t :: dot :: method :: rest) n
      (.super n t.line method.asName) rest (n + 1) := by
  obtain ⟨fuel, rfl, -⟩ := exists_succ some
  refine (Gives.refuseLiteral (literal_none keyword (by decide))).bind ?_
  refine (Gives.pass keyword (by decide)).bind ?_
  refine (Gives.accept keyword).bind ?_
  refine (Gives.expect _ separator).bind ?_
  exact (Gives.expectName _ name).bind (Gives.freshId.bind (.pure _))

/-- A name read as an expression is a new occurrence of it. -/
theorem gives_identifier (name : t.kind = .identifier) (some : 1 ≤ fuel) :
    Gives (primary fuel) (t :: rest) n (.variable ⟨n, t.asName⟩) rest (n + 1) := by
  obtain ⟨fuel, rfl, -⟩ := exists_succ some
  refine (Gives.refuseLiteral (literal_none name (by decide))).bind ?_
  refine (Gives.pass name (by decide)).bind ?_
  refine (Gives.pass name (by decide)).bind ?_
  exact (Gives.accept name).bind ((Gives.occurrence _).bind (.pure _))

/-- A parenthesised expression, from the expression within. -/
theorem gives_group {closing : Token} (opens : t.kind = .leftParen)
    (inner : Gives (assignment fuel) tokens n e (closing :: rest) n')
    (closes : closing.kind = .rightParen) :
    Gives (primary (fuel + 1)) (t :: tokens) n (.group e) rest n' := by
  refine (Gives.refuseLiteral (literal_none opens (by decide))).bind ?_
  refine (Gives.pass opens (by decide)).bind ?_
  refine (Gives.pass opens (by decide)).bind ?_
  refine (Gives.pass opens (by decide)).bind ?_
  refine (Gives.accept opens).bind ?_
  exact inner.bind ((Gives.expect _ closes).bind (.pure _))

/-- A call with its arguments, continued by what follows it; the node keeps the line of the
closing parenthesis. -/
theorem gives_called {es : List Expr} {opening closing : Token} {a : Expr}
    (opens : opening.kind = .leftParen)
    (list : Gives (argumentList fuel) tokens n es (closing :: middle) n₁)
    (closes : closing.kind = .rightParen)
    (more : Gives (accessRest fuel (.call e closing.line es)) middle n₁ a rest n') :
    Gives (accessRest (fuel + 1) e) (opening :: tokens) n a rest n' :=
  (Gives.accept opens).bind (list.bind ((Gives.expect _ closes).bind more))

/-- A property read, continued by what follows it. -/
theorem gives_property {dot : Token} {a : Expr} (separator : dot.kind = .dot)
    (name : t.kind = .identifier)
    (more : Gives (accessRest fuel (.get e t.asName)) middle n a rest n') :
    Gives (accessRest (fuel + 1) e) (dot :: t :: middle) n a rest n' := by
  refine (Gives.pass separator (by decide)).bind ?_
  exact (Gives.accept separator).bind ((Gives.expectName _ name).bind more)

/-- A sign before an operand. -/
theorem gives_operated {op : UnaryOp} (sign : t.kind = op.kind)
    (operand : Gives (unary fuel) tokens n e rest n') :
    Gives (unary (fuel + 1)) (t :: tokens) n (.unary op t.line e) rest n' :=
  (Gives.acceptPrefix sign).bind (operand.bind (.pure _))

/-- A call where no prefix operator stands before it. -/
theorem gives_unary (other : prefixOp? t.kind = none)
    (call : Gives (primary fuel >>= fun e => accessRest fuel e) (t :: tokens) n e rest n') :
    Gives (unary (fuel + 1)) (t :: tokens) n e rest n' :=
  (Gives.refusePrefix other).bind call

/-- One more operand of a chain. -/
theorem gives_joined {left right node a : Expr} (joins : Joins t left right level node)
    (operand : Gives (operand fuel level) tokens n right middle n₁)
    (more : Gives (infixRest fuel level node) middle n₁ a rest n') :
    Gives (infixRest (fuel + 1) level left) (t :: tokens) n a rest n' := by
  obtain ⟨op, operator, rfl⟩ := joins_iff.mp joins
  exact (Gives.acceptInfix operator).bind (operand.bind more)

/-- An assignment to a name. The target was read as an expression first, so its identity is
drawn and dropped, and the node takes the one drawn after the value. -/
theorem gives_assigned {equals : Token} {value : Expr}
    (target : Gives (infixChain fuel .or) tokens n (.variable ⟨n, t.asName⟩) (equals :: middle) n₁)
    (sign : equals.kind = .equal) (assigns : Gives (assignment fuel) middle n₁ value rest n') :
    Gives (assignment (fuel + 1)) tokens n (.assign ⟨n', t.asName⟩ value) rest (n' + 1) := by
  refine target.bind ((Gives.accept sign).bind (assigns.bind ?_))
  exact (Gives.occurrence _).bind (.pure _)

/-- An assignment to a property, whose target was read as a property read. -/
theorem gives_set {equals : Token} {object value : Expr} {name : Name}
    (target : Gives (infixChain fuel .or) tokens n (.get object name) (equals :: middle) n₁)
    (sign : equals.kind = .equal) (assigns : Gives (assignment fuel) middle n₁ value rest n') :
    Gives (assignment (fuel + 1)) tokens n (.set object name value) rest n' :=
  target.bind ((Gives.accept sign).bind (assigns.bind (.pure _)))

/-- One more argument before the rest of the list, while the list is below its limit. -/
theorem gives_arguments {done found : List Expr} (few : done.length < listLimit)
    (first : Gives (assignment fuel) tokens n e middle n₁)
    (more : Gives (accept? .comma >>= fun comma =>
      match comma with
      | some _ => arguments fuel (e :: done)
      | none => pure (e :: done).reverse) middle n₁ found rest n') :
    Gives (arguments (fuel + 1) done) tokens n found rest n' := by
  rw [arguments]
  dsimp only
  rw [if_neg (Nat.not_le_of_lt few)]
  exact first.bind more

/-- What stands left of `=`, read as a chain of operands. -/
theorem gives_target (amount : Nat) (other : prefixOp? t.kind = none)
    (call : ∀ fuel, amount ≤ fuel →
      Gives (primary fuel >>= fun e => accessRest fuel e) (t :: tokens) n e rest n')
    (stops : Stops 0 rest) (enough : amount + 15 ≤ fuel) :
    Gives (infixChain fuel .or) (t :: tokens) n e rest n' := by
  refine gives_chain amount (fun fuel deep => ?_) rfl stops enough
  obtain ⟨fuel, rfl, less⟩ := exists_succ deep
  exact gives_unary other (call fuel (by omega))

/-- A variable left of `=`. It is numbered before the parser comes to the sign. -/
theorem gives_variableTarget {equals : Token} (name : t.kind = .identifier)
    (sign : equals.kind = .equal) (enough : 16 ≤ fuel) :
    Gives (infixChain fuel .or) (t :: equals :: rest) n (.variable ⟨n, t.asName⟩)
      (equals :: rest) (n + 1) := by
  have stops : Stops 0 (equals :: rest) := stops_of_equal sign
  refine gives_target 1 (by rw [name]; rfl) (fun fuel some => ?_) stops enough
  exact (gives_identifier name some).bind (gives_accessRest_stop (stops.mono (by decide)) some)

/-- A property left of `=`, which the parser takes for the last part of the call before it. -/
theorem gives_propertyTarget {ts : List Token} {object : Expr} {dot name equals : Token}
    (owner : (Phrase.call object).Read (t :: ts) (dot :: name :: equals :: rest) n n₁)
    (other : prefixOp? t.kind = none) (separator : dot.kind = .dot)
    (named : name.kind = .identifier) (sign : equals.kind = .equal)
    (enough : 32 * (t :: ts).length + 18 ≤ fuel) :
    Gives (infixChain fuel .or) (t :: ts ++ dot :: name :: equals :: rest) n
      (.get object name.asName) (equals :: rest) n₁ := by
  have stops : Stops 0 (equals :: rest) := stops_of_equal sign
  have property : ∀ fuel, 2 ≤ fuel → Gives (accessRest fuel object)
      (dot :: name :: equals :: rest) n₁ (.get object name.asName) (equals :: rest) n₁ := by
    intro fuel some
    obtain ⟨fuel, rfl, less⟩ := exists_succ some
    exact gives_property separator named (gives_accessRest_stop (stops.mono (by decide)) less)
  refine gives_target (32 * (t :: ts).length + 2 + 1) other (fun fuel enough => ?_) stops
    (by omega)
  exact owner 2 _ _ _ property fuel enough

end Steps

/-- A call does not begin with a prefix operator. -/
theorem Tree.call_begins {n n' : NodeId} {ts : List Token} {e : Expr}
    (tree : Tree n ts (.call e) n') : ∃ t more, ts = t :: more ∧ prefixOp? t.kind = none := by
  cases tree with
  | call first =>
    cases first with
    | @literal _ t _ constant =>
      refine ⟨t, _, rfl, ?_⟩
      rcases constant with same | same | same | same | same <;> rw [same] <;> rfl
    | this keyword | super keyword | identifier keyword | group keyword =>
      exact ⟨_, _, rfl, by rw [keyword]; rfl⟩

/-- Behind an operand stands an operator of its level, or what ends the chain. -/
theorem Tree.chainRest_stops {n n' : NodeId} {ts rest : List Token} {level : Level}
    {left e : Expr} (tree : Tree n ts (.chainRest level left e) n')
    (stops : Stops level.rank rest) : Stops (level.rank + 1) (ts ++ rest) := by
  cases tree with
  | unjoined => exact stops.mono (Nat.le_succ _)
  | joined joins =>
    obtain ⟨op, operator, -⟩ := joins_iff.mp joins
    exact stops_of_operator operator

/-- Behind an argument stands a comma, or what ends the list. -/
theorem Tree.moreArguments_closes {n n' : NodeId} {ts rest : List Token} {es : List Expr}
    (tree : Tree n ts (.moreArguments es) n') (closes : Closes rest) : Closes (ts ++ rest) := by
  cases tree with
  | noMoreArguments => exact closes
  | moreArguments separator => exact closes_cons separator (by decide)

/-- The parser reads every phrase of expressions. -/
theorem Tree.read {n n' : NodeId} {ts : List Token} {p : Phrase} (tree : Tree n ts p n')
    (rest : List Token) : p.Read ts rest n n' := by
  induction tree generalizing rest with
  -- expressions of one token, calls and property accesses
  | literal constant => exact fun fuel enough => gives_literal constant (by omega)
  | this keyword => exact fun fuel enough => gives_this keyword (by omega)
  | super keyword separator name =>
    exact fun fuel enough => gives_super keyword separator name (by omega)
  | identifier name => exact fun fuel enough => gives_identifier name (by omega)
  | @group n opening ts e n₁ closing opens _ closes inner =>
    intro fuel enough
    simp only [List.length_append, List.length_cons, List.length_nil] at enough
    obtain ⟨fuel, rfl, less⟩ := exists_succ enough
    have inside := inner (closing :: rest) (closes_cons closes (by decide)) fuel (by omega)
    simpa using gives_group opens inside closes
  | uncalled => exact fun amount a last n₂ go fuel enough => go fuel (by simpa using enough)
  | @called n opening ts es n₁ closing us subject e n₂ opens _ closes _ arguments more =>
    intro amount a last n₃ go fuel enough
    simp only [List.length_append, List.length_cons] at enough
    obtain ⟨fuel, rfl⟩ := exists_less (by omega : 0 < fuel)
    have list := arguments (closing :: us ++ rest) ⟨closing, us ++ rest, rfl, closes⟩ fuel
      (by omega)
    rw [← List.append_assoc] at list
    exact gives_called opens (by simpa using list) closes
      (more rest amount a last n₃ go fuel (by omega))
  | @property n dot t us subject e n₁ separator name _ more =>
    intro amount a last n₂ go fuel enough
    simp only [List.length_cons] at enough
    obtain ⟨fuel, rfl⟩ := exists_less (by omega : 0 < fuel)
    exact gives_property separator name (more rest amount a last n₂ go fuel (by omega))
  | @call n ts subject n₁ us e n₂ _ _ first more =>
    intro amount a last n₃ go fuel enough
    simp only [List.length_append] at enough
    rw [List.append_assoc]
    exact (first (us ++ rest) fuel (by omega)).bind (more rest amount a last n₃ go fuel (by omega))
  -- arguments, where the parser counts those that it has
  | noArguments =>
    rintro ⟨t, more, rfl, closes⟩ fuel enough
    obtain ⟨fuel, rfl⟩ := exists_less (by omega : 0 < fuel)
    rw [argumentList]
    exact (Gives.next closes).bind (.pure [])
  | @arguments n ts e n₁ us es n₂ tree others few first more =>
    intro closes fuel enough
    simp only [List.length_append] at enough
    obtain ⟨fuel, rfl⟩ := exists_less (by omega : 0 < fuel)
    obtain ⟨fuel, rfl⟩ := exists_less (by omega : 0 < fuel)
    obtain ⟨t, _, same, begins⟩ := tree.begins rfl
    have opened : ∀ t ∈ (ts ++ us ++ rest).head?, t.kind ≠ .rightParen := by
      rw [same]
      rintro _ ⟨⟩
      exact ne_of_begins begins rfl
    have following : Closes (us ++ rest) := others.moreArguments_closes closes.closes
    have short : ([] : List Expr).length < listLimit := by decide
    have longer : [e].length + es.length ≤ listLimit := by
      rw [List.length_singleton, Nat.add_comm]
      exact few
    rw [argumentList]
    refine (Gives.notNext opened).bind ?_
    rw [List.append_assoc]
    exact gives_arguments short (first (us ++ rest) following fuel (by omega))
      (more rest closes [e] longer fuel (by omega))
  | noMoreArguments =>
    intro closes done few fuel enough
    rw [List.append_nil]
    exact (Gives.refuse closes.not_comma).bind (.pure _)
  | @moreArguments n comma ts e n₁ us es n₂ separator _ others first more =>
    intro closes done few fuel enough
    simp only [List.length_append, List.length_cons] at enough few
    obtain ⟨fuel, rfl⟩ := exists_less (by omega : 0 < fuel)
    have following : Closes (us ++ rest) := others.moreArguments_closes closes.closes
    have longer : (e :: done).length + es.length ≤ listLimit := by
      rw [List.length_cons]
      omega
    have later := more rest closes (e :: done) longer fuel (by omega)
    have same : done.reverse ++ e :: es = (e :: done).reverse ++ es := by simp
    rw [List.cons_append, List.cons_append, List.append_assoc, same]
    refine (Gives.accept separator).bind ?_
    exact gives_arguments (by omega) (first (us ++ rest) following fuel (by omega)) later
  -- operators, where what follows must not go on with the operand
  | @operated n t op ts e n₁ sign _ operand =>
    intro stops fuel enough
    simp only [List.length_cons] at enough
    obtain ⟨fuel, rfl⟩ := exists_less (by omega : 0 < fuel)
    exact gives_operated sign (operand rest stops fuel (by omega))
  | @unary n ts e n₁ tree call =>
    intro stops fuel enough
    obtain ⟨t, more, rfl, other⟩ := tree.call_begins
    obtain ⟨fuel, rfl, less⟩ := exists_succ enough
    exact gives_unary other
      (call rest 1 e rest n₁ (fun fuel some => gives_accessRest_stop stops some) fuel less)
  | unjoined => exact fun stops fuel enough => gives_infixRest_stop stops (by omega)
  | @joined n t level ts right n₁ us left node e n₂ joins _ others operand more =>
    intro stops fuel enough
    simp only [List.length_append, List.length_cons] at enough
    obtain ⟨fuel, rfl⟩ := exists_less (by omega : 0 < fuel)
    have depth : level.depth ≤ 14 := Nat.sub_le _ _
    have following : Stops (level.rank + 1) (us ++ rest) := others.chainRest_stops stops
    have right := gives_operand (operand (us ++ rest)) following
      (by omega : 32 * ts.length + level.depth ≤ fuel)
    rw [List.cons_append, List.cons_append, List.append_assoc]
    exact gives_joined joins right (more rest stops fuel (by omega))
  | @chain n ts level left n₁ us e n₂ _ others first more =>
    intro stops fuel enough
    simp only [List.length_append] at enough
    obtain ⟨fuel, rfl, -⟩ := exists_succ enough
    have following : Stops (level.rank + 1) (us ++ rest) := others.chainRest_stops stops
    have left := gives_operand (first (us ++ rest)) following
      (by omega : 32 * ts.length + level.depth ≤ fuel)
    have rank : 4 ≤ level.depth := by cases level <;> decide
    rw [infixChain, List.append_assoc]
    exact left.bind (more rest stops fuel (by omega))
  -- assignments, where the parser reads the target before it knows that it is one
  | @unassigned n ts e n₁ _ chain =>
    intro closes fuel enough
    obtain ⟨fuel, rfl, less⟩ := exists_succ enough
    have unequal : ∀ t ∈ rest.head?, t.kind ≠ .equal := fun t first =>
      (not_operator_of_closers (closes t first)).2.2.2
    rw [Parsing.assignment]
    exact (chain rest closes.stops fuel less).bind ((Gives.refuse unequal).bind (.pure e))
  | @assigned n t equals ts e n₁ name sign _ value =>
    intro closes fuel enough
    simp only [List.length_cons] at enough
    obtain ⟨fuel, rfl⟩ := exists_less (by omega : 0 < fuel)
    exact gives_assigned (gives_variableTarget name sign (by omega)) sign
      (value rest closes fuel (by omega))
  | @set n ts object n₁ dot t equals us e n₂ tree separator name sign _ owner value =>
    intro closes fuel enough
    simp only [List.length_append, List.length_cons] at enough
    obtain ⟨fuel, rfl⟩ := exists_less (by omega : 0 < fuel)
    obtain ⟨t', more, rfl, other⟩ := tree.call_begins
    have target := gives_propertyTarget (owner (dot :: t :: equals :: (us ++ rest))) other
      separator name sign (by omega : _ ≤ fuel)
    simp only [List.append_assoc, List.cons_append] at target ⊢
    exact gives_set target sign (value rest closes fuel (by omega))
  | _ => trivial

/-- An expression in front of what ends it. -/
theorem gives_assignment {n n' fuel : Nat} {ts : List Token} {t : Token} {kind : Kind}
    {e : Expr} (tree : Tree n ts (.assignment e) n') (rest : List Token) (ends : t.kind = kind)
    (closes : kind ∈ closers) (enough : 32 * ts.length + 16 ≤ fuel) :
    Gives (assignment fuel) (ts ++ t :: rest) n e (t :: rest) n' :=
  tree.read (t :: rest) (closes_cons ends closes) fuel enough

/-! ## Statements -/

section Statements

variable {n n' fuel : Nat} {ts : List Token}

/-- An expression that may be missing, up to a token that closes it. -/
theorem gives_optional {e : Option Expr} (tree : Tree n ts (.optional e) n') {t : Token}
    {kind : Kind} (rest : List Token) (ends : t.kind = kind) (closes : kind ∈ closers)
    (enough : 32 * ts.length + 16 ≤ fuel) :
    Gives (expressionUnless fuel kind) (ts ++ t :: rest) n e (t :: rest) n' := by
  cases tree with
  | leftOut => exact (Gives.next ends).bind (.pure none)
  | given tree =>
    obtain ⟨t', more, same, begins⟩ := tree.begins rfl
    have other : ∀ t' ∈ (ts ++ t :: rest).head?, t'.kind ≠ kind := by
      rw [same]
      rintro _ ⟨⟩
      have all : ∀ kind ∈ closers, beginsExpression kind = false := by decide
      exact ne_of_begins begins (all kind closes)
    refine (Gives.notNext other).bind ?_
    exact (gives_assignment tree rest ends closes enough).bind (.pure _)

/-- A variable declaration gives the tree of its tokens. -/
theorem gives_variable {s : Stmt} (tree : Tree n ts (.variable s) n') (rest : List Token)
    (enough : 32 * ts.length + 16 ≤ fuel) :
    Gives (variableDeclaration fuel) (ts ++ rest) n s rest n' := by
  cases tree with
  | uninitialized name ends =>
    refine (Gives.expectName _ name).bind ((Gives.pass ends (by decide)).bind ?_)
    exact (Gives.expect _ ends).bind (.pure _)
  | @initialized n t equals ts e n₁ semicolon name sign value ends =>
    simp only [List.length_append, List.length_cons] at enough
    have less : 32 * ts.length + 16 ≤ fuel := by omega
    have e := gives_assignment value rest ends (by decide) less
    simp only [List.append_assoc, List.cons_append, List.nil_append]
    refine (Gives.expectName _ name).bind ((Gives.accept sign).bind (e.bind ?_))
    exact (Gives.expect _ ends).bind (.pure _)

theorem gives_expressionStatement {s : Stmt} (tree : Tree n ts (.expressionStatement s) n')
    (rest : List Token) (enough : 32 * ts.length + 16 ≤ fuel) :
    Gives (expressionStatement fuel) (ts ++ rest) n s rest n' := by
  cases tree with
  | @expression n ts e n₁ semicolon inner ends =>
    simp only [List.length_append, List.length_cons] at enough
    have less : 32 * ts.length + 16 ≤ fuel := by omega
    have e := gives_assignment inner rest ends (by decide) less
    rw [List.append_assoc]
    exact e.bind ((Gives.expect .expressionEnd ends).bind (.pure _))

/-- The first clause of a loop: a declaration, an expression or a bare semicolon. -/
theorem gives_initializer {s : Option Stmt} (tree : Tree n ts (.initializer s) n')
    (rest : List Token) (enough : 32 * ts.length + 16 ≤ fuel) :
    Gives (loopInitializer fuel) (ts ++ rest) n s rest n' := by
  cases tree with
  | noInitializer ends => exact (Gives.accept ends).bind (.pure none)
  | variableInitializer keyword declared =>
    simp only [List.length_cons] at enough
    refine (Gives.pass keyword (by decide)).bind ((Gives.accept keyword).bind ?_)
    exact (gives_variable declared rest (by omega)).bind (.pure _)
  | expressionInitializer inner =>
    obtain ⟨t, more, same, begins⟩ := inner.expressionStatement_begins
    -- an expression starts with neither var nor a semicolon
    have other {kind : Kind} (outside : beginsExpression kind = false) :
        ∀ t ∈ (ts ++ rest).head?, t.kind ≠ kind := by
      rw [same]
      rintro _ ⟨⟩
      exact ne_of_begins begins outside
    refine (Gives.refuse (other rfl)).bind ((Gives.refuse (other rfl)).bind ?_)
    exact (gives_expressionStatement inner rest enough).bind (.pure _)

/-- A condition between its parentheses. -/
theorem gives_condition {e : Expr} (tree : Tree n ts (.assignment e) n')
    {opening closing : Token} (cause : SyntaxCause) (rest : List Token)
    (opens : opening.kind = .leftParen) (closes : closing.kind = .rightParen)
    (enough : 32 * ts.length + 16 ≤ fuel) :
    Gives (parenthesizedCondition fuel cause) (opening :: (ts ++ closing :: rest)) n e rest n' := by
  refine (Gives.expect _ opens).bind ?_
  exact (gives_assignment tree rest closes (by decide) enough).bind
    ((Gives.expect _ closes).bind (.pure e))

/-- The rest of a parameter list after the parameters already read. -/
theorem gives_moreParameters {names : List Name} (tree : Tree n ts (.moreParameters names) n')
    {rest : List Token} (closes : ClosesList rest) (done : List Name)
    (few : done.length + names.length ≤ listLimit) (enough : ts.length ≤ fuel) :
    Gives (accept? .comma >>= fun comma =>
      match comma with
      | some _ => parameters fuel done
      | none => pure done.reverse) (ts ++ rest) n (done.reverse ++ names) rest n' := by
  induction names generalizing ts n done fuel with
  | nil =>
    cases tree
    rw [List.append_nil]
    exact (Gives.refuse closes.not_comma).bind (.pure _)
  | cons name names ih =>
    cases tree with
    | @moreParameters _ comma t ts _ _ separator named more =>
      simp only [List.length_cons] at enough few
      have some : 0 + 1 ≤ fuel := by omega
      obtain ⟨fuel, rfl, -⟩ := exists_succ some
      -- the limit is not reached, so no error is recorded on the way
      have longer : (t.asName :: done).length + names.length ≤ listLimit := by
        rw [List.length_cons]
        omega
      have less : ts.length ≤ fuel := by omega
      have later := ih more (t.asName :: done) longer less
      have same : done.reverse ++ t.asName :: names = (t.asName :: done).reverse ++ names := by
        simp
      refine (Gives.accept separator).bind ?_
      dsimp only
      rw [parameters, same]
      dsimp only
      rw [if_neg (by omega)]
      exact (Gives.expectName _ named).bind later

/-- A whole parameter list, the empty one included. -/
theorem gives_parameters {names : List Name} (tree : Tree n ts (.parameters names) n')
    {rest : List Token} (closes : ClosesList rest) (enough : ts.length ≤ fuel) :
    Gives (parameterList fuel) (ts ++ rest) n names rest n' := by
  cases tree with
  | noParameters =>
    obtain ⟨t, more, rfl, same⟩ := closes
    exact (Gives.next same).bind (.pure [])
  | @parameters _ t ts names _ named more few =>
    simp only [List.length_cons] at enough
    have some : 0 + 1 ≤ fuel := by omega
    obtain ⟨fuel, rfl, -⟩ := exists_succ some
    -- the list does not end before its first name
    have other : ∀ t' ∈ (t :: ts ++ rest).head?, t'.kind ≠ .rightParen := by
      rintro _ ⟨⟩
      rw [named]
      nofun
    have longer : [t.asName].length + names.length ≤ listLimit := by
      rw [List.length_singleton, Nat.add_comm]
      exact few
    have less : ts.length ≤ fuel := by omega
    have later := gives_moreParameters more closes [t.asName] longer less
    refine (Gives.notNext other).bind ?_
    show Gives (parameters (fuel + 1) []) _ _ _ _ _
    rw [parameters]
    dsimp only
    rw [if_neg (by decide)]
    exact (Gives.expectName _ named).bind later

/-- The name of a superclass after its sign, or nothing before the class body. -/
theorem gives_superclass {o : Option Occurrence} (tree : Tree n ts (.superclass o) n')
    {t : Token} (rest : List Token) (other : t.kind ≠ .less) :
    Gives superclass? (ts ++ t :: rest) n o (t :: rest) n' := by
  cases tree with
  | noSuperclass => exact (Gives.pass rfl other).bind (.pure none)
  | superclass sign name =>
    refine (Gives.accept sign).bind ((Gives.expectName _ name).bind ?_)
    exact (Gives.occurrence _).bind (.pure _)

/-- The three clauses of a loop between its parentheses. -/
theorem gives_loopClauses {n₁ n₂ : Nat} {us vs : List Token} {initializer : Option Stmt}
    {condition increment : Option Expr} {opening semicolon closing : Token}
    (opens : opening.kind = .leftParen) (first : Tree n ts (.initializer initializer) n₁)
    (test : Tree n₁ us (.optional condition) n₂) (ends : semicolon.kind = .semicolon)
    (step : Tree n₂ vs (.optional increment) n') (closes : closing.kind = .rightParen)
    (rest : List Token) (enough : 32 * (ts.length + us.length + vs.length) + 16 ≤ fuel) :
    Gives (loopClauses fuel) (opening :: (ts ++ (us ++ semicolon :: (vs ++ closing :: rest)))) n
      (initializer, condition.getD (.literal (.bool true)), increment) rest n' := by
  refine (Gives.expect _ opens).bind ?_
  refine (gives_initializer first _ (by omega)).bind ?_
  refine (gives_optional test _ ends (by decide) (by omega)).bind ?_
  refine (Gives.expect _ ends).bind ?_
  refine (gives_optional step _ closes (by decide) (by omega)).bind ?_
  exact (Gives.expect _ closes).bind (.pure _)

theorem gives_jumpStatement {t semicolon : Token} (jump : Jump) {s : Stmt} (rest : List Token)
    (ends : semicolon.kind = .semicolon)
    (same : s = match jump with
      | .break => .break t.line
      | .continue => .continue t.line) :
    Gives (jumpStatement jump t) (semicolon :: rest) n s rest n := by
  subst same
  cases jump <;> exact (Gives.expect _ ends).bind (.pure _)

end Statements

/-- No `else` follows. -/
def NoElse (rest : List Token) : Prop := ∀ t ∈ rest.head?, t.kind ≠ .else

/-- A closing brace follows, or nothing. -/
def EndsBlock (rest : List Token) : Prop := ∀ t ∈ rest.head?, t.kind = .rightBrace

theorem endsBlock_cons {t : Token} {rest : List Token} (same : t.kind = .rightBrace) :
    EndsBlock (t :: rest) := by
  rintro _ ⟨⟩
  exact same

/-- A statement begins with no keyword of a declaration. -/
theorem Tree.statement_begins {n n' : NodeId} {ts : List Token} {isOpen : Bool} {s : Stmt}
    (tree : Tree n ts (.statement isOpen s) n') :
    ∃ t more, ts = t :: more ∧ t.kind ∉ [.classWord, .fun, .var] := by
  cases tree with
  | expressionStatement inner =>
    obtain ⟨t, more, rfl, begins⟩ := inner.expressionStatement_begins
    have all : ∀ kind ∈ [Kind.classWord, .fun, .var], beginsExpression kind = false := by decide
    exact ⟨t, more, rfl, fun declares => ne_of_begins begins (all _ declares) rfl⟩
  | forLoop keyword | ifThen keyword | ifElse keyword | whileLoop keyword | returns keyword
  | breaks keyword | continues keyword | block keyword | print keyword =>
    exact ⟨_, _, rfl, by rw [keyword]; decide⟩

/-- Behind a declaration of a block stands another one, or what ends the block. -/
theorem Tree.declarations_noElse {n n' : NodeId} {ts rest : List Token} {ss : List Stmt}
    (tree : Tree n ts (.declarations ss) n') (ends : EndsBlock rest) : NoElse (ts ++ rest) := by
  have begins := tree.declarations_begin
  cases ts with
  | nil =>
    intro t first same
    rw [ends t first] at same
    cases same
  | cons t more =>
    rintro _ ⟨⟩ same
    exact begins t rfl (.inr same)

/-- How the parsers read the tokens of a statement or a declaration, up to what stands
behind them. -/
def Phrase.ReadStatement (ts rest : List Token) (n n' : Nat) : Phrase → Prop
  | .statement isOpen s => (isOpen → NoElse rest) → ∀ fuel, 32 * ts.length + 17 ≤ fuel →
    Gives (Parsing.statement fuel) (ts ++ rest) n s rest n'
  | .declaration s => NoElse rest → ∀ fuel, 32 * ts.length + 18 ≤ fuel →
    Gives (Parsing.declaration fuel) (ts ++ rest) n s rest n'
  | .declarations ss => EndsBlock rest → ∀ done fuel, 32 * ts.length + 19 ≤ fuel →
    Gives (Parsing.declarations fuel done) (ts ++ rest) n (done.reverse ++ ss) rest n'
  | .function d => ∀ declared fuel, 32 * ts.length + 1 ≤ fuel →
    Gives (Parsing.function fuel declared) (ts ++ rest) n d rest n'
  | .methods ds => EndsBlock rest → ∀ done fuel, 32 * ts.length + 2 ≤ fuel →
    Gives (Parsing.methods fuel done) (ts ++ rest) n (done.reverse ++ ds) rest n'
  | _ => True

section Steps

variable {n n₁ n' fuel : Nat} {t : Token} {tokens middle rest : List Token}

/-- What a statement may be if no keyword begins it. -/
theorem gives_statement_expression {s : Stmt} (begins : beginsExpression t.kind)
    (inner : Gives (expressionStatement fuel) (t :: tokens) n s rest n') :
    Gives (statement (fuel + 1)) (t :: tokens) n s rest n' := by
  have other {kind : Kind} (outside : beginsExpression kind = false) :
      Gives (accept? kind) (t :: tokens) n none (t :: tokens) n :=
    .refuse fun _ first => by
      cases first
      exact ne_of_begins begins outside
  refine (other rfl).bind ((other rfl).bind ((other rfl).bind ((other rfl).bind ?_)))
  exact (other rfl).bind ((other rfl).bind ((other rfl).bind ((other rfl).bind inner)))

/-- A loop with clauses gives the block and the plain loop it stands for. -/
theorem gives_forLoop {initializer : Option Stmt} {condition : Expr} {increment : Option Expr}
    {body : Stmt} (keyword : t.kind = .for)
    (clauses : Gives (loopClauses fuel) tokens n (initializer, condition, increment) middle n₁)
    (inner : Gives (statement fuel) middle n₁ body rest n') :
    Gives (statement (fuel + 1)) (t :: tokens) n
      (countingLoop initializer condition body increment) rest n' :=
  (Gives.accept keyword).bind (clauses.bind (inner.bind (.pure _)))

/-- A branch without an alternative, where no `else` follows. -/
theorem gives_ifThen {condition : Expr} {yes : Stmt} (keyword : t.kind = .if)
    (test : Gives (parenthesizedCondition fuel .ifOpen) tokens n condition middle n₁)
    (branch : Gives (statement fuel) middle n₁ yes rest n')
    (free : NoElse rest) :
    Gives (statement (fuel + 1)) (t :: tokens) n (.branch condition yes none) rest n' := by
  refine (Gives.pass keyword (by decide)).bind ((Gives.accept keyword).bind ?_)
  exact test.bind (branch.bind ((Gives.refuse free).bind (.pure _)))

/-- A branch with its alternative. -/
theorem gives_ifElse {n₂ : Nat} {condition : Expr} {yes no : Stmt} {other : Token}
    {after : List Token} (keyword : t.kind = .if)
    (test : Gives (parenthesizedCondition fuel .ifOpen) tokens n condition middle n₁)
    (first : Gives (statement fuel) middle n₁ yes (other :: after) n₂)
    (otherwise : other.kind = .else) (second : Gives (statement fuel) after n₂ no rest n') :
    Gives (statement (fuel + 1)) (t :: tokens) n (.branch condition yes (some no)) rest n' := by
  refine (Gives.pass keyword (by decide)).bind ((Gives.accept keyword).bind ?_)
  refine test.bind (first.bind ((Gives.accept otherwise).bind ?_))
  exact second.bind (.pure _)

theorem gives_whileLoop {condition : Expr} {body : Stmt} (keyword : t.kind = .while)
    (test : Gives (parenthesizedCondition fuel .whileOpen) tokens n condition middle n₁)
    (inner : Gives (statement fuel) middle n₁ body rest n') :
    Gives (statement (fuel + 1)) (t :: tokens) n (.loop condition body none) rest n' := by
  refine (Gives.pass keyword (by decide)).bind ((Gives.pass keyword (by decide)).bind ?_)
  exact (Gives.accept keyword).bind (test.bind (inner.bind (.pure _)))

theorem gives_return {semicolon : Token} {e : Option Expr} (keyword : t.kind = .return)
    (value : Gives (expressionUnless fuel .semicolon) tokens n e (semicolon :: rest) n')
    (ends : semicolon.kind = .semicolon) :
    Gives (statement (fuel + 1)) (t :: tokens) n (.return t.line e) rest n' := by
  refine (Gives.pass keyword (by decide)).bind ((Gives.pass keyword (by decide)).bind ?_)
  refine (Gives.pass keyword (by decide)).bind ((Gives.accept keyword).bind ?_)
  exact value.bind ((Gives.expect _ ends).bind (.pure _))

theorem gives_break {semicolon : Token} (keyword : t.kind = .break)
    (ends : semicolon.kind = .semicolon) :
    Gives (statement (fuel + 1)) (t :: semicolon :: rest) n (.break t.line) rest n := by
  refine (Gives.pass keyword (by decide)).bind ((Gives.pass keyword (by decide)).bind ?_)
  refine (Gives.pass keyword (by decide)).bind ((Gives.pass keyword (by decide)).bind ?_)
  exact (Gives.accept keyword).bind (gives_jumpStatement .break rest ends rfl)

theorem gives_continue {semicolon : Token} (keyword : t.kind = .continue)
    (ends : semicolon.kind = .semicolon) :
    Gives (statement (fuel + 1)) (t :: semicolon :: rest) n (.continue t.line) rest n := by
  refine (Gives.pass keyword (by decide)).bind ((Gives.pass keyword (by decide)).bind ?_)
  refine (Gives.pass keyword (by decide)).bind ((Gives.pass keyword (by decide)).bind ?_)
  refine (Gives.pass keyword (by decide)).bind ((Gives.accept keyword).bind ?_)
  exact gives_jumpStatement .continue rest ends rfl

theorem gives_blockStatement {body : List Stmt} (opens : t.kind = .leftBrace)
    (inner : Gives (block fuel) tokens n body rest n') :
    Gives (statement (fuel + 1)) (t :: tokens) n (.block body) rest n' := by
  refine (Gives.pass opens (by decide)).bind ((Gives.pass opens (by decide)).bind ?_)
  refine (Gives.pass opens (by decide)).bind ((Gives.pass opens (by decide)).bind ?_)
  refine (Gives.pass opens (by decide)).bind ((Gives.pass opens (by decide)).bind ?_)
  exact (Gives.accept opens).bind (inner.bind (.pure _))

theorem gives_print {semicolon : Token} {e : Expr} (keyword : t.kind = .print)
    (value : Gives (assignment fuel) tokens n e (semicolon :: rest) n')
    (ends : semicolon.kind = .semicolon) :
    Gives (statement (fuel + 1)) (t :: tokens) n (.print e) rest n' := by
  refine (Gives.pass keyword (by decide)).bind ((Gives.pass keyword (by decide)).bind ?_)
  refine (Gives.pass keyword (by decide)).bind ((Gives.pass keyword (by decide)).bind ?_)
  refine (Gives.pass keyword (by decide)).bind ((Gives.pass keyword (by decide)).bind ?_)
  refine (Gives.pass keyword (by decide)).bind ((Gives.accept keyword).bind ?_)
  exact value.bind ((Gives.expect .printEnd ends).bind (.pure _))

/-! ### Declarations -/

/-- A class gives its name, its superclass and its methods in order. -/
theorem gives_classDeclaration {n₂ : Nat} {name opening closing : Token}
    {superclass : Option Occurrence} {body : List FunctionDecl} {before : List Token}
    (keyword : t.kind = .classWord) (named : name.kind = .identifier)
    (parent : Gives superclass? tokens n superclass (opening :: before) n₁)
    (opens : opening.kind = .leftBrace)
    (inner : Gives (methods fuel []) before n₁ body (closing :: rest) n₂)
    (closes : closing.kind = .rightBrace) :
    Gives (declaration (fuel + 2)) (t :: name :: tokens) n
      (.classDecl name.asName superclass body) rest n₂ := by
  refine (Gives.accept keyword).bind ?_
  dsimp only
  rw [classDeclaration]
  refine (Gives.expectName _ named).bind (parent.bind ((Gives.expect _ opens).bind ?_))
  exact inner.bind ((Gives.expect _ closes).bind (.pure _))

theorem gives_funDecl {d : FunctionDecl} (keyword : t.kind = .fun)
    (declared : Gives (function fuel .function) tokens n d rest n') :
    Gives (declaration (fuel + 1)) (t :: tokens) n (.function d) rest n' := by
  refine (Gives.pass keyword (by decide)).bind ((Gives.accept keyword).bind ?_)
  exact declared.bind (.pure _)

theorem gives_varDecl {s : Stmt} (keyword : t.kind = .var)
    (declared : Gives (variableDeclaration fuel) tokens n s rest n') :
    Gives (declaration (fuel + 1)) (t :: tokens) n s rest n' := by
  refine (Gives.pass keyword (by decide)).bind ((Gives.pass keyword (by decide)).bind ?_)
  exact (Gives.accept keyword).bind declared

/-- What a declaration may be if no keyword of a declaration begins it. -/
theorem gives_declaration_statement {s : Stmt} (other : t.kind ∉ [.classWord, .fun, .var])
    (inner : Gives (statement fuel) (t :: tokens) n s rest n') :
    Gives (declaration (fuel + 1)) (t :: tokens) n s rest n' := by
  have differs {kind : Kind} (declares : kind ∈ [.classWord, .fun, .var]) : t.kind ≠ kind :=
    fun same => other (same ▸ declares)
  refine (Gives.pass rfl (differs (by decide))).bind ?_
  refine (Gives.pass rfl (differs (by decide))).bind ?_
  exact (Gives.pass rfl (differs (by decide))).bind inner

/-- A block behind its opening brace. -/
theorem gives_block {ts : List Token} {body : List Stmt} {closing : Token}
    (read : (Phrase.declarations body).ReadStatement ts (closing :: rest) n n')
    (closes : closing.kind = .rightBrace) (enough : 32 * ts.length + 20 ≤ fuel) :
    Gives (block fuel) (ts ++ closing :: rest) n body rest n' := by
  obtain ⟨fuel, rfl, less⟩ := exists_succ enough
  exact (read (endsBlock_cons closes) [] fuel less).bind
    ((Gives.expect _ closes).bind (.pure _))

/-- Behind the last declaration of a block the parser goes no further. -/
theorem gives_end {α : Type} {done : α} {more : Parser α} (ends : EndsBlock rest) :
    Gives (next .rightBrace >>= fun closed => atEnd >>= fun ended =>
      if (closed || ended) = true then pure done else more) rest n done rest n := by
  cases rest with
  | nil =>
    have unclosed : ∀ t ∈ ([] : List Token).head?, t.kind ≠ .rightBrace := nofun
    refine (Gives.notNext unclosed).bind (Gives.atEnd.bind ?_)
    exact .pure done
  | cons t rest =>
    refine (Gives.next (ends t rfl)).bind (Gives.atEnd.bind ?_)
    exact .pure done

/-- More declarations follow where the next token is no brace. -/
theorem gives_declarations {s : Stmt} {done found : List Stmt}
    (begins : ∀ t ∈ tokens.head?, t.kind ≠ .rightBrace) (some : tokens ≠ [])
    (first : Gives (declaration fuel) tokens n s middle n₁)
    (more : Gives (declarations fuel (s :: done)) middle n₁ found rest n') :
    Gives (declarations (fuel + 1) done) tokens n found rest n' := by
  refine (Gives.notNext begins).bind (Gives.atEnd.bind ?_)
  rw [Bool.false_or, if_neg (by simpa using some)]
  exact first.recovering.bind more

/-- More methods follow where the next token is no brace. -/
theorem gives_methods {d : FunctionDecl} {done found : List FunctionDecl}
    (begins : ∀ t ∈ tokens.head?, t.kind ≠ .rightBrace) (some : tokens ≠ [])
    (first : Gives (function fuel .method) tokens n d middle n₁)
    (more : Gives (methods fuel (d :: done)) middle n₁ found rest n') :
    Gives (methods (fuel + 1) done) tokens n found rest n' := by
  refine (Gives.notNext begins).bind (Gives.atEnd.bind ?_)
  rw [Bool.false_or, if_neg (by simpa using some)]
  exact first.bind more

/-- A function gives its name, its parameters and its body. -/
theorem gives_function {n₂ : Nat} {declared : Declared} {name opening closing brace : Token}
    {list : List Name} {body : List Stmt} {before : List Token} (named : name.kind = .identifier)
    (opens : opening.kind = .leftParen)
    (parameters : Gives (parameterList fuel) tokens n list (closing :: brace :: before) n₁)
    (closes : closing.kind = .rightParen) (begins : brace.kind = .leftBrace)
    (inner : Gives (block fuel) before n₁ body rest n₂) :
    Gives (function (fuel + 1) declared) (name :: opening :: tokens) n
      ⟨name.asName, list, body⟩ rest n₂ := by
  refine (Gives.expectName _ named).bind ((Gives.expect _ opens).bind (parameters.bind ?_))
  refine (Gives.expect _ closes).bind ((Gives.expect _ begins).bind (inner.bind ?_))
  exact .pure _

end Steps

/-- The parser reads every statement and declaration. -/
theorem Tree.readStatement {n n' : NodeId} {ts : List Token} {p : Phrase} (tree : Tree n ts p n')
    (rest : List Token) : p.ReadStatement ts rest n n' := by
  induction tree generalizing rest with
  -- statements
  | expressionStatement inner =>
    intro _ fuel enough
    obtain ⟨fuel, rfl, less⟩ := exists_succ enough
    obtain ⟨t, more, rfl, begins⟩ := inner.expressionStatement_begins
    exact gives_statement_expression begins (gives_expressionStatement inner rest less)
  | @forLoop n t opening ts initializer n₁ us condition n₂ semicolon vs increment n₃ closing ws
      isOpen body n₄ s keyword opens first test ends step closes _ counts _ _ _ inner =>
    intro free fuel enough
    obtain rfl := counts_iff.mp counts
    simp only [List.length_append, List.length_cons] at enough
    obtain ⟨fuel, rfl⟩ := exists_less (by omega : 0 < fuel)
    have clauses := gives_loopClauses opens first test ends step closes (ws ++ rest)
      (by omega : 32 * (ts.length + us.length + vs.length) + 16 ≤ fuel)
    simp only [List.append_assoc, List.cons_append]
    exact gives_forLoop keyword clauses (inner rest free fuel (by omega))
  | @ifThen n t opening ts condition n₁ closing us isOpen yes n₂ keyword opens test closes _ _
      branch =>
    intro free fuel enough
    simp only [List.length_append, List.length_cons] at enough
    obtain ⟨fuel, rfl⟩ := exists_less (by omega : 0 < fuel)
    have condition := gives_condition test .ifOpen (us ++ rest) opens closes (by omega : _ ≤ fuel)
    simp only [List.append_assoc, List.cons_append]
    exact gives_ifThen keyword condition (branch rest (fun _ => free rfl) fuel (by omega))
      (free rfl)
  | @ifElse n t opening ts condition n₁ closing us yes n₂ other vs isOpen no n₃ keyword opens test
      closes _ otherwise _ _ first second =>
    intro free fuel enough
    simp only [List.length_append, List.length_cons] at enough
    obtain ⟨fuel, rfl⟩ := exists_less (by omega : 0 < fuel)
    have condition := gives_condition test .ifOpen (us ++ other :: (vs ++ rest)) opens closes
      (by omega : _ ≤ fuel)
    simp only [List.append_assoc, List.cons_append]
    exact gives_ifElse keyword condition (first _ nofun fuel (by omega)) otherwise
      (second rest free fuel (by omega))
  | @whileLoop n t opening ts condition n₁ closing us isOpen body n₂ keyword opens test closes _ _
      inner =>
    intro free fuel enough
    simp only [List.length_append, List.length_cons] at enough
    obtain ⟨fuel, rfl⟩ := exists_less (by omega : 0 < fuel)
    have condition := gives_condition test .whileOpen (us ++ rest) opens closes
      (by omega : _ ≤ fuel)
    simp only [List.append_assoc, List.cons_append]
    exact gives_whileLoop keyword condition (inner rest free fuel (by omega))
  | @returns n t ts e n₁ semicolon keyword value ends =>
    intro _ fuel enough
    simp only [List.length_append, List.length_cons] at enough
    obtain ⟨fuel, rfl⟩ := exists_less (by omega : 0 < fuel)
    have e := gives_optional value rest ends (by decide) (by omega : _ ≤ fuel)
    simp only [List.append_assoc, List.cons_append, List.nil_append]
    exact gives_return keyword e ends
  | breaks keyword ends =>
    intro _ fuel enough
    obtain ⟨fuel, rfl, -⟩ := exists_succ enough
    exact gives_break keyword ends
  | continues keyword ends =>
    intro _ fuel enough
    obtain ⟨fuel, rfl, -⟩ := exists_succ enough
    exact gives_continue keyword ends
  | @block n opening ts body n₁ closing opens _ closes inner =>
    intro _ fuel enough
    simp only [List.length_append, List.length_cons] at enough
    obtain ⟨fuel, rfl⟩ := exists_less (by omega : 0 < fuel)
    have body := gives_block (inner (closing :: rest)) closes (by omega : _ ≤ fuel)
    simp only [List.append_assoc, List.cons_append, List.nil_append]
    exact gives_blockStatement opens body
  | @print n t ts e n₁ semicolon keyword value ends =>
    intro _ fuel enough
    simp only [List.length_append, List.length_cons] at enough
    obtain ⟨fuel, rfl⟩ := exists_less (by omega : 0 < fuel)
    have e := gives_assignment value rest ends (by decide) (by omega : _ ≤ fuel)
    simp only [List.append_assoc, List.cons_append, List.nil_append]
    exact gives_print keyword e ends
  -- declarations
  | @classDecl n t name ts superclass n₁ opening us body n₂ closing keyword named parent opens _
      closes _ inner =>
    intro _ fuel enough
    simp only [List.length_append, List.length_cons] at enough
    obtain ⟨fuel, rfl⟩ := exists_less (by omega : 0 < fuel)
    obtain ⟨fuel, rfl⟩ := exists_less (by omega : 0 < fuel)
    have superclass := gives_superclass parent (us ++ closing :: rest) (by rw [opens]; nofun)
    have body := inner (closing :: rest) (endsBlock_cons closes) [] fuel (by omega)
    simp only [List.append_assoc, List.cons_append, List.nil_append]
    exact gives_classDeclaration keyword named superclass opens body closes
  | @funDecl n t ts d n₁ keyword _ declared =>
    intro _ fuel enough
    simp only [List.length_cons] at enough
    obtain ⟨fuel, rfl⟩ := exists_less (by omega : 0 < fuel)
    exact gives_funDecl keyword (declared rest .function fuel (by omega))
  | @varDecl n t ts s n₁ keyword declared =>
    intro _ fuel enough
    simp only [List.length_cons] at enough
    obtain ⟨fuel, rfl⟩ := exists_less (by omega : 0 < fuel)
    exact gives_varDecl keyword (gives_variable declared rest (by omega))
  | statement tree inner =>
    intro free fuel enough
    obtain ⟨fuel, rfl, less⟩ := exists_succ enough
    obtain ⟨t, more, rfl, other⟩ := tree.statement_begins
    exact gives_declaration_statement other (inner rest (fun _ => free) fuel less)
  -- rows of declarations and of methods, up to the brace behind them
  | noDeclarations =>
    intro ends done fuel enough
    obtain ⟨fuel, rfl, -⟩ := exists_succ enough
    rw [Parsing.declarations, List.append_nil]
    exact gives_end ends
  | @declarations n ts s n₁ us ss n₂ tree others first more =>
    intro ends done fuel enough
    simp only [List.length_append] at enough
    obtain ⟨fuel, rfl, less⟩ := exists_succ enough
    obtain ⟨t, after, rfl, begins⟩ := tree.declaration_begins
    have opened : ∀ t' ∈ (t :: after ++ us ++ rest).head?, t'.kind ≠ .rightBrace := by
      rintro _ ⟨⟩ same
      exact begins (.inl same)
    have declared := first (us ++ rest) (others.declarations_noElse ends) fuel (by omega)
    rw [List.length_cons] at less
    have later := more rest ends (s :: done) fuel (by omega)
    have same : done.reverse ++ s :: ss = (s :: done).reverse ++ ss := by simp
    rw [← List.append_assoc] at declared
    rw [same]
    exact gives_declarations opened nofun declared later
  | noMethods =>
    intro ends done fuel enough
    obtain ⟨fuel, rfl, -⟩ := exists_succ enough
    rw [Parsing.methods, List.append_nil]
    exact gives_end ends
  | @methods n ts d n₁ us ds n₂ tree _ first more =>
    intro ends done fuel enough
    simp only [List.length_append] at enough
    obtain ⟨fuel, rfl, less⟩ := exists_succ enough
    obtain ⟨t, after, rfl, begins⟩ := tree.function_begins
    have opened : ∀ t' ∈ (t :: after ++ us ++ rest).head?, t'.kind ≠ .rightBrace := by
      rintro _ ⟨⟩
      rw [begins]
      nofun
    have declared := first (us ++ rest) .method fuel (by omega)
    rw [List.length_cons] at less
    have later := more rest ends (d :: done) fuel (by omega)
    have same : done.reverse ++ d :: ds = (d :: done).reverse ++ ds := by simp
    rw [← List.append_assoc] at declared
    rw [same]
    exact gives_methods opened nofun declared later
  | @function n t opening ts parameters n₁ closing brace us body n₂ closingBrace named opens list
      closes begins _ ends _ inner =>
    intro declared fuel enough
    simp only [List.length_append, List.length_cons] at enough
    obtain ⟨fuel, rfl, less⟩ := exists_succ enough
    have parameters := gives_parameters list
      ⟨closing, brace :: (us ++ closingBrace :: rest), rfl, closes⟩ (by omega : _ ≤ fuel)
    have body := gives_block (inner (closingBrace :: rest)) ends (by omega : _ ≤ fuel)
    simp only [List.append_assoc, List.cons_append, List.nil_append]
    exact gives_function named opens parameters closes begins body
  | _ => trivial

/-! ## Whole texts -/

/-- A row of declarations read to the end of the tokens is the row of their tree, put after what
was read before. -/
theorem gives_declarationsToEnd {n n' fuel : Nat} {tokens : List Token} {ss : List Stmt}
    (tree : Tree n tokens (.declarations ss) n') (done : List Stmt)
    (enough : 32 * tokens.length + 19 ≤ fuel) :
    Gives (declarationsToEnd fuel done) tokens n (done.reverse ++ ss) [] n' := by
  induction ss generalizing n tokens done fuel with
  | nil =>
    cases tree
    obtain ⟨fuel, rfl, -⟩ := exists_succ enough
    rw [declarationsToEnd, List.append_nil]
    exact Gives.atEnd.bind (.pure _)
  | cons s ss ih =>
    cases tree with
    | @declarations _ ts _ _ us _ _ first others =>
      simp only [List.length_append] at enough
      obtain ⟨fuel, rfl, less⟩ := exists_succ enough
      obtain ⟨t, after, rfl, -⟩ := first.declaration_begins
      -- a declaration does not start with else, so the one before it reads to its end
      have followed : NoElse (us ++ []) := others.declarations_noElse nofun
      rw [List.append_nil] at followed
      have declared := first.readStatement us followed fuel (by omega)
      rw [List.length_cons] at less
      have later := ih others (s :: done) (by omega : _ ≤ fuel)
      have same : done.reverse ++ s :: ss = (s :: done).reverse ++ ss := by simp
      rw [declarationsToEnd, same]
      exact Gives.atEnd.bind (declared.recovering.bind later)

/-- An expression that takes all the tokens is the input of a single expression. -/
theorem gives_wholeExpression {n n' fuel : Nat} {tokens : List Token} {e : Expr}
    (tree : Tree n tokens (.assignment e) n') (enough : 32 * tokens.length + 16 ≤ fuel) :
    Gives (wholeExpression fuel) tokens n e [] n' := by
  have inner := tree.read [] nofun fuel enough
  rw [List.append_nil] at inner
  exact inner.bind (Gives.atEnd.bind (.pure e))

/-- What a parser gives on all the tokens is what the reader answers, with no error recorded. -/
theorem Gives.run {α : Type} {p : Parser α} {tokens : Tokens} {n n' : Nat} {a : α}
    (h : Gives p tokens.list n a [] n') (s : State) (rest : s.rest = tokens.list)
    (clean : s.errors = []) (number : s.nextId = n) :
    s.run p = (.ok a, { s with rest := [], nextId := n' }) := by
  obtain ⟨rest', line, errors, nextId⟩ := s
  cases rest
  cases clean
  cases number
  rw [State.run, h line []]
  rfl

end ClassScript.Parsing
