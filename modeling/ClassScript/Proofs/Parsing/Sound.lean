import ClassScript.Parsing.Reader
import ClassScript.Proofs.Parsing.Tree

/-!
# What a parser gives is a tree

Errors are only ever added, also where the parser recovers from one or goes on without
stopping. If a parser has added none, the tokens that it took have the tree that it gives
(`Finds`, one lemma for each parser). A statement that is left open is not followed by
`else`, since the parser would have taken it.
-/

namespace ClassScript.Parsing

open Source Syntax

/-- Where a parser ends that began with some errors: it has at least as many, and if
it has no more, what it gives is as stated, with the next identity and the tokens that
are left. -/
def Leaves {α : Type} (count : Nat) (post : α → Nat → List Token → Prop) :
    EStateM.Result SyntaxError State α → Prop
  | .ok a s => count ≤ s.errors.length ∧
      (s.errors.length = count → post a s.nextId s.rest)
  | .error _ s => count ≤ s.errors.length

/-- What a parser gives that reads the tokens, drawing identities from the given one on,
if it adds no error. -/
def Finds {α : Type} (n : Nat) (tokens : List Token) (p : Parser α)
    (post : α → Nat → List Token → Prop) : Prop :=
  ∀ s : State, s.rest = tokens → s.nextId = n → Leaves s.errors.length post (p s)

/-- The tokens begin with such a phrase. -/
def Is (n : Nat) (tokens : List Token) (p : Phrase) (n' : Nat) (rest : List Token) : Prop :=
  ∃ ts, tokens = ts ++ rest ∧ Tree n ts p n'

namespace Finds

variable {α β : Type} {n : Nat} {tokens : List Token}

theorem fail (cause : SyntaxCause) {post : α → Nat → List Token → Prop} :
    Finds n tokens (fail cause) post :=
  fun _ _ _ => Nat.le_refl _

theorem pure {a : α} {post : α → Nat → List Token → Prop} (h : post a n tokens) :
    Finds n tokens (pure a) post := by
  rintro s rfl rfl
  exact ⟨Nat.le_refl _, fun _ => h⟩

/-- The second parser is to find what is stated if the first one has. -/
theorem bind {p : Parser α} {q : α → Parser β} {mid : α → Nat → List Token → Prop}
    {post : β → Nat → List Token → Prop} (first : Finds n tokens p mid)
    (second : ∀ a n' rest, Finds n' rest (q a) fun b n'' rest' =>
      mid a n' rest → post b n'' rest') : Finds n tokens (p >>= q) post := by
  intro s left same
  have before := first s left same
  show Leaves _ _ (EStateM.bind p q s)
  unfold EStateM.bind
  cases hp : p s with
  | error e s' =>
    rw [hp] at before
    exact before
  | ok a s' =>
    rw [hp] at before
    obtain ⟨grown, given⟩ := before
    have after := second a _ _ s' rfl rfl
    dsimp only
    cases hq : q a s' with
    | error e s'' =>
      rw [hq] at after
      exact Nat.le_trans grown after
    | ok b s'' =>
      rw [hq] at after
      obtain ⟨grown', given'⟩ := after
      refine ⟨Nat.le_trans grown grown', fun clean => ?_⟩
      -- errors only grow: none in the end means none in between
      have between : s'.errors.length = s.errors.length :=
        Nat.le_antisymm (clean ▸ grown') grown
      exact given' (clean.trans between.symm) (given between)

/-- What a parser finds may be weakened. -/
theorem imp {p : Parser α} {mid post : α → Nat → List Token → Prop} (h : Finds n tokens p mid)
    (weaker : ∀ a n' rest, mid a n' rest → post a n' rest) : Finds n tokens p post := by
  intro s left same
  have ends := h s left same
  cases hp : p s with
  | error e s' => rw [hp] at ends; exact ends
  | ok a s' =>
    rw [hp] at ends
    exact ⟨ends.1, fun clean => weaker _ _ _ (ends.2 clean)⟩

/-- Nothing is said of a parser that has recorded an error. -/
theorem report (cause : SyntaxCause) :
    Finds n tokens (report cause) fun _ _ _ => False := by
  rintro s rfl rfl
  simp [Parsing.report, State.record, Leaves]

theorem reportAt (token : Token) (cause : SyntaxCause) :
    Finds n tokens (reportAt token cause) fun _ _ _ => False := by
  rintro s rfl rfl
  simp [Parsing.reportAt, State.record, Leaves]

/-- A parser that recovers has found something, or has added an error. -/
theorem recovering {p : Parser α} {post : α → Nat → List Token → Prop}
    (h : Finds n tokens p post) : Finds n tokens (recovering p) fun found n' rest =>
      ∃ a, found = some a ∧ post a n' rest := by
  intro s left same
  have ends := h s left same
  unfold Parsing.recovering
  cases hp : p s with
  | ok a s' =>
    rw [hp] at ends
    exact ⟨ends.1, fun clean => ⟨a, rfl, ends.2 clean⟩⟩
  | error e s' =>
    rw [hp] at ends
    have kept (s : State) : s.synchronize.errors = s.errors := by
      unfold State.synchronize
      split <;> rfl
    -- a recovered failure leaves an error behind, so the whole is not clean
    have more : (s'.record e).synchronize.errors.length = s'.errors.length + 1 := by
      rw [kept]
      simp [State.record]
    have ends : s.errors.length ≤ s'.errors.length := ends
    constructor
    · omega
    · intro clean
      omega

/-! ### Single tokens -/

/-- The first token is taken, and no identity is drawn. -/
def Takes (n : Nat) (tokens : List Token) (t : Token) (n' : Nat) (rest : List Token) : Prop :=
  n' = n ∧ tokens = t :: rest

/-- A token of the kind is taken if it comes next, and nothing otherwise. -/
def Accepts (kind : Kind) (n : Nat) (tokens : List Token) :
    Option Token → Nat → List Token → Prop
  | some t, n', rest => t.kind = kind ∧ Takes n tokens t n' rest
  | none, n', rest => n' = n ∧ rest = tokens ∧ ∀ t ∈ tokens.head?, t.kind ≠ kind

/-- A token that stands for something is taken, or nothing. -/
def Perhaps (good : α → Token → Prop) (n : Nat) (tokens : List Token) :
    Option α → Nat → List Token → Prop
  | some a, n', rest => ∃ t, good a t ∧ Takes n tokens t n' rest
  | none, n', rest => n' = n ∧ rest = tokens

theorem next (kind : Kind) : Finds n tokens (next kind) fun found n' rest =>
    n' = n ∧ rest = tokens ∧ found = (tokens.head?.map Token.kind == some kind) := by
  rintro s rfl rfl
  unfold Parsing.next
  cases shape : s.rest with
  | nil => exact ⟨Nat.le_refl _, fun _ => ⟨rfl, shape, rfl⟩⟩
  | cons token rest => exact ⟨Nat.le_refl _, fun _ => ⟨rfl, shape, rfl⟩⟩

theorem atEnd : Finds n tokens atEnd fun found n' rest =>
    n' = n ∧ rest = tokens ∧ found = tokens.isEmpty := by
  rintro s rfl rfl
  exact ⟨Nat.le_refl _, fun _ => ⟨rfl, rfl, rfl⟩⟩

/-- What is taken is the next token, if it has the kind. -/
theorem accept? (kind : Kind) : Finds n tokens (accept? kind) (Accepts kind n tokens) := by
  rintro s rfl rfl
  unfold Parsing.accept?
  cases shape : s.rest with
  | nil => exact ⟨Nat.le_refl _, fun _ => ⟨rfl, shape, nofun⟩⟩
  | cons token rest =>
    dsimp only
    split
    · next same => exact ⟨Nat.le_refl _, fun _ => ⟨same, rfl, rfl⟩⟩
    · next other =>
      refine ⟨Nat.le_refl _, fun _ => ⟨rfl, shape, ?_⟩⟩
      rintro _ ⟨⟩
      exact other

/-- A token required is the next one, of the kind. -/
theorem expect (kind : Kind) (cause : SyntaxCause) :
    Finds n tokens (expect kind cause) fun t n' rest =>
      t.kind = kind ∧ Takes n tokens t n' rest := by
  rintro s rfl rfl
  unfold Parsing.expect
  cases shape : s.rest with
  | nil => exact Nat.le_refl _
  | cons token rest =>
    dsimp only
    split
    · next same => exact ⟨Nat.le_refl _, fun _ => ⟨same, rfl, rfl⟩⟩
    · exact Nat.le_refl _

theorem expectName (cause : SyntaxCause) :
    Finds n tokens (expectName cause) fun name n' rest =>
      ∃ t, name = t.asName ∧ t.kind = .identifier ∧ Takes n tokens t n' rest :=
  (expect .identifier cause).bind fun t _ _ => .pure fun h => ⟨t, rfl, h⟩

theorem freshId : Finds n tokens freshId fun id n' rest =>
    id = n ∧ n' = n + 1 ∧ rest = tokens := by
  rintro s rfl rfl
  exact ⟨Nat.le_refl _, fun _ => ⟨rfl, rfl, rfl⟩⟩

theorem occurrence (name : Name) : Finds n tokens (occurrence name) fun o n' rest =>
    o = ⟨n, name⟩ ∧ n' = n + 1 ∧ rest = tokens := by
  refine freshId.bind fun id n' rest => .pure ?_
  rintro ⟨rfl, rfl, rfl⟩
  exact ⟨rfl, rfl, rfl⟩

/-- An operator taken is the next token, and it joins two operands into the node of the
operator. -/
theorem acceptInfix? (level : Level) : Finds n tokens (acceptInfix? level)
    (Perhaps (fun found t => found.2 = t ∧ ∀ left right,
      Joins t left right level (found.1.join t.line left right)) n tokens) := by
  rintro s rfl rfl
  unfold Parsing.acceptInfix?
  cases shape : s.rest with
  | nil => exact ⟨Nat.le_refl _, fun _ => ⟨rfl, shape⟩⟩
  | cons token rest =>
    dsimp only
    cases operator : infixOp? token.kind with
    | none => exact ⟨Nat.le_refl _, fun _ => ⟨rfl, shape⟩⟩
    | some found =>
      dsimp only
      split
      · next same =>
        subst same
        -- the operator found is that of its kind on this level
        have joins left right :
            Joins token left right found.1 (found.2.join token.line left right) :=
          joins_iff.mpr ⟨found.2, operator, rfl⟩
        exact ⟨Nat.le_refl _, fun _ => ⟨token, ⟨rfl, joins⟩, rfl, rfl⟩⟩
      · exact ⟨Nat.le_refl _, fun _ => ⟨rfl, shape⟩⟩

theorem acceptPrefix? : Finds n tokens acceptPrefix?
    (Perhaps (fun found t => found.2 = t ∧ t.kind = found.1.kind) n tokens) := by
  rintro s rfl rfl
  unfold Parsing.acceptPrefix?
  cases shape : s.rest with
  | nil => exact ⟨Nat.le_refl _, fun _ => ⟨rfl, shape⟩⟩
  | cons token rest =>
    dsimp only
    cases operator : prefixOp? token.kind with
    | none => exact ⟨Nat.le_refl _, fun _ => ⟨rfl, shape⟩⟩
    | some op =>
      have sign : token.kind = op.kind := (prefixOp?_iff.mp operator).symm
      exact ⟨Nat.le_refl _, fun _ => ⟨token, ⟨rfl, sign⟩, rfl, rfl⟩⟩

theorem acceptLiteral? : Finds n tokens acceptLiteral?
    (Perhaps (fun value t => t.Denotes value) n tokens) := by
  rintro s rfl rfl
  unfold Parsing.acceptLiteral?
  cases shape : s.rest with
  | nil => exact ⟨Nat.le_refl _, fun _ => ⟨rfl, shape⟩⟩
  | cons token rest =>
    dsimp only
    cases constant : literal? token with
    | none => exact ⟨Nat.le_refl _, fun _ => ⟨rfl, shape⟩⟩
    | some value =>
      exact ⟨Nat.le_refl _, fun _ => ⟨token, literal?_iff.mp constant, rfl, rfl⟩⟩

end Finds

/-! ## Expressions -/

/-- A superclass access is found after its keyword. -/
theorem finds_superAccess {n : Nat} {tokens : List Token} (keyword : Token) :
    Finds n tokens (superAccess keyword) fun e n' rest => ∃ dot method,
      tokens = dot :: method :: rest ∧ dot.kind = .dot ∧ method.kind = .identifier ∧
        e = .super n keyword.line method.asName ∧ n' = n + 1 := by
  refine (Finds.expect .dot .superDot).bind fun dot n₁ r₁ => ?_
  refine (Finds.expectName .superMethod).bind fun name n₂ r₂ => ?_
  refine Finds.freshId.bind fun id n₃ r₃ => .pure ?_
  rintro ⟨rfl, rfl, rfl⟩ ⟨method, rfl, named, rfl, rfl⟩ ⟨separator, rfl, rfl⟩
  exact ⟨dot, method, rfl, separator, named, rfl, rfl⟩

/-- The assignment to what stands left of `=` has a tree, if that can be assigned to. -/
theorem finds_assignTo {n₁ : Nat} {tokens : List Token} {target value : Expr} {equals : Token} :
    Finds n₁ tokens (assignTo target equals value) fun e n' rest =>
      rest = tokens ∧ ∀ {n ts n₀ us}, Tree n ts (.chain .or target) n₀ → equals.kind = .equal →
        Tree n₀ us (.assignment value) n₁ → Tree n (ts ++ equals :: us) (.assignment e) n' := by
  cases target with
  | «variable» old =>
    refine (Finds.occurrence old.name).bind fun o n' rest => .pure ?_
    rintro ⟨rfl, rfl, rfl⟩
    refine ⟨rfl, fun chain sign right => ?_⟩
    obtain ⟨t, rfl, name, rfl, rfl⟩ := (chain.of_chain rfl).of_variable
    exact .assigned name sign right
  | get object name =>
    refine .pure ⟨rfl, fun chain sign right => ?_⟩
    obtain ⟨us, dot, t, rfl, owner, separator, named, rfl⟩ := (chain.of_chain rfl).of_get
    rw [List.append_assoc]
    exact .set owner separator named sign right
  | _ => exact (Finds.reportAt equals _).bind fun _ _ _ => .pure False.elim

mutual

/-- What an assignment finds is a tree of the tokens it has taken. -/
theorem finds_assignment (fuel n : Nat) (tokens : List Token) :
    Finds n tokens (assignment fuel) fun e n' rest => Is n tokens (.assignment e) n' rest := by
  cases fuel with
  | zero => exact .fail _
  | succ fuel =>
    rw [assignment]
    refine (finds_infixChain fuel .or n tokens).bind fun target n₁ r₁ => ?_
    refine (Finds.accept? .equal).bind fun equals n₂ r₂ => ?_
    cases equals with
    | none =>
      refine .pure ?_
      rintro ⟨rfl, rfl, -⟩ ⟨ts, rfl, chain⟩
      exact ⟨ts, rfl, .unassigned chain⟩
    | some equals =>
      refine (finds_assignment fuel n₂ r₂).bind fun value n₃ r₃ => ?_
      -- the target was read as a chain; whether it can be assigned to is decided last
      refine finds_assignTo.imp fun e n' rest => ?_
      rintro ⟨rfl, assigned⟩ ⟨us, rfl, right⟩ ⟨sign, rfl, rfl⟩ ⟨ts, rfl, left⟩
      exact ⟨ts ++ equals :: us, by simp, assigned left sign right⟩

theorem finds_infixChain (fuel : Nat) (level : Level) (n : Nat) (tokens : List Token) :
    Finds n tokens (infixChain fuel level) fun e n' rest =>
      Is n tokens (.chain level e) n' rest := by
  cases fuel with
  | zero => exact .fail _
  | succ fuel =>
    rw [infixChain]
    refine (finds_operand fuel level n tokens).bind fun left n₁ r₁ => ?_
    refine (finds_infixRest fuel level left n₁ r₁).imp fun e n' rest => ?_
    rintro ⟨us, rfl, more⟩ ⟨ts, rfl, first⟩
    exact ⟨ts ++ us, by simp, .chain first more⟩

/-- What the rest of a chain finds is a tree of the tokens taken, growing from the operand. -/
theorem finds_infixRest (fuel : Nat) (level : Level) (left : Expr) (n : Nat)
    (tokens : List Token) : Finds n tokens (infixRest fuel level left) fun e n' rest =>
      Is n tokens (.chainRest level left e) n' rest := by
  cases fuel with
  | zero => exact .fail _
  | succ fuel =>
    rw [infixRest]
    refine (Finds.acceptInfix? level).bind fun found n₁ r₁ => ?_
    cases found with
    | none =>
      refine .pure ?_
      rintro ⟨rfl, rfl⟩
      exact ⟨[], rfl, .unjoined⟩
    | some found =>
      obtain ⟨op, token⟩ := found
      refine (finds_operand fuel level n₁ r₁).bind fun right n₂ r₂ => ?_
      -- the node built so far is the left operand of what follows
      refine (finds_infixRest fuel level _ n₂ r₂).imp fun e n' rest => ?_
      rintro ⟨us, rfl, more⟩ ⟨ts, rfl, operand⟩ ⟨t, ⟨rfl, joins⟩, rfl, rfl⟩
      exact ⟨token :: ts ++ us, by simp, .joined (joins left right) operand more⟩

theorem finds_operand (fuel : Nat) (level : Level) (n : Nat) (tokens : List Token) :
    Finds n tokens (operand fuel level) fun e n' rest =>
      Is n tokens (.operand level e) n' rest := by
  cases fuel with
  | zero => exact .fail _
  | succ fuel =>
    rw [operand]
    cases level with
    | factor => exact finds_unary fuel n tokens
    | _ => exact finds_infixChain fuel _ n tokens

theorem finds_unary (fuel n : Nat) (tokens : List Token) :
    Finds n tokens (unary fuel) fun e n' rest => Is n tokens (.unary e) n' rest := by
  cases fuel with
  | zero => exact .fail _
  | succ fuel =>
    rw [unary]
    refine Finds.acceptPrefix?.bind fun found n₁ r₁ => ?_
    cases found with
    | none =>
      refine (finds_primary fuel n₁ r₁).bind fun subject n₂ r₂ => ?_
      refine (finds_accessRest fuel subject n₂ r₂).imp fun e n' rest => ?_
      rintro ⟨us, rfl, more⟩ ⟨ts, rfl, first⟩ ⟨rfl, rfl⟩
      -- without a sign the phrase is a call
      exact ⟨ts ++ us, by simp, .unary (.call first more)⟩
    | some found =>
      obtain ⟨op, token⟩ := found
      refine (finds_unary fuel n₁ r₁).bind fun e n₂ r₂ => .pure ?_
      rintro ⟨ts, rfl, operand⟩ ⟨t, ⟨rfl, sign⟩, rfl, rfl⟩
      exact ⟨token :: ts, rfl, .operated sign operand⟩

/-- What follows a call or a property read is found to be a tree that grows from the subject. -/
theorem finds_accessRest (fuel : Nat) (subject : Expr) (n : Nat) (tokens : List Token) :
    Finds n tokens (accessRest fuel subject) fun e n' rest =>
      Is n tokens (.callRest subject e) n' rest := by
  cases fuel with
  | zero => exact .fail _
  | succ fuel =>
    rw [accessRest]
    refine (Finds.accept? .leftParen).bind fun opening n₁ r₁ => ?_
    cases opening with
    | some opening =>
      refine (finds_argumentList fuel n₁ r₁).bind fun es n₂ r₂ => ?_
      refine (Finds.expect .rightParen .argumentsClose).bind fun closing n₃ r₃ => ?_
      refine (finds_accessRest fuel _ n₃ r₃).imp fun e n' rest => ?_
      rintro ⟨us, rfl, more⟩ ⟨closes, rfl, rfl⟩ ⟨ts, rfl, arguments⟩ ⟨opens, rfl, rfl⟩
      -- the call built so far is the subject of what follows
      exact ⟨opening :: ts ++ closing :: us, by simp, .called opens arguments closes more⟩
    | none =>
      refine (Finds.accept? .dot).bind fun dot n₂ r₂ => ?_
      cases dot with
      | none =>
        refine .pure ?_
        rintro ⟨rfl, rfl, -⟩ ⟨rfl, rfl, -⟩
        exact ⟨[], rfl, .uncalled⟩
      | some dot =>
        refine (Finds.expectName .propertyName).bind fun name n₃ r₃ => ?_
        refine (finds_accessRest fuel _ n₃ r₃).imp fun e n' rest => ?_
        rintro ⟨us, rfl, more⟩ ⟨t, rfl, named, rfl, rfl⟩ ⟨separator, rfl, rfl⟩ ⟨rfl, rfl, -⟩
        exact ⟨dot :: t :: us, rfl, .property separator named more⟩

theorem finds_argumentList (fuel n : Nat) (tokens : List Token) :
    Finds n tokens (argumentList fuel) fun es n' rest => Is n tokens (.arguments es) n' rest := by
  cases fuel with
  | zero => exact .fail _
  | succ fuel =>
    rw [argumentList]
    refine (Finds.next .rightParen).bind fun closed n₁ r₁ => ?_
    cases closed with
    | true =>
      refine .pure ?_
      rintro ⟨rfl, rfl, -⟩
      exact ⟨[], rfl, .noArguments⟩
    | false =>
      refine (finds_arguments fuel [] n₁ r₁).imp fun es n' rest => ?_
      rintro ⟨e, es, ts, us, n₂, rfl, rfl, first, more, few⟩ ⟨rfl, rfl, -⟩
      exact ⟨ts ++ us, by simp, .arguments first more (by simpa using few)⟩

/-- The arguments found continue those already read, and there are no more than the limit. -/
theorem finds_arguments (fuel : Nat) (done : List Expr) (n : Nat) (tokens : List Token) :
    Finds n tokens (arguments fuel done) fun found n' rest => ∃ e es ts us n₁,
      found = done.reverse ++ e :: es ∧ tokens = ts ++ us ++ rest ∧
        Tree n ts (.assignment e) n₁ ∧ Tree n₁ us (.moreArguments es) n' ∧
          done.length + es.length < 255 := by
  cases fuel with
  | zero => exact .fail _
  | succ fuel =>
    -- the bound counts the arguments read before, checked when each one starts
    have more (n : Nat) (tokens : List Token) : Finds n tokens
        (assignment fuel >>= fun argument => accept? .comma >>= fun comma =>
          match comma with
          | some _ => arguments fuel (argument :: done)
          | none => pure (argument :: done).reverse) fun found n' rest => ∃ e es ts us n₁,
        found = done.reverse ++ e :: es ∧ tokens = ts ++ us ++ rest ∧
          Tree n ts (.assignment e) n₁ ∧ Tree n₁ us (.moreArguments es) n' ∧
            (es = [] ∨ done.length + es.length < 255) := by
      refine (finds_assignment fuel n tokens).bind fun e n₁ r₁ => ?_
      refine (Finds.accept? .comma).bind fun comma n₂ r₂ => ?_
      cases comma with
      | none =>
        refine .pure ?_
        rintro ⟨rfl, rfl, -⟩ ⟨ts, rfl, first⟩
        exact ⟨e, [], ts, [], n₂, by simp, by simp, first, .noMoreArguments, .inl rfl⟩
      | some comma =>
        refine (finds_arguments fuel _ n₂ r₂).imp fun found n' rest => ?_
        rintro ⟨e', es, us, vs, n₃, rfl, rfl, second, others, few⟩ ⟨separator, rfl, rfl⟩
          ⟨ts, rfl, first⟩
        refine ⟨e, e' :: es, ts, comma :: us ++ vs, n₂, by simp, by simp, first,
          .moreArguments separator second others, .inr ?_⟩
        simp only [List.length_cons] at few ⊢
        omega
    rw [arguments]
    dsimp only
    split
    · exact (Finds.report _).bind fun _ _ _ => (more _ _).imp fun _ _ _ _ => False.elim
    · next short =>
      refine (more n tokens).imp fun found n' rest => ?_
      rintro ⟨e, es, ts, us, n₁, same, split, first, others, few⟩
      refine ⟨e, es, ts, us, n₁, same, split, first, others, ?_⟩
      rcases few with rfl | few
      · simpa [listLimit] using short
      · exact few

/-- A primary expression found is a tree of the tokens taken. -/
theorem finds_primary (fuel n : Nat) (tokens : List Token) :
    Finds n tokens (primary fuel) fun e n' rest => Is n tokens (.primary e) n' rest := by
  cases fuel with
  | zero => exact .fail _
  | succ fuel =>
    rw [primary]
    refine Finds.acceptLiteral?.bind fun found n₁ r₁ => ?_
    cases found with
    | some value =>
      refine .pure ?_
      rintro ⟨t, constant, rfl, rfl⟩
      exact ⟨[t], rfl, .literal constant⟩
    | none =>
    refine (Finds.accept? .this).bind fun found n₂ r₂ => ?_
    cases found with
    | some token =>
      refine Finds.freshId.bind fun id n₃ r₃ => .pure ?_
      -- the conditions come back in reverse, the last rule first
      rintro ⟨rfl, rfl, rfl⟩ ⟨keyword, rfl, rfl⟩ ⟨rfl, rfl⟩
      exact ⟨[token], rfl, .this keyword⟩
    | none =>
    refine (Finds.accept? .super).bind fun found n₃ r₃ => ?_
    cases found with
    | some token =>
      refine (finds_superAccess token).imp fun e n' rest => ?_
      rintro ⟨dot, method, rfl, separator, named, rfl, rfl⟩ ⟨keyword, rfl, rfl⟩ ⟨rfl, rfl, -⟩
        ⟨rfl, rfl⟩
      exact ⟨[token, dot, method], rfl, .super keyword separator named⟩
    | none =>
    refine (Finds.accept? .identifier).bind fun found n₄ r₄ => ?_
    cases found with
    | some token =>
      refine (Finds.occurrence token.asName).bind fun o n₅ r₅ => .pure ?_
      rintro ⟨rfl, rfl, rfl⟩ ⟨name, rfl, rfl⟩ ⟨rfl, rfl, -⟩ ⟨rfl, rfl, -⟩ ⟨rfl, rfl⟩
      exact ⟨[token], rfl, .identifier name⟩
    | none =>
    refine (Finds.accept? .leftParen).bind fun found n₅ r₅ => ?_
    cases found with
    | none => exact .fail _
    | some opening =>
      refine (finds_assignment fuel n₅ r₅).bind fun inner n₆ r₆ => ?_
      refine (Finds.expect .rightParen .groupClose).bind fun closing n₇ r₇ => .pure ?_
      rintro ⟨closes, rfl, rfl⟩ ⟨ts, rfl, tree⟩ ⟨opens, rfl, rfl⟩ ⟨rfl, rfl, -⟩ ⟨rfl, rfl, -⟩
        ⟨rfl, rfl, -⟩ ⟨rfl, rfl⟩
      exact ⟨opening :: ts ++ [closing], by simp, .group opens tree closes⟩

end

/-! ## Statements -/

theorem finds_expressionUnless (fuel n : Nat) (tokens : List Token) (kind : Kind) :
    Finds n tokens (expressionUnless fuel kind) fun e n' rest =>
      Is n tokens (.optional e) n' rest := by
  refine (Finds.next kind).bind fun found n₁ r₁ => ?_
  cases found with
  | true =>
    refine .pure ?_
    rintro ⟨rfl, rfl, -⟩
    exact ⟨[], rfl, .leftOut⟩
  | false =>
    refine (finds_assignment fuel n₁ r₁).bind fun e n₂ r₂ => .pure ?_
    rintro ⟨ts, rfl, tree⟩ ⟨rfl, rfl, -⟩
    exact ⟨ts, rfl, .given tree⟩

theorem finds_variableDeclaration (fuel n : Nat) (tokens : List Token) :
    Finds n tokens (variableDeclaration fuel) fun s n' rest =>
      Is n tokens (.variable s) n' rest := by
  refine (Finds.expectName .variableName).bind fun name n₁ r₁ => ?_
  refine (Finds.accept? .equal).bind fun equals n₂ r₂ => ?_
  cases equals with
  | none =>
    refine (Finds.expect .semicolon .variableEnd).bind fun semicolon n₃ r₃ => .pure ?_
    rintro ⟨ends, rfl, rfl⟩ ⟨rfl, rfl, -⟩ ⟨t, rfl, named, rfl, rfl⟩
    exact ⟨[t, semicolon], rfl, .uninitialized named ends⟩
  | some equals =>
    refine (finds_assignment fuel n₂ r₂).bind fun e n₃ r₃ => ?_
    change Finds n₃ r₃ (expect .semicolon .variableEnd >>= fun _ =>
      pure (Stmt.var name (some e))) _
    refine (Finds.expect .semicolon .variableEnd).bind fun semicolon n₄ r₄ => .pure ?_
    rintro ⟨ends, rfl, rfl⟩ ⟨ts, rfl, value⟩ ⟨sign, rfl, rfl⟩ ⟨t, rfl, named, rfl, rfl⟩
    exact ⟨t :: equals :: ts ++ [semicolon], by simp, .initialized named sign value ends⟩

theorem finds_expressionStatement (fuel n : Nat) (tokens : List Token) :
    Finds n tokens (expressionStatement fuel) fun s n' rest =>
      Is n tokens (.expressionStatement s) n' rest := by
  refine (finds_assignment fuel n tokens).bind fun e n₁ r₁ => ?_
  refine (Finds.expect .semicolon .expressionEnd).bind fun semicolon n₂ r₂ => .pure ?_
  rintro ⟨ends, rfl, rfl⟩ ⟨ts, rfl, tree⟩
  exact ⟨ts ++ [semicolon], by simp, .expression tree ends⟩

theorem finds_loopInitializer (fuel n : Nat) (tokens : List Token) :
    Finds n tokens (loopInitializer fuel) fun s n' rest =>
      Is n tokens (.initializer s) n' rest := by
  refine (Finds.accept? .semicolon).bind fun found n₁ r₁ => ?_
  cases found with
  | some semicolon =>
    refine .pure ?_
    rintro ⟨ends, rfl, rfl⟩
    exact ⟨[semicolon], rfl, .noInitializer ends⟩
  | none =>
  refine (Finds.accept? .var).bind fun found n₂ r₂ => ?_
  cases found with
  -- a declaration and an expression statement both take the first semicolon
  | some t =>
    refine (finds_variableDeclaration fuel n₂ r₂).bind fun s n₃ r₃ => .pure ?_
    rintro ⟨ts, rfl, tree⟩ ⟨keyword, rfl, rfl⟩ ⟨rfl, rfl, -⟩
    exact ⟨t :: ts, rfl, .variableInitializer keyword tree⟩
  | none =>
    refine (finds_expressionStatement fuel n₂ r₂).bind fun s n₃ r₃ => .pure ?_
    rintro ⟨ts, rfl, tree⟩ ⟨rfl, rfl, -⟩ ⟨rfl, rfl, -⟩
    exact ⟨ts, rfl, .expressionInitializer tree⟩

/-- The clauses of a counting loop with their parentheses. -/
def AreClauses (n : Nat) (tokens : List Token) :
    Option Stmt × Expr × Option Expr → Nat → List Token → Prop
  | (initializer, condition, increment), n', rest =>
    ∃ opening ts n₁ us n₂ test semicolon vs closing,
      tokens = opening :: ts ++ us ++ semicolon :: vs ++ closing :: rest ∧
      opening.kind = .leftParen ∧ Tree n ts (.initializer initializer) n₁ ∧
      Tree n₁ us (.optional test) n₂ ∧ condition = test.getD (.literal (.bool true)) ∧
      semicolon.kind = .semicolon ∧ Tree n₂ vs (.optional increment) n' ∧
      closing.kind = .rightParen

theorem finds_loopClauses (fuel n : Nat) (tokens : List Token) :
    Finds n tokens (loopClauses fuel) (AreClauses n tokens) := by
  refine (Finds.expect .leftParen .forOpen).bind fun opening n₁ r₁ => ?_
  refine (finds_loopInitializer fuel n₁ r₁).bind fun initializer n₂ r₂ => ?_
  refine (finds_expressionUnless fuel n₂ r₂ .semicolon).bind fun test n₃ r₃ => ?_
  refine (Finds.expect .semicolon .loopConditionEnd).bind fun semicolon n₄ r₄ => ?_
  refine (finds_expressionUnless fuel n₄ r₄ .rightParen).bind fun increment n₅ r₅ => ?_
  refine (Finds.expect .rightParen .forClose).bind fun closing n₆ r₆ => .pure ?_
  rintro ⟨closes, rfl, rfl⟩ ⟨vs, rfl, step⟩ ⟨ends, rfl, rfl⟩ ⟨us, rfl, condition⟩
    ⟨ts, rfl, first⟩ ⟨opens, rfl, rfl⟩
  exact ⟨opening, ts, _, us, _, test, semicolon, vs, closing, by simp, opens, first, condition,
    rfl, ends, step, closes⟩

theorem finds_parenthesizedCondition (fuel n : Nat) (tokens : List Token)
    (cause : SyntaxCause) : Finds n tokens (parenthesizedCondition fuel cause)
      fun e n' rest => ∃ opening ts closing, tokens = opening :: ts ++ closing :: rest ∧
        opening.kind = .leftParen ∧ Tree n ts (.assignment e) n' ∧
          closing.kind = .rightParen := by
  refine (Finds.expect .leftParen _).bind fun opening n₁ r₁ => ?_
  refine (finds_assignment fuel n₁ r₁).bind fun e n₂ r₂ => ?_
  refine (Finds.expect .rightParen .conditionClose).bind fun closing n₃ r₃ => .pure ?_
  rintro ⟨closes, rfl, rfl⟩ ⟨ts, rfl, tree⟩ ⟨opens, rfl, rfl⟩
  exact ⟨opening, ts, closing, by simp, opens, tree, closes⟩

/-- The parameters found continue those already read, and there are no more than the limit. -/
theorem finds_parameters (fuel : Nat) (done : List Name) (n : Nat) (tokens : List Token) :
    Finds n tokens (parameters fuel done) fun found n' rest => ∃ t names ts,
      found = done.reverse ++ t.asName :: names ∧ tokens = t :: ts ++ rest ∧
        t.kind = .identifier ∧ Tree n ts (.moreParameters names) n' ∧
          done.length + names.length < 255 := by
  induction fuel generalizing done n tokens with
  | zero => exact .fail _
  | succ fuel ih =>
    -- the bound counts the names read before, checked when each one starts
    have more (n : Nat) (tokens : List Token) : Finds n tokens
        (expectName .parameterName >>= fun name => accept? .comma >>= fun comma =>
          match comma with
          | some _ => parameters fuel (name :: done)
          | none => pure (name :: done).reverse) fun found n' rest => ∃ t names ts,
        found = done.reverse ++ t.asName :: names ∧ tokens = t :: ts ++ rest ∧
          t.kind = .identifier ∧ Tree n ts (.moreParameters names) n' ∧
            (names = [] ∨ done.length + names.length < 255) := by
      refine (Finds.expectName .parameterName).bind fun name n₁ r₁ => ?_
      refine (Finds.accept? .comma).bind fun comma n₂ r₂ => ?_
      cases comma with
      | none =>
        refine .pure ?_
        rintro ⟨rfl, rfl, -⟩ ⟨t, rfl, named, rfl, rfl⟩
        exact ⟨t, [], [], by simp, rfl, named, .noMoreParameters, .inl rfl⟩
      | some comma =>
        refine (ih _ n₂ r₂).imp fun found n' rest => ?_
        rintro ⟨t', names, ts, rfl, rfl, named', others, few⟩ ⟨separator, rfl, rfl⟩
          ⟨t, rfl, named, rfl, rfl⟩
        refine ⟨t, t'.asName :: names, comma :: t' :: ts, by simp, rfl, named,
          .moreParameters separator named' others, .inr ?_⟩
        simp only [List.length_cons] at few ⊢
        omega
    rw [parameters]
    dsimp only
    split
    · exact (Finds.report _).bind fun _ _ _ => (more _ _).imp fun _ _ _ _ => False.elim
    · next short =>
      refine (more n tokens).imp fun found n' rest => ?_
      rintro ⟨t, names, ts, same, split, named, others, few⟩
      refine ⟨t, names, ts, same, split, named, others, ?_⟩
      rcases few with rfl | few
      · simpa [listLimit] using short
      · exact few

theorem finds_parameterList (fuel n : Nat) (tokens : List Token) :
    Finds n tokens (parameterList fuel) fun names n' rest =>
      Is n tokens (.parameters names) n' rest := by
  refine (Finds.next .rightParen).bind fun closed n₁ r₁ => ?_
  cases closed with
  | true =>
    refine .pure ?_
    rintro ⟨rfl, rfl, -⟩
    exact ⟨[], rfl, .noParameters⟩
  | false =>
    refine (finds_parameters fuel [] n₁ r₁).imp fun names n' rest => ?_
    rintro ⟨t, names, ts, rfl, rfl, named, more, few⟩ ⟨rfl, rfl, -⟩
    exact ⟨t :: ts, rfl, .parameters named more (by simpa using few)⟩

theorem finds_superclass? (n : Nat) (tokens : List Token) :
    Finds n tokens superclass? fun o n' rest => Is n tokens (.superclass o) n' rest := by
  refine (Finds.accept? .less).bind fun found n₁ r₁ => ?_
  cases found with
  | none =>
    refine .pure ?_
    rintro ⟨rfl, rfl, -⟩
    exact ⟨[], rfl, .noSuperclass⟩
  | some less =>
    refine (Finds.expectName .superclassName).bind fun name n₂ r₂ => ?_
    refine (Finds.occurrence name).bind fun o n₃ r₃ => .pure ?_
    rintro ⟨rfl, rfl, rfl⟩ ⟨t, rfl, named, rfl, rfl⟩ ⟨sign, rfl, rfl⟩
    exact ⟨[less, t], rfl, .superclass sign named⟩

theorem finds_jumpStatement (n : Nat) (tokens : List Token) (jump : Jump) (keyword : Token) :
    Finds n tokens (jumpStatement jump keyword) fun s n' rest => ∃ semicolon,
      n' = n ∧ tokens = semicolon :: rest ∧ semicolon.kind = .semicolon ∧
        s = match jump with
          | .break => .break keyword.line
          | .continue => .continue keyword.line := by
  refine (Finds.expect .semicolon _).bind fun semicolon n₁ r₁ => ?_
  cases jump <;>
  · refine .pure ?_
    rintro ⟨ends, rfl, rfl⟩
    exact ⟨semicolon, rfl, rfl, ends, rfl⟩

/-- A statement that is not followed by an `else` that could belong to it. -/
def IsStatement (n : Nat) (tokens : List Token) (s : Stmt) (n' : Nat) (rest : List Token) :
    Prop :=
  ∃ isOpen, Is n tokens (.statement isOpen s) n' rest ∧
    (isOpen → ∀ t ∈ rest.head?, t.kind ≠ .else)

/-- A statement that is closed. -/
theorem IsStatement.closed {n n' : Nat} {ts : List Token} {s : Stmt} (rest : List Token)
    (tree : Tree n ts (.statement false s) n') : IsStatement n (ts ++ rest) s n' rest :=
  ⟨false, ⟨ts, rfl, tree⟩, nofun⟩

/-- The declarations of a block and its closing brace. -/
def IsBody (n : Nat) (tokens : List Token) (ss : List Stmt) (n' : Nat) (rest : List Token) :
    Prop :=
  ∃ ts closing, tokens = ts ++ closing :: rest ∧ Tree n ts (.declarations ss) n' ∧
    closing.kind = .rightBrace

mutual

theorem finds_declaration (fuel n : Nat) (tokens : List Token) :
    Finds n tokens (declaration fuel) fun s n' rest => Is n tokens (.declaration s) n' rest := by
  cases fuel with
  | zero => exact .fail _
  | succ fuel =>
    rw [declaration]
    refine (Finds.accept? .classWord).bind fun found n₁ r₁ => ?_
    cases found with
    | some t =>
      refine (finds_classDeclaration fuel n₁ r₁).imp fun s n' rest => ?_
      rintro ⟨name, ts, superclass, n₂, opening, us, body, closing, rfl, rfl, named, parent, opens,
        inner, closes⟩ ⟨keyword, rfl, rfl⟩
      exact ⟨t :: name :: ts ++ opening :: us ++ [closing], by simp,
        .classDecl keyword named parent opens inner closes⟩
    | none =>
    refine (Finds.accept? .fun).bind fun found n₂ r₂ => ?_
    cases found with
    | some t =>
      refine (finds_function fuel n₂ r₂ .function).bind fun d n₃ r₃ => .pure ?_
      rintro ⟨ts, rfl, tree⟩ ⟨keyword, rfl, rfl⟩ ⟨rfl, rfl, -⟩
      exact ⟨t :: ts, rfl, .funDecl keyword tree⟩
    | none =>
    refine (Finds.accept? .var).bind fun found n₃ r₃ => ?_
    cases found with
    | some t =>
      refine (finds_variableDeclaration fuel n₃ r₃).imp fun s n' rest => ?_
      rintro ⟨ts, rfl, tree⟩ ⟨keyword, rfl, rfl⟩ ⟨rfl, rfl, -⟩ ⟨rfl, rfl, -⟩
      exact ⟨t :: ts, rfl, .varDecl keyword tree⟩
    | none =>
      refine (finds_statement fuel n₃ r₃).imp fun s n' rest => ?_
      -- three keywords were refused before this was read as a statement
      rintro ⟨isOpen, ⟨ts, rfl, tree⟩, -⟩ ⟨rfl, rfl, -⟩ ⟨rfl, rfl, -⟩ ⟨rfl, rfl, -⟩
      exact ⟨ts, rfl, .statement tree⟩

/-- The declarations found continue those already read. -/
theorem finds_declarations (fuel : Nat) (done : List Stmt) (n : Nat) (tokens : List Token) :
    Finds n tokens (declarations fuel done) fun found n' rest => ∃ ss,
      found = done.reverse ++ ss ∧ Is n tokens (.declarations ss) n' rest := by
  cases fuel with
  | zero => exact .fail _
  | succ fuel =>
    rw [declarations]
    refine (Finds.next .rightBrace).bind fun closed n₁ r₁ => ?_
    refine Finds.atEnd.bind fun ended n₂ r₂ => ?_
    split
    · refine .pure ?_
      rintro ⟨rfl, rfl, -⟩ ⟨rfl, rfl, -⟩
      exact ⟨[], by simp, [], rfl, .noDeclarations⟩
    · refine (finds_declaration fuel n₂ r₂).recovering.bind fun found n₃ r₃ => ?_
      cases found with
      | none =>
        refine (finds_declarations fuel done n₃ r₃).imp fun found n' rest => ?_
        -- a declaration given up has left an error, which the clean case excludes
        rintro - ⟨s, ⟨⟩, -⟩
      | some s =>
        refine (finds_declarations fuel _ n₃ r₃).imp fun found n' rest => ?_
        rintro ⟨ss, rfl, us, rfl, others⟩ ⟨s, ⟨⟩, ts, rfl, first⟩ ⟨rfl, rfl, -⟩ ⟨rfl, rfl, -⟩
        exact ⟨s :: ss, by simp, ts ++ us, by simp, .declarations first others⟩

theorem finds_block (fuel n : Nat) (tokens : List Token) :
    Finds n tokens (block fuel) (IsBody n tokens) := by
  cases fuel with
  | zero => exact .fail _
  | succ fuel =>
    rw [block]
    refine (finds_declarations fuel [] n tokens).bind fun body n₁ r₁ => ?_
    refine (Finds.expect .rightBrace .blockClose).bind fun closing n₂ r₂ => .pure ?_
    rintro ⟨closes, rfl, rfl⟩ ⟨ss, rfl, ts, rfl, inner⟩
    exact ⟨ts, closing, rfl, inner, closes⟩

theorem finds_function (fuel n : Nat) (tokens : List Token) (declared : Declared) :
    Finds n tokens (function fuel declared) fun d n' rest =>
      Is n tokens (.function d) n' rest := by
  cases fuel with
  | zero => exact .fail _
  | succ fuel =>
    rw [function]
    refine (Finds.expectName _).bind fun name n₁ r₁ => ?_
    refine (Finds.expect .leftParen _).bind fun opening n₂ r₂ => ?_
    refine (finds_parameterList fuel n₂ r₂).bind fun names n₃ r₃ => ?_
    refine (Finds.expect .rightParen .parametersClose).bind fun closing n₄ r₄ => ?_
    refine (Finds.expect .leftBrace _).bind fun brace n₅ r₅ => ?_
    refine (finds_block fuel n₅ r₅).bind fun body n₆ r₆ => .pure ?_
    rintro ⟨us, closingBrace, rfl, inner, ends⟩ ⟨begins, rfl, rfl⟩ ⟨closes, rfl, rfl⟩
      ⟨ts, rfl, list⟩ ⟨opens, rfl, rfl⟩ ⟨t, rfl, named, rfl, rfl⟩
    exact ⟨t :: opening :: ts ++ closing :: brace :: us ++ [closingBrace], by simp,
      .function named opens list closes begins inner ends⟩

theorem finds_methods (fuel : Nat) (done : List FunctionDecl) (n : Nat) (tokens : List Token) :
    Finds n tokens (methods fuel done) fun found n' rest => ∃ ds,
      found = done.reverse ++ ds ∧ Is n tokens (.methods ds) n' rest := by
  cases fuel with
  | zero => exact .fail _
  | succ fuel =>
    rw [methods]
    refine (Finds.next .rightBrace).bind fun closed n₁ r₁ => ?_
    refine Finds.atEnd.bind fun ended n₂ r₂ => ?_
    split
    · refine .pure ?_
      rintro ⟨rfl, rfl, -⟩ ⟨rfl, rfl, -⟩
      exact ⟨[], by simp, [], rfl, .noMethods⟩
    · refine (finds_function fuel n₂ r₂ .method).bind fun d n₃ r₃ => ?_
      refine (finds_methods fuel _ n₃ r₃).imp fun found n' rest => ?_
      rintro ⟨ds, rfl, us, rfl, others⟩ ⟨ts, rfl, first⟩ ⟨rfl, rfl, -⟩ ⟨rfl, rfl, -⟩
      exact ⟨d :: ds, by simp, ts ++ us, by simp, .methods first others⟩

/-- A class found has the name, superclass and methods its tokens give. -/
theorem finds_classDeclaration (fuel n : Nat) (tokens : List Token) :
    Finds n tokens (classDeclaration fuel) fun s n' rest =>
      ∃ name ts superclass n₁ opening us body closing,
        s = .classDecl name.asName superclass body ∧
        tokens = name :: ts ++ opening :: us ++ closing :: rest ∧ name.kind = .identifier ∧
        Tree n ts (.superclass superclass) n₁ ∧ opening.kind = .leftBrace ∧
        Tree n₁ us (.methods body) n' ∧ closing.kind = .rightBrace := by
  cases fuel with
  | zero => exact .fail _
  | succ fuel =>
    rw [classDeclaration]
    refine (Finds.expectName .className).bind fun name n₁ r₁ => ?_
    refine (finds_superclass? n₁ r₁).bind fun superclass n₂ r₂ => ?_
    refine (Finds.expect .leftBrace .classOpen).bind fun opening n₃ r₃ => ?_
    refine (finds_methods fuel [] n₃ r₃).bind fun body n₄ r₄ => ?_
    refine (Finds.expect .rightBrace .classClose).bind fun closing n₅ r₅ => .pure ?_
    -- the conditions come back in reverse, the closing brace first
    rintro ⟨closes, rfl, rfl⟩ ⟨ds, rfl, us, rfl, inner⟩ ⟨opens, rfl, rfl⟩ ⟨ts, rfl, parent⟩
      ⟨t, rfl, named, rfl, rfl⟩
    exact ⟨t, ts, superclass, _, opening, us, body, closing, rfl, by simp, named, parent, opens,
      inner, closes⟩

/-- A statement found is a tree of its tokens, closed or open as its last branch is. -/
theorem finds_statement (fuel n : Nat) (tokens : List Token) :
    Finds n tokens (statement fuel) (IsStatement n tokens) := by
  cases fuel with
  | zero => exact .fail _
  | succ fuel =>
    rw [statement]
    refine (Finds.accept? .for).bind fun found n₁ r₁ => ?_
    cases found with
    | some t =>
      refine (finds_loopClauses fuel n₁ r₁).bind fun clauses n₂ r₂ => ?_
      -- the body follows the clauses and decides whether the loop is open
      obtain ⟨initializer, condition, increment⟩ := clauses
      refine (finds_statement fuel n₂ r₂).bind fun body n₃ r₃ => .pure ?_
      rintro ⟨isOpen, ⟨ws, rfl, inner⟩, free⟩
        ⟨opening, ts, _, us, _, test, semicolon, vs, closing, rfl, opens, first, condition, rfl,
          ends, step, closes⟩ ⟨keyword, rfl, rfl⟩
      exact ⟨isOpen, ⟨t :: opening :: ts ++ us ++ semicolon :: vs ++ closing :: ws, by simp,
        .forLoop keyword opens first condition ends step closes inner (counts_iff.mpr rfl)⟩, free⟩
    | none =>
    refine (Finds.accept? .if).bind fun found n₂ r₂ => ?_
    cases found with
    | some t =>
      refine (finds_parenthesizedCondition fuel n₂ r₂ _).bind fun condition n₃ r₃ => ?_
      refine (finds_statement fuel n₃ r₃).bind fun yes n₄ r₄ => ?_
      refine (Finds.accept? .else).bind fun other n₅ r₅ => ?_
      cases other with
      | none =>
        refine .pure ?_
        rintro ⟨rfl, rfl, free⟩ ⟨isOpen, ⟨us, rfl, branch⟩, -⟩
          ⟨opening, ts, closing, rfl, opens, test, closes⟩ ⟨keyword, rfl, rfl⟩ ⟨rfl, rfl, -⟩
        exact ⟨true, ⟨t :: opening :: ts ++ closing :: us, by simp,
          .ifThen keyword opens test closes branch⟩, fun _ => free⟩
      | some other =>
        refine (finds_statement fuel n₅ r₅).bind fun no n₆ r₆ => .pure ?_
        rintro ⟨isOpen, ⟨vs, rfl, second⟩, free⟩ ⟨otherwise, rfl, rfl⟩
          ⟨opened, ⟨us, rfl, first⟩, closed⟩ ⟨opening, ts, closing, rfl, opens, test, closes⟩
          ⟨keyword, rfl, rfl⟩ ⟨rfl, rfl, -⟩
        cases opened with
        -- an open first part would have taken the else itself
        | true => exact absurd otherwise (closed rfl other rfl)
        | false =>
          exact ⟨isOpen, ⟨t :: opening :: ts ++ closing :: us ++ other :: vs, by simp,
            .ifElse keyword opens test closes first otherwise second⟩, free⟩
    | none =>
    refine (Finds.accept? .while).bind fun found n₃ r₃ => ?_
    cases found with
    | some t =>
      refine (finds_parenthesizedCondition fuel n₃ r₃ _).bind fun condition n₄ r₄ => ?_
      refine (finds_statement fuel n₄ r₄).bind fun body n₅ r₅ => .pure ?_
      rintro ⟨isOpen, ⟨us, rfl, inner⟩, free⟩ ⟨opening, ts, closing, rfl, opens, test, closes⟩
        ⟨keyword, rfl, rfl⟩ ⟨rfl, rfl, -⟩ ⟨rfl, rfl, -⟩
      exact ⟨isOpen, ⟨t :: opening :: ts ++ closing :: us, by simp,
        .whileLoop keyword opens test closes inner⟩, free⟩
    | none =>
    refine (Finds.accept? .return).bind fun found n₄ r₄ => ?_
    cases found with
    | some keyword =>
      refine (finds_expressionUnless fuel n₄ r₄ .semicolon).bind fun e n₅ r₅ => ?_
      refine (Finds.expect .semicolon .returnEnd).bind fun semicolon n₆ r₆ => .pure ?_
      rintro ⟨ends, rfl, rfl⟩ ⟨ts, rfl, value⟩ ⟨same, rfl, rfl⟩ ⟨rfl, rfl, -⟩ ⟨rfl, rfl, -⟩
        ⟨rfl, rfl, -⟩
      -- from here on every statement ends with a token of its own and is closed
      have closed := IsStatement.closed r₆ (.returns same value ends)
      simpa using closed
    | none =>
    refine (Finds.accept? .break).bind fun found n₅ r₅ => ?_
    cases found with
    | some keyword =>
      refine (finds_jumpStatement n₅ r₅ .break keyword).imp fun s n' rest => ?_
      rintro ⟨semicolon, rfl, rfl, ends, rfl⟩ ⟨same, rfl, rfl⟩ ⟨rfl, rfl, -⟩ ⟨rfl, rfl, -⟩
        ⟨rfl, rfl, -⟩ ⟨rfl, rfl, -⟩
      exact .closed _ (.breaks same ends)
    | none =>
    refine (Finds.accept? .continue).bind fun found n₆ r₆ => ?_
    cases found with
    | some keyword =>
      refine (finds_jumpStatement n₆ r₆ .continue keyword).imp fun s n' rest => ?_
      rintro ⟨semicolon, rfl, rfl, ends, rfl⟩ ⟨same, rfl, rfl⟩ ⟨rfl, rfl, -⟩ ⟨rfl, rfl, -⟩
        ⟨rfl, rfl, -⟩ ⟨rfl, rfl, -⟩ ⟨rfl, rfl, -⟩
      exact .closed _ (.continues same ends)
    | none =>
    refine (Finds.accept? .leftBrace).bind fun found n₇ r₇ => ?_
    cases found with
    | some opening =>
      refine (finds_block fuel n₇ r₇).bind fun body n₈ r₈ => .pure ?_
      rintro ⟨ts, closing, rfl, inner, closes⟩ ⟨opens, rfl, rfl⟩ ⟨rfl, rfl, -⟩ ⟨rfl, rfl, -⟩
        ⟨rfl, rfl, -⟩ ⟨rfl, rfl, -⟩ ⟨rfl, rfl, -⟩ ⟨rfl, rfl, -⟩
      have closed := IsStatement.closed r₈ (.block opens inner closes)
      simpa using closed
    | none =>
    refine (Finds.accept? .print).bind fun found n₈ r₈ => ?_
    cases found with
    | some keyword =>
      refine (finds_assignment fuel n₈ r₈).bind fun e n₉ r₉ => ?_
      refine (Finds.expect .semicolon .printEnd).bind fun semicolon n₁₀ r₁₀ => .pure ?_
      rintro ⟨ends, rfl, rfl⟩ ⟨ts, rfl, value⟩ ⟨same, rfl, rfl⟩ ⟨rfl, rfl, -⟩ ⟨rfl, rfl, -⟩
        ⟨rfl, rfl, -⟩ ⟨rfl, rfl, -⟩ ⟨rfl, rfl, -⟩ ⟨rfl, rfl, -⟩ ⟨rfl, rfl, -⟩
      have closed := IsStatement.closed r₁₀ (.print same value ends)
      simpa using closed
    | none =>
      refine (finds_expressionStatement fuel n₈ r₈).imp fun s n' rest => ?_
      rintro ⟨ts, rfl, tree⟩ ⟨rfl, rfl, -⟩ ⟨rfl, rfl, -⟩ ⟨rfl, rfl, -⟩ ⟨rfl, rfl, -⟩ ⟨rfl, rfl, -⟩
        ⟨rfl, rfl, -⟩ ⟨rfl, rfl, -⟩ ⟨rfl, rfl, -⟩
      exact .closed _ (.expressionStatement tree)

end

/-! ## Whole texts -/

/-- A program found takes all the tokens. -/
theorem finds_declarationsToEnd (fuel : Nat) (done : List Stmt) (n : Nat)
    (tokens : List Token) : Finds n tokens (declarationsToEnd fuel done) fun found n' rest =>
      ∃ ss, found = done.reverse ++ ss ∧ rest = [] ∧ Tree n tokens (.declarations ss) n' := by
  induction fuel generalizing done n tokens with
  | zero => exact .fail _
  | succ fuel ih =>
    rw [declarationsToEnd]
    refine Finds.atEnd.bind fun ended n₁ r₁ => ?_
    cases ended with
    | true =>
      refine .pure ?_
      rintro ⟨rfl, rfl, ends⟩
      obtain rfl := List.isEmpty_iff.mp ends.symm
      exact ⟨[], by simp, rfl, .noDeclarations⟩
    | false =>
      refine (finds_declaration fuel n₁ r₁).recovering.bind fun found n₂ r₂ => ?_
      cases found with
      | none =>
        refine (ih done n₂ r₂).imp fun found n' rest => ?_
        -- a declaration given up has left an error, which the clean case excludes
        rintro - ⟨s, ⟨⟩, -⟩
      | some s =>
        refine (ih _ n₂ r₂).imp fun found n' rest => ?_
        rintro ⟨ss, rfl, rfl, others⟩ ⟨s, ⟨⟩, ts, rfl, first⟩ ⟨rfl, rfl, -⟩
        exact ⟨s :: ss, by simp, rfl, .declarations first others⟩

theorem finds_wholeExpression (fuel n : Nat) (tokens : List Token) :
    Finds n tokens (wholeExpression fuel) fun e n' rest =>
      rest = [] ∧ Tree n tokens (.assignment e) n' := by
  refine (finds_assignment fuel n tokens).bind fun e n₁ r₁ => ?_
  refine Finds.atEnd.bind fun ended n₂ r₂ => ?_
  cases ended with
  | true =>
    refine .pure ?_
    rintro ⟨rfl, rfl, ends⟩ ⟨ts, rfl, tree⟩
    obtain rfl := List.isEmpty_iff.mp ends.symm
    exact ⟨rfl, by rwa [List.append_nil]⟩
  | false => exact (Finds.report _).bind fun _ _ _ => .pure False.elim

/-- What is read by a parser that began without errors. -/
theorem Finds.run {α : Type} {p : Parser α} {s : State} {post : α → Nat → List Token → Prop}
    (finds : Finds s.nextId s.rest p post) (clean : s.errors = []) {a : α} {s' : State}
    (read : s.run p = (.ok a, s')) : post a s'.nextId s'.rest := by
  have ends := finds s rfl rfl
  unfold State.run at read
  cases hp : p s with
  | error e s'' =>
    rw [hp] at read
    cases read
  | ok b s'' =>
    rw [hp] at read ends
    simp only [State.conclude] at read
    split at read
    · next none =>
      cases read
      exact ends.2 (by rw [none, clean])
    · cases read

end ClassScript.Parsing
