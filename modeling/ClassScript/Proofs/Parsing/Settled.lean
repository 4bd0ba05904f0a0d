import ClassScript.Proofs.Parsing.Complete
import ClassScript.Proofs.Parsing.Runs

/-!
# Parsers that have fuel enough

A parser with fuel enough for its tokens does what it does with any more fuel, and never stops
for want of it (`Settles`, one lemma for each parser). What carries this is progress: what a
construct may call before it has taken a token is bounded by a number for each construct, and
every token pays for 32 calls. So the loops of a parser, which go on for as long as there is
something to read, come to an end by themselves: each round takes a token, or skips the one at
which it failed.
-/

namespace ClassScript.Parsing

open Source Syntax

/-- The first parser reads the tokens and does as the second one does, in a run in which no
fuel is missing. If it succeeds, it has taken so many tokens at least. -/
def Settles {α : Type} (tokens : List Token) (count : Nat) (p q : Parser α) : Prop :=
  ∀ s : State, s.rest = tokens → ∃ log, Runs p s log (p s) ∧ q s = p s ∧
    (∀ error ∈ log, error.cause ≠ .nestingTooDeep) ∧
    ∀ a t, p s = .ok a t → t.rest.length + count ≤ tokens.length

/-- An error at the next token is not for want of fuel if its cause is not. -/
theorem fed_errorHere {cause : SyntaxCause} (fed : cause ≠ .nestingTooDeep) (s : State) :
    ∀ error ∈ [s.errorHere cause], error.cause ≠ .nestingTooDeep := by
  intro error among
  obtain rfl := List.mem_singleton.mp among
  unfold State.errorHere
  split <;> exact fed

namespace Settles

variable {α β : Type} {tokens rest : List Token} {count : Nat} {p q : Parser α}
  {f g : α → Parser β}

/-- What takes many tokens takes fewer. -/
theorem mono {fewer : Nat} (h : Settles tokens count p q) (le : fewer ≤ count) :
    Settles tokens fewer p q := by
  intro s left
  obtain ⟨log, runs, same, fed, taken⟩ := h s left
  exact ⟨log, runs, same, fed, fun a t ran => by have := taken a t ran; omega⟩

theorem any (h : Settles tokens count p q) : Settles tokens 0 p q := h.mono (Nat.zero_le _)

theorem pure (a : α) : Settles tokens 0 (pure a) (pure a) := by
  rintro s rfl
  refine ⟨[], .pure, rfl, nofun, ?_⟩
  rintro _ _ ⟨⟩
  exact Nat.le_refl _

/-- What comes behind a parser may count on the tokens that this one has taken. -/
theorem seq {fewer : Nat} (first : Settles tokens count p q)
    (second : ∀ a rest, rest.length + count ≤ tokens.length →
      Settles rest fewer (f a) (g a)) :
    Settles tokens (count + fewer) (p >>= f) (q >>= g) := by
  intro s left
  obtain ⟨log, runs, same, fed, taken⟩ := first s left
  show ∃ log, Runs (p >>= f) s log (EStateM.bind p f s) ∧
    EStateM.bind q g s = EStateM.bind p f s ∧ _ ∧ ∀ a t, EStateM.bind p f s = .ok a t → _
  unfold EStateM.bind
  rw [same]
  cases ran : p s with
  | error error t =>
    rw [ran] at runs
    exact ⟨log, .stopped runs, rfl, fed, nofun⟩
  | ok a t =>
    rw [ran] at runs
    have fewer := taken a t ran
    -- what the first part left is what the second part has to go on
    obtain ⟨more, runs', same', fed', taken'⟩ := second a t.rest fewer t rfl
    refine ⟨log ++ more, .bind runs runs', same', fun error among => ?_, fun b u ran' => ?_⟩
    · exact (List.mem_append.mp among).elim (fed error) (fed' error)
    · have := taken' b u ran'
      omega

/-- Two parsers one after the other; the second may rely on what the first has taken. -/
theorem bind (first : Settles tokens count p q)
    (second : ∀ a rest, rest.length + count ≤ tokens.length → Settles rest 0 (f a) (g a)) :
    Settles tokens count (p >>= f) (q >>= g) := first.seq second

/-- A quiet operation in front of a parser. -/
theorem quiet (op : Quiet p) (second : ∀ s a t, s.rest = tokens → p s = .ok a t →
      Settles t.rest (t.rest.length + count - tokens.length) (f a) (g a)) :
    Settles tokens count (p >>= f) (p >>= g) := by
  intro s left
  obtain ⟨a, t, ran, -, onward⟩ := op.gives s
  obtain ⟨log, runs, same, fed, taken⟩ := second s a t left ran t rfl
  have step (f : α → Parser β) : (p >>= f) s = f a t := by
    show EStateM.bind p f s = _
    rw [EStateM.bind, ran]
  rw [step, step]
  have runs' : Runs (p >>= f) s ([] ++ log) (f a t) := .bind (.quiet op ran) runs
  refine ⟨log, runs', same, fed, fun b u ran' => ?_⟩
  have := taken b u ran'
  have := onward.length
  rw [left] at this
  omega

/-- A choice by the next token. Where it is taken, one token fewer is left to ask for. -/
theorem accept? {kind : Kind} {f g : Option Token → Parser β}
    (yes : ∀ t rest, rest.length + 1 ≤ tokens.length →
      Settles rest (count - 1) (f (some t)) (g (some t)))
    (no : Settles tokens count (f none) (g none)) :
    Settles tokens count (accept? kind >>= f) (accept? kind >>= g) := by
  refine quiet (.accept kind) fun s a t left ran => ?_
  -- nothing is taken unless the kind is the one at hand
  have stays : t = s → a = none →
      Settles t.rest (t.rest.length + count - tokens.length) (f a) (g a) := by
    rintro rfl rfl
    rw [left]
    exact no.mono (by omega)
  unfold Parsing.accept? at ran
  cases shape : s.rest with
  | nil =>
    rw [shape] at ran
    cases ran
    exact stays rfl rfl
  | cons token rest =>
    rw [shape] at ran
    dsimp only at ran
    split at ran
    · cases ran
      have whole : tokens = token :: rest := left.symm.trans shape
      refine (yes token rest (by rw [whole]; exact Nat.le_refl _)).mono ?_
      rw [whole, List.length_cons]
      dsimp only
      omega
    · cases ran
      exact stays rfl rfl

theorem next {kind : Kind} {f g : Bool → Parser β}
    (h : ∀ found, Settles tokens count (f found) (g found)) :
    Settles tokens count (next kind >>= f) (next kind >>= g) := by
  refine quiet (.next kind) fun s a t left ran => ?_
  obtain rfl : t = s := by
    unfold Parsing.next at ran
    cases shape : s.rest <;> rw [shape] at ran <;> cases ran <;> rfl
  rw [left]
  exact (h a).mono (by omega)

theorem atEnd {f g : Bool → Parser β}
    (h : Settles tokens count (f tokens.isEmpty) (g tokens.isEmpty)) :
    Settles tokens count (atEnd >>= f) (atEnd >>= g) := by
  refine quiet .atEnd fun s a t left ran => ?_
  cases ran
  rw [left]
  exact h.mono (by omega)

theorem freshId {f g : NodeId → Parser β} (h : ∀ id, Settles tokens count (f id) (g id)) :
    Settles tokens count (freshId >>= f) (freshId >>= g) := by
  refine quiet .freshId fun s a t left ran => ?_
  cases ran
  dsimp only
  rw [left]
  exact (h _).mono (by omega)

theorem occurrence {name : Name} {f g : Occurrence → Parser β}
    (h : ∀ o, Settles tokens count (f o) (g o)) :
    Settles tokens count (occurrence name >>= f) (occurrence name >>= g) := by
  simp only [Parsing.occurrence, bind_assoc, pure_bind]
  exact freshId fun id => h _

/-- A token is taken that stands for something, or nothing is. -/
theorem perhaps {γ : Type} {op : Parser (Option γ)} {f g : Option γ → Parser β}
    (quiet : Quiet op)
    (takes : ∀ s found t, op s = .ok (some found) t → ∃ token, s.rest = token :: t.rest)
    (leaves : ∀ s t, op s = .ok none t → t.rest = s.rest)
    (yes : ∀ found rest, rest.length + 1 ≤ tokens.length →
      Settles rest (count - 1) (f (some found)) (g (some found)))
    (no : Settles tokens count (f none) (g none)) :
    Settles tokens count (op >>= f) (op >>= g) := by
  refine Settles.quiet quiet fun s a t left ran => ?_
  cases a with
  | none =>
    rw [leaves s t ran, left]
    exact no.mono (by omega)
  | some found =>
    -- what was found cost one token
    obtain ⟨token, shape⟩ := takes s found t ran
    have whole : tokens = token :: t.rest := left.symm.trans shape
    refine (yes found t.rest (by rw [whole]; exact Nat.le_refl _)).mono ?_
    rw [whole, List.length_cons]
    omega

theorem fail {cause : SyntaxCause} (fed : cause ≠ .nestingTooDeep) :
    Settles tokens count (fail cause : Parser α) (Parsing.fail cause) := by
  rintro s rfl
  exact ⟨_, .fail, rfl, fed_errorHere fed s, nofun⟩

/-- A token that is required is taken, or the failure is not for want of fuel. -/
theorem expect {kind : Kind} {cause : SyntaxCause} (fed : cause ≠ .nestingTooDeep) :
    Settles tokens 1 (expect kind cause) (Parsing.expect kind cause) := by
  rintro s rfl
  -- the error is the same whether the tokens ran out or another one is at hand
  have missing (other : ∀ t ∈ s.rest.head?, t.kind ≠ kind) : ∃ log,
      Runs (Parsing.expect kind cause) s log (Parsing.expect kind cause s) ∧
      Parsing.expect kind cause s = Parsing.expect kind cause s ∧
      (∀ error ∈ log, error.cause ≠ .nestingTooDeep) ∧
      ∀ a t, Parsing.expect kind cause s = .ok a t → t.rest.length + 1 ≤ s.rest.length := by
    have runs : Runs (Parsing.expect kind cause) s _ _ := .missing other
    rw [runs.sound]
    exact ⟨_, runs, rfl, fed_errorHere fed s, nofun⟩
  cases left : s.rest with
  | nil => rw [← left]; exact missing (by rw [left]; nofun)
  | cons token rest =>
    by_cases same : token.kind = kind
    · have runs : Runs (Parsing.expect kind cause) s _ _ := .expect left same
      rw [runs.sound]
      refine ⟨_, runs, rfl, nofun, ?_⟩
      rintro _ _ ⟨⟩
      exact Nat.le_refl _
    · rw [← left]
      refine missing ?_
      rw [left]
      rintro _ ⟨⟩
      exact same

theorem expectName {cause : SyntaxCause} (fed : cause ≠ .nestingTooDeep) :
    Settles tokens 1 (expectName cause) (Parsing.expectName cause) :=
  (expect fed).bind fun _ _ _ => .pure _

/-- An error that is noted in passing. -/
theorem report {cause : SyntaxCause} (fed : cause ≠ .nestingTooDeep) {f g : Unit → Parser β}
    (h : Settles tokens count (f ()) (g ())) :
    Settles tokens count (report cause >>= f) (Parsing.report cause >>= g) := by
  intro s left
  obtain ⟨log, runs, same, fed', taken⟩ := h (s.record (s.errorHere cause)) left
  refine ⟨_, .bind .report runs, same, fun error among => ?_, taken⟩
  exact (List.mem_append.mp among).elim (fed_errorHere fed s error) (fed' error)

theorem reportAt {token : Token} {cause : SyntaxCause} (fed : cause ≠ .nestingTooDeep) :
    Settles tokens 0 (reportAt token cause) (Parsing.reportAt token cause) := by
  rintro s rfl
  refine ⟨_, .reportAt, rfl, fun error among => ?_, ?_⟩
  · obtain rfl := List.mem_singleton.mp among
    exact fed
  · rintro _ _ ⟨⟩
    exact Nat.le_refl _

/-- A declaration that fails has skipped a token at least, if there is one. -/
theorem recovering (h : Settles tokens 1 p q) (more : tokens ≠ []) :
    Settles tokens 1 (recovering p) (Parsing.recovering q) := by
  intro s left
  obtain ⟨log, runs, same, fed, taken⟩ := h s left
  unfold Parsing.recovering
  rw [same]
  cases ran : p s with
  | ok a t =>
    rw [ran] at runs
    refine ⟨log, .unhurt runs, rfl, fed, ?_⟩
    rintro _ _ ⟨⟩
    exact taken a t ran
  | error error t =>
    rw [ran] at runs
    refine ⟨log, .recovered runs, rfl, fed, ?_⟩
    rintro _ _ ⟨⟩
    -- the token that the failed part stopped at is skipped, so one less is left
    have skipped := (rest_synchronize (t.record error)).length_le
    have before := runs.onward.length
    have some : 0 < tokens.length := List.length_pos_iff.mpr more
    rw [left] at before
    rw [List.length_tail] at skipped
    have kept : (t.record error).rest = t.rest := rfl
    rw [kept] at skipped
    simp only [Ending.state] at before
    omega

/-! ### Operations that take a token that stands for something -/

theorem acceptInfix? {level : Level} {f g : Option (InfixOp × Token) → Parser β}
    (yes : ∀ found rest, rest.length + 1 ≤ tokens.length →
      Settles rest (count - 1) (f (some found)) (g (some found)))
    (no : Settles tokens count (f none) (g none)) :
    Settles tokens count (acceptInfix? level >>= f) (Parsing.acceptInfix? level >>= g) := by
  refine perhaps (.acceptInfix level) (fun s found t ran => ?_) (fun s t ran => ?_) yes no
  all_goals
    unfold Parsing.acceptInfix? at ran
    split at ran
    · split at ran
      · split at ran <;> cases ran
        first | exact ⟨_, ‹_›⟩ | rfl
      · cases ran <;> rfl
    · cases ran <;> rfl

theorem acceptPrefix? {f g : Option (UnaryOp × Token) → Parser β}
    (yes : ∀ found rest, rest.length + 1 ≤ tokens.length →
      Settles rest (count - 1) (f (some found)) (g (some found)))
    (no : Settles tokens count (f none) (g none)) :
    Settles tokens count (acceptPrefix? >>= f) (Parsing.acceptPrefix? >>= g) := by
  refine perhaps .acceptPrefix (fun s found t ran => ?_) (fun s t ran => ?_) yes no
  all_goals
    unfold Parsing.acceptPrefix? at ran
    split at ran
    · split at ran <;> cases ran
      first | exact ⟨_, ‹_›⟩ | rfl
    · cases ran <;> rfl

theorem acceptLiteral? {f g : Option Literal → Parser β}
    (yes : ∀ found rest, rest.length + 1 ≤ tokens.length →
      Settles rest (count - 1) (f (some found)) (g (some found)))
    (no : Settles tokens count (f none) (g none)) :
    Settles tokens count (acceptLiteral? >>= f) (Parsing.acceptLiteral? >>= g) := by
  refine perhaps .acceptLiteral (fun s found t ran => ?_) (fun s t ran => ?_) yes no
  all_goals
    unfold Parsing.acceptLiteral? at ran
    split at ran
    · split at ran <;> cases ran
      first | exact ⟨_, ‹_›⟩ | rfl
    · cases ran <;> rfl

end Settles

/-! ## Expressions -/

theorem settles_superAccess {tokens : List Token} (keyword : Token) :
    Settles tokens 1 (superAccess keyword) (superAccess keyword) :=
  (Settles.expect (by decide)).bind fun _ _ _ =>
    (Settles.expectName (by decide)).any.bind fun _ _ _ => .freshId fun _ => .pure _

theorem settles_assignTo {tokens : List Token} (target : Expr) (equals : Token) (value : Expr) :
    Settles tokens 0 (assignTo target equals value) (assignTo target equals value) := by
  unfold assignTo
  split
  · exact .occurrence fun _ => .pure _
  · exact .pure _
  · exact (Settles.reportAt (by decide)).bind fun _ _ _ => .pure _

mutual

theorem settles_assignment {fuel more : Nat} {tokens : List Token}
    (enough : 32 * tokens.length + 15 ≤ fuel) (le : fuel ≤ more) :
    Settles tokens 1 (assignment fuel) (assignment more) := by
  match fuel, more with
  | 0, _ | _ + 1, 0 => omega
  | fuel + 1, more + 1 =>
    rw [assignment, assignment]
    have deep : 32 * tokens.length + Level.or.depth ≤ fuel := by show _ + 14 ≤ _; omega
    refine (settles_infixChain .or deep (by omega)).bind fun target rest fewer => ?_
    refine .accept? (fun equals rest' fewer' => ?_) (.pure _)
    exact (settles_assignment (by omega) (by omega)).any.bind fun value _ _ =>
      settles_assignTo _ _ _

theorem settles_infixChain {fuel more : Nat} {tokens : List Token} (level : Level)
    (enough : 32 * tokens.length + level.depth ≤ fuel) (le : fuel ≤ more) :
    Settles tokens 1 (infixChain fuel level) (infixChain more level) := by
  have depth : 1 ≤ level.depth := by cases level <;> decide
  match fuel, more with
  | 0, _ | _ + 1, 0 => omega
  | fuel + 1, more + 1 =>
    rw [infixChain, infixChain]
    exact (settles_operand level (by omega) (by omega)).bind fun left rest fewer =>
      settles_infixRest level left (by omega) (by omega)

theorem settles_infixRest {fuel more : Nat} {tokens : List Token} (level : Level) (left : Expr)
    (enough : 32 * tokens.length + 1 ≤ fuel) (le : fuel ≤ more) :
    Settles tokens 0 (infixRest fuel level left) (infixRest more level left) := by
  have depth : level.depth ≤ 14 := by cases level <;> decide
  match fuel, more with
  | 0, _ | _ + 1, 0 => omega
  | fuel + 1, more + 1 =>
    rw [infixRest, infixRest]
    refine .acceptInfix? (fun found rest fewer => ?_) (.pure _)
    exact (settles_operand level (by omega) (by omega)).any.bind fun right rest' fewer' =>
      settles_infixRest level _ (by omega) (by omega)

theorem settles_operand {fuel more : Nat} {tokens : List Token} (level : Level)
    (enough : 32 * tokens.length + (level.depth - 1) ≤ fuel) (le : fuel ≤ more) :
    Settles tokens 1 (operand fuel level) (operand more level) := by
  have depth : 1 ≤ level.depth - 1 := by cases level <;> decide
  match fuel, more with
  | 0, _ | _ + 1, 0 => omega
  | fuel + 1, more + 1 =>
    rw [operand, operand]
    unfold Level.depth at depth enough
    cases next : level.tighter? with
    | some tighter =>
      obtain ⟨rank, -⟩ := rank_tighter next
      exact settles_infixChain tighter (by unfold Level.depth; omega) (by omega)
    | none =>
      have rank := rank_tightest next
      exact settles_unary (by omega) (by omega)

theorem settles_unary {fuel more : Nat} {tokens : List Token}
    (enough : 32 * tokens.length + 2 ≤ fuel) (le : fuel ≤ more) :
    Settles tokens 1 (unary fuel) (unary more) := by
  match fuel, more with
  | 0, _ | _ + 1, 0 => omega
  | fuel + 1, more + 1 =>
    rw [unary, unary]
    refine .acceptPrefix? (fun found rest fewer => ?_) ?_
    · exact (settles_unary (by omega) (by omega)).any.bind fun _ _ _ => .pure _
    · exact (settles_primary (by omega) (by omega)).bind fun subject rest fewer =>
        settles_accessRest subject (by omega) (by omega)

theorem settles_accessRest {fuel more : Nat} {tokens : List Token} (subject : Expr)
    (enough : 32 * tokens.length + 1 ≤ fuel) (le : fuel ≤ more) :
    Settles tokens 0 (accessRest fuel subject) (accessRest more subject) := by
  match fuel, more with
  | 0, _ | _ + 1, 0 => omega
  | fuel + 1, more + 1 =>
    rw [accessRest, accessRest]
    refine .accept? (fun _ rest fewer => ?_) (.accept? (fun _ rest fewer => ?_) (.pure _))
    · refine (settles_argumentList (by omega) (by omega)).bind fun arguments rest' fewer' => ?_
      exact (Settles.expect (by decide)).any.bind fun close rest'' fewer'' =>
        settles_accessRest _ (by omega) (by omega)
    · exact (Settles.expectName (by decide)).any.bind fun name rest' fewer' =>
        settles_accessRest _ (by omega) (by omega)

theorem settles_argumentList {fuel more : Nat} {tokens : List Token}
    (enough : 32 * tokens.length + 17 ≤ fuel) (le : fuel ≤ more) :
    Settles tokens 0 (argumentList fuel) (argumentList more) := by
  match fuel, more with
  | 0, _ | _ + 1, 0 => omega
  | fuel + 1, more + 1 =>
    rw [argumentList, argumentList]
    refine .next fun closed => ?_
    cases closed with
    | true => exact .pure _
    | false => exact (settles_arguments [] (by omega) (by omega)).any

theorem settles_arguments {fuel more : Nat} {tokens : List Token} (done : List Expr)
    (enough : 32 * tokens.length + 16 ≤ fuel) (le : fuel ≤ more) :
    Settles tokens 1 (arguments fuel done) (arguments more done) := by
  match fuel, more with
  | 0, _ | _ + 1, 0 => omega
  | fuel + 1, more + 1 =>
    -- with or without an error about the limit the next argument is read
    have argument : Settles tokens 1
        (assignment fuel >>= fun argument => accept? .comma >>= fun comma =>
          match comma with
          | some _ => arguments fuel (argument :: done)
          | none => pure (argument :: done).reverse)
        (assignment more >>= fun argument => accept? .comma >>= fun comma =>
          match comma with
          | some _ => arguments more (argument :: done)
          | none => pure (argument :: done).reverse) := by
      refine (settles_assignment (by omega) (by omega)).bind fun argument rest fewer => ?_
      exact .accept? (fun _ rest' fewer' => (settles_arguments _ (by omega) (by omega)).any)
        (.pure _)
    rw [arguments, arguments]
    dsimp only
    split
    · exact .report (by decide) argument
    · exact argument

/-- A primary expression settles with one call beyond those for its tokens. -/
theorem settles_primary {fuel more : Nat} {tokens : List Token}
    (enough : 32 * tokens.length + 1 ≤ fuel) (le : fuel ≤ more) :
    Settles tokens 1 (primary fuel) (primary more) := by
  match fuel, more with
  | 0, _ | _ + 1, 0 => omega
  | fuel + 1, more + 1 =>
    rw [primary, primary]
    refine .acceptLiteral? (fun _ _ _ => .pure _) ?_
    refine .accept? (fun _ _ _ => .freshId fun _ => .pure _) ?_
    refine .accept? (fun token _ _ => (settles_superAccess token).any) ?_
    refine .accept? (fun _ _ _ => .occurrence fun _ => .pure _) ?_
    refine .accept? (fun _ rest fewer => ?_) (.fail (by decide))
    exact (settles_assignment (by omega) (by omega)).any.bind fun inner _ _ =>
      (Settles.expect (by decide)).any.bind fun _ _ _ => .pure _

end

theorem settles_expression {fuel more : Nat} {tokens : List Token}
    (enough : 32 * tokens.length + 15 ≤ fuel) (le : fuel ≤ more) :
    Settles tokens 1 (expression fuel) (expression more) := settles_assignment enough le

/-! ## Statements without statements inside -/

theorem settles_expressionUnless {fuel more : Nat} {tokens : List Token} (kind : Kind)
    (enough : 32 * tokens.length + 15 ≤ fuel) (le : fuel ≤ more) :
    Settles tokens 0 (expressionUnless fuel kind) (expressionUnless more kind) := by
  refine .next fun there => ?_
  cases there with
  | true => exact .pure _
  | false => exact (settles_expression enough le).any.bind fun _ _ _ => .pure _

theorem settles_variableDeclaration {fuel more : Nat} {tokens : List Token}
    (enough : 32 * tokens.length + 15 ≤ fuel) (le : fuel ≤ more) :
    Settles tokens 1 (variableDeclaration fuel) (variableDeclaration more) := by
  refine (Settles.expectName (by decide)).bind fun name rest fewer => ?_
  have close (name : Name) (initializer : Option Expr) {rest : List Token} :
      Settles rest 0 (expect .semicolon .variableEnd >>= fun _ => pure (Stmt.var name initializer))
        (expect .semicolon .variableEnd >>= fun _ => pure (Stmt.var name initializer)) :=
    (Settles.expect (by decide)).any.bind fun _ _ _ => .pure _
  refine .accept? (fun _ rest' fewer' => ?_) (close name none)
  exact (settles_expression (by omega) le).any.bind fun e _ _ => close name (some e)

theorem settles_expressionStatement {fuel more : Nat} {tokens : List Token}
    (enough : 32 * tokens.length + 15 ≤ fuel) (le : fuel ≤ more) :
    Settles tokens 1 (expressionStatement fuel) (expressionStatement more) :=
  (settles_expression enough le).bind fun _ _ _ =>
    (Settles.expect (by decide)).any.bind fun _ _ _ => .pure _

theorem settles_printStatement {fuel more : Nat} {tokens : List Token}
    (enough : 32 * tokens.length + 15 ≤ fuel) (le : fuel ≤ more) :
    Settles tokens 1 (printStatement fuel) (printStatement more) :=
  (settles_expression enough le).bind fun _ _ _ =>
    (Settles.expect (by decide)).any.bind fun _ _ _ => .pure _

theorem settles_returnStatement {fuel more : Nat} {tokens : List Token} (keyword : Token)
    (enough : 32 * tokens.length + 15 ≤ fuel) (le : fuel ≤ more) :
    Settles tokens 0 (returnStatement fuel keyword) (returnStatement more keyword) :=
  (settles_expressionUnless .semicolon enough le).bind fun _ _ _ =>
    (Settles.expect (by decide)).any.bind fun _ _ _ => .pure _

theorem settles_jumpStatement {tokens : List Token} (jump : Jump) (keyword : Token) :
    Settles tokens 1 (jumpStatement jump keyword) (jumpStatement jump keyword) := by
  refine (Settles.expect (by simp)).bind fun _ _ _ => ?_
  cases jump <;> exact .pure _

theorem settles_loopInitializer {fuel more : Nat} {tokens : List Token}
    (enough : 32 * tokens.length + 15 ≤ fuel) (le : fuel ≤ more) :
    Settles tokens 1 (loopInitializer fuel) (loopInitializer more) := by
  refine .accept? (fun _ _ _ => .pure _) (.accept? (fun _ rest fewer => ?_) ?_)
  · exact (settles_variableDeclaration (by omega) le).any.bind fun _ _ _ => .pure _
  · exact (settles_expressionStatement enough le).bind fun _ _ _ => .pure _

theorem settles_loopClauses {fuel more : Nat} {tokens : List Token}
    (enough : 32 * tokens.length + 15 ≤ fuel) (le : fuel ≤ more) :
    Settles tokens 1 (loopClauses fuel) (loopClauses more) := by
  refine (Settles.expect (by decide)).bind fun _ rest fewer => ?_
  refine (settles_loopInitializer (by omega) le).any.bind fun initializer rest' fewer' => ?_
  refine (settles_expressionUnless .semicolon (by omega) le).bind fun condition rest'' fewer'' => ?_
  refine (Settles.expect (by decide)).any.bind fun _ last behind => ?_
  refine (settles_expressionUnless .rightParen (by omega) le).bind fun increment _ _ => ?_
  exact (Settles.expect (by decide)).any.bind fun _ _ _ => .pure _

theorem settles_parenthesizedCondition {fuel more : Nat} {tokens : List Token}
    {opening : SyntaxCause} (fed : opening ≠ .nestingTooDeep)
    (enough : 32 * tokens.length + 15 ≤ fuel) (le : fuel ≤ more) :
    Settles tokens 1 (parenthesizedCondition fuel opening)
      (parenthesizedCondition more opening) := by
  refine (Settles.expect fed).bind fun _ rest fewer => ?_
  refine (settles_expression (by omega) le).any.bind fun condition _ _ => ?_
  exact (Settles.expect (by decide)).any.bind fun _ _ _ => .pure _

theorem settles_parameters {fuel more : Nat} {tokens : List Token} (done : List Name)
    (enough : 32 * tokens.length + 1 ≤ fuel) (le : fuel ≤ more) :
    Settles tokens 1 (parameters fuel done) (parameters more done) := by
  match fuel, more with
  | 0, _ | _ + 1, 0 => omega
  | fuel + 1, more + 1 =>
    -- with or without an error about the limit the next name is read
    have parameter : Settles tokens 1
        (expectName .parameterName >>= fun name => accept? .comma >>= fun comma =>
          match comma with
          | some _ => parameters fuel (name :: done)
          | none => pure (name :: done).reverse)
        (expectName .parameterName >>= fun name => accept? .comma >>= fun comma =>
          match comma with
          | some _ => parameters more (name :: done)
          | none => pure (name :: done).reverse) := by
      refine (Settles.expectName (by decide)).bind fun name rest fewer => ?_
      exact .accept? (fun _ rest' fewer' => (settles_parameters _ (by omega) (by omega)).any)
        (.pure _)
    rw [parameters, parameters]
    dsimp only
    split
    · exact .report (by decide) parameter
    · exact parameter

theorem settles_parameterList {fuel more : Nat} {tokens : List Token}
    (enough : 32 * tokens.length + 1 ≤ fuel) (le : fuel ≤ more) :
    Settles tokens 0 (parameterList fuel) (parameterList more) := by
  refine .next fun closed => ?_
  cases closed with
  | true => exact .pure _
  | false => exact (settles_parameters [] enough le).any

theorem settles_superclass? {tokens : List Token} : Settles tokens 0 superclass? superclass? :=
  .accept? (fun _ _ _ => (Settles.expectName (by decide)).any.bind fun _ _ _ =>
    .occurrence fun _ => .pure _) (.pure _)

/-! ## Statements and declarations -/

mutual

theorem settles_declaration {fuel more : Nat} {tokens : List Token}
    (enough : 32 * tokens.length + 17 ≤ fuel) (le : fuel ≤ more) :
    Settles tokens 1 (declaration fuel) (declaration more) := by
  match fuel, more with
  | 0, _ | _ + 1, 0 => omega
  | fuel + 1, more + 1 =>
    rw [declaration, declaration]
    refine .accept? (fun _ rest fewer => ?_) ?_
    · exact (settles_classDeclaration (by omega) (by omega)).any
    refine .accept? (fun _ rest fewer => ?_) ?_
    · exact (settles_function .function (by omega) (by omega)).any.bind fun _ _ _ => .pure _
    refine .accept? (fun _ rest fewer => ?_) ?_
    · exact (settles_variableDeclaration (by omega) (by omega)).any
    · exact settles_statement (by omega) (by omega)

/-- Declarations that go on have taken a token each, so the fuel lasts for the rest. -/
theorem settles_declarations {fuel more : Nat} {tokens : List Token} (done : List Stmt)
    (enough : 32 * tokens.length + 18 ≤ fuel) (le : fuel ≤ more) :
    Settles tokens 0 (declarations fuel done) (declarations more done) := by
  match fuel, more with
  | 0, _ | _ + 1, 0 => omega
  | fuel + 1, more + 1 =>
    rw [declarations, declarations]
    refine .next fun closed => .atEnd ?_
    by_cases ended : (closed || tokens.isEmpty) = true
    · rw [if_pos ended, if_pos ended]
      exact .pure _
    · rw [if_neg ended, if_neg ended]
      -- there is a token left, so the declaration can recover past it
      have some : tokens ≠ [] := by rintro rfl; simp at ended
      refine .any (((settles_declaration (by omega) (by omega)).recovering some).bind
        fun found rest fewer => ?_)
      cases found with
      | some stmt => exact settles_declarations _ (by omega) (by omega)
      | none => exact settles_declarations _ (by omega) (by omega)

theorem settles_block {fuel more : Nat} {tokens : List Token}
    (enough : 32 * tokens.length + 19 ≤ fuel) (le : fuel ≤ more) :
    Settles tokens 1 (block fuel) (block more) := by
  match fuel, more with
  | 0, _ | _ + 1, 0 => omega
  | fuel + 1, more + 1 =>
    rw [block, block]
    show Settles tokens (0 + 1) _ _
    exact (settles_declarations [] (by omega) (by omega)).seq fun body rest _ =>
      (Settles.expect (by decide)).bind fun _ _ _ => .pure _

theorem settles_function {fuel more : Nat} {tokens : List Token} (declared : Declared)
    (enough : 32 * tokens.length + 1 ≤ fuel) (le : fuel ≤ more) :
    Settles tokens 1 (function fuel declared) (function more declared) := by
  match fuel, more with
  | 0, _ | _ + 1, 0 => omega
  | fuel + 1, more + 1 =>
    rw [function, function]
    refine (Settles.expectName (by simp)).bind fun name rest fewer => ?_
    refine (Settles.expect (by simp)).any.bind fun _ rest' fewer' => ?_
    refine (settles_parameterList (by omega) (by omega)).bind fun parameters rest'' fewer'' => ?_
    refine (Settles.expect (by simp)).any.bind fun _ inner behind => ?_
    refine (Settles.expect (by simp)).any.bind fun _ body behind' => ?_
    exact (settles_block (by omega) (by omega)).any.bind fun _ _ _ => .pure _

theorem settles_methods {fuel more : Nat} {tokens : List Token} (done : List FunctionDecl)
    (enough : 32 * tokens.length + 2 ≤ fuel) (le : fuel ≤ more) :
    Settles tokens 0 (methods fuel done) (methods more done) := by
  match fuel, more with
  | 0, _ | _ + 1, 0 => omega
  | fuel + 1, more + 1 =>
    rw [methods, methods]
    refine .next fun closed => .atEnd ?_
    by_cases ended : (closed || tokens.isEmpty) = true
    · rw [if_pos ended, if_pos ended]
      exact .pure _
    · rw [if_neg ended, if_neg ended]
      exact .any ((settles_function .method (by omega) (by omega)).bind fun _ rest fewer =>
        settles_methods _ (by omega) (by omega))

theorem settles_classDeclaration {fuel more : Nat} {tokens : List Token}
    (enough : 32 * tokens.length + 1 ≤ fuel) (le : fuel ≤ more) :
    Settles tokens 1 (classDeclaration fuel) (classDeclaration more) := by
  match fuel, more with
  | 0, _ | _ + 1, 0 => omega
  | fuel + 1, more + 1 =>
    rw [classDeclaration, classDeclaration]
    refine (Settles.expectName (by decide)).bind fun name rest fewer => ?_
    refine settles_superclass?.bind fun superclass rest' fewer' => ?_
    refine (Settles.expect (by decide)).any.bind fun _ body behind => ?_
    refine (settles_methods [] (by omega) (by omega)).bind fun methods _ _ => ?_
    exact (Settles.expect (by decide)).any.bind fun _ _ _ => .pure _

/-- A statement settles with sixteen calls beyond those for its tokens. -/
theorem settles_statement {fuel more : Nat} {tokens : List Token}
    (enough : 32 * tokens.length + 16 ≤ fuel) (le : fuel ≤ more) :
    Settles tokens 1 (statement fuel) (statement more) := by
  match fuel, more with
  | 0, _ | _ + 1, 0 => omega
  | fuel + 1, more + 1 =>
    rw [statement, statement]
    refine .accept? (fun _ rest fewer => ?_) ?_
    · refine (settles_loopClauses (by omega) (by omega)).any.bind fun clauses rest' fewer' => ?_
      exact (settles_statement (by omega) (by omega)).any.bind fun _ _ _ => .pure _
    refine .accept? (fun _ rest fewer => ?_) ?_
    · refine (settles_parenthesizedCondition (by decide) (by omega) (by omega)).any.bind
        fun condition rest' fewer' => ?_
      refine (settles_statement (by omega) (by omega)).any.bind fun yes rest'' fewer'' => ?_
      -- an else takes a token of its own, its absence takes none
      refine .accept? (fun _ last behind => ?_) (.pure _)
      exact (settles_statement (by omega) (by omega)).any.bind fun _ _ _ => .pure _
    refine .accept? (fun _ rest fewer => ?_) ?_
    · refine (settles_parenthesizedCondition (by decide) (by omega) (by omega)).any.bind
        fun condition rest' fewer' => ?_
      exact (settles_statement (by omega) (by omega)).any.bind fun _ _ _ => .pure _
    refine .accept? (fun keyword rest fewer => ?_) ?_
    · exact settles_returnStatement keyword (by omega) (by omega)
    refine .accept? (fun keyword rest fewer => (settles_jumpStatement .break keyword).any) ?_
    refine .accept? (fun keyword rest fewer => (settles_jumpStatement .continue keyword).any) ?_
    refine .accept? (fun _ rest fewer => ?_) ?_
    · exact (settles_block (by omega) (by omega)).any.bind fun _ _ _ => .pure _
    refine .accept? (fun _ rest fewer => ?_) ?_
    · exact (settles_printStatement (by omega) (by omega)).any
    · exact settles_expressionStatement (by omega) (by omega)

end

/-- A program, up to the end. -/
theorem settles_declarationsToEnd {fuel more : Nat} {tokens : List Token} (done : List Stmt)
    (enough : 32 * tokens.length + 18 ≤ fuel) (le : fuel ≤ more) :
    Settles tokens 0 (declarationsToEnd fuel done) (declarationsToEnd more done) := by
  induction fuel generalizing more tokens done with
  | zero => omega
  | succ fuel ih =>
    obtain ⟨more, rfl⟩ : ∃ k, more = k + 1 := ⟨more - 1, by omega⟩
    rw [declarationsToEnd, declarationsToEnd]
    refine .atEnd ?_
    by_cases ended : tokens.isEmpty = true
    · rw [if_pos ended, if_pos ended]
      exact .pure _
    · rw [if_neg ended, if_neg ended]
      -- there is a token left, so the declaration can recover past it
      have some : tokens ≠ [] := by rintro rfl; exact ended rfl
      refine .any (((settles_declaration (by omega) (by omega)).recovering some).bind
        fun found rest fewer => ?_)
      cases found with
      | some stmt => exact ih _ (by omega) (by omega)
      | none => exact ih _ (by omega) (by omega)

theorem settles_wholeExpression {fuel more : Nat} {tokens : List Token}
    (enough : 32 * tokens.length + 15 ≤ fuel) (le : fuel ≤ more) :
    Settles tokens 1 (wholeExpression fuel) (wholeExpression more) := by
  refine (settles_expression enough le).bind fun e rest fewer => .atEnd ?_
  cases rest with
  | nil => exact .pure e
  | cons token rest => exact .report (by decide) (.pure e)

end ClassScript.Parsing
