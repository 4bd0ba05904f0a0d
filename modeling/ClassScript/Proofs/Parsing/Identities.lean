import ClassScript.Parsing.Reader
import ClassScript.Proofs.Source.Words

/-!
# The identities of a parse

A parser draws a new identity for every occurrence, so in what it gives no identity
occurs twice, and all of them are new (`Drawn`). The trees are plain, since the names
in them are identifiers of the text and the grammar has no declaration in the place
of a branch.
-/

namespace ClassScript.Parsing

open Source Syntax

/-- The identities are distinct, and among those drawn from `first` on and before
`last`. -/
structure Drawn (first last : Nat) (ids : List Nat) : Prop where
  distinct : ids.Nodup
  range : ∀ id ∈ ids, first ≤ id ∧ id < last

namespace Drawn

variable {a b c : Nat} {ids more : List Nat}

theorem nil (a b : Nat) : Drawn a b [] := ⟨List.nodup_nil, by simp⟩

theorem single (a : Nat) : Drawn a (a + 1) [a] := ⟨by simp, by simp⟩

theorem mono {a' b' : Nat} (h : Drawn a b ids) (before : a' ≤ a) (behind : b ≤ b') :
    Drawn a' b' ids :=
  ⟨h.distinct, fun id inside => by have := h.range id inside; omega⟩

theorem perm (h : Drawn a b ids) (same : ids.Perm more) : Drawn a b more :=
  ⟨same.nodup_iff.mp h.distinct, fun id inside => h.range id (same.mem_iff.mpr inside)⟩

/-- What is drawn later is apart from what was drawn before. -/
theorem append (first : Drawn a b ids) (second : Drawn b c more) (ordered : a ≤ b)
    (ordered' : b ≤ c) : Drawn a c (ids ++ more) where
  distinct := by
    refine List.nodup_append.mpr ⟨first.distinct, second.distinct, ?_⟩
    intro id early id' late
    have := first.range id early
    have := second.range id' late
    omega
  range id inside := by
    rcases List.mem_append.mp inside with early | late
    · have := first.range id early; omega
    · have := second.range id late; omega

theorem append' (second : Drawn b c more) (first : Drawn a b ids) (ordered : a ≤ b)
    (ordered' : b ≤ c) : Drawn a c (more ++ ids) :=
  (first.append second ordered ordered').perm List.perm_append_comm

end Drawn

/-! ## Parsers that draw identities in order -/

/-- No token is an identifier with a reserved word for a name. -/
def Named (tokens : List Token) : Prop := ∀ token ∈ tokens, token.WellNamed

/-- Where a parser ends that drew identities from the given one on. -/
def Ends {α : Type} (n : Nat) (post : α → Nat → Prop) :
    EStateM.Result SyntaxError State α → Prop
  | .ok a s => Named s.rest ∧ n ≤ s.nextId ∧ post a s.nextId
  | .error _ s => Named s.rest ∧ n ≤ s.nextId

/-- What the parser gives, and the next identity to draw, are as stated, where it
draws identities from the given one on. -/
def Yields {α : Type} (n : Nat) (p : Parser α) (post : α → Nat → Prop) : Prop :=
  ∀ s : State, Named s.rest → s.nextId = n → Ends n post (p s)

theorem Named.of_cons {token : Token} {rest : List Token} (h : Named (token :: rest)) :
    token.WellNamed ∧ Named rest :=
  ⟨h token List.mem_cons_self, fun t inside => h t (List.mem_cons_of_mem _ inside)⟩

namespace Yields

variable {α β : Type} {n : Nat} {p : Parser α} {post : α → Nat → Prop}

theorem pure {a : α} (h : post a n) : Yields n (pure a) post :=
  fun _ named same => ⟨named, Nat.le_of_eq same.symm, same ▸ h⟩

/-- Two parsers one after the other: the second draws from where the first left the counter. -/
theorem bind {f : α → Parser β} {post' : β → Nat → Prop} (first : Yields n p post)
    (rest : ∀ a n', n ≤ n' → post a n' → Yields n' (f a) post') :
    Yields n (p >>= f) post' := by
  intro s named same
  have before := first s named same
  show Ends n post' (EStateM.bind p f s)
  simp only [EStateM.bind]
  cases hp : p s with
  | error e s₁ => rw [hp] at before; exact before
  | ok a s₁ =>
    rw [hp] at before
    obtain ⟨named₁, later, holds⟩ := before
    -- the second part starts with the identity that the first one ended with
    have after := rest a s₁.nextId later holds s₁ named₁ rfl
    simp only
    cases hf : f a s₁ with
    | ok b s₂ =>
      rw [hf] at after
      exact ⟨after.1, Nat.le_trans later after.2.1, after.2.2⟩
    | error e s₂ =>
      rw [hf] at after
      exact ⟨after.1, Nat.le_trans later after.2⟩

theorem imp {post' : α → Nat → Prop} (h : Yields n p post)
    (sub : ∀ a n', n ≤ n' → post a n' → post' a n') : Yields n p post' := by
  intro s named same
  have := h s named same
  cases hp : p s with
  | ok a s' => rw [hp] at this; exact ⟨this.1, this.2.1, sub _ _ this.2.1 this.2.2⟩
  | error e s' => rw [hp] at this; exact this

theorem fail (cause : SyntaxCause) : Yields n (fail cause : Parser α) post :=
  fun _ named same => ⟨named, Nat.le_of_eq same.symm⟩

theorem report (cause : SyntaxCause) : Yields n (report cause) fun _ n' => n' = n :=
  fun _ named same => ⟨named, Nat.le_of_eq same.symm, same⟩

theorem reportAt (token : Token) (cause : SyntaxCause) :
    Yields n (reportAt token cause) fun _ n' => n' = n :=
  fun _ named same => ⟨named, Nat.le_of_eq same.symm, same⟩

theorem atEnd : Yields n atEnd fun _ n' => n' = n :=
  fun _ named same => ⟨named, Nat.le_of_eq same.symm, same⟩

theorem next (kind : Kind) : Yields n (next kind) fun _ n' => n' = n := by
  intro s named same
  unfold Parsing.next
  cases s.rest <;> exact ⟨named, Nat.le_of_eq same.symm, same⟩

/-- A token that is taken has the kind that was asked for, and its name is no reserved word. -/
theorem accept? (kind : Kind) :
    Yields n (accept? kind) fun token n' =>
      n' = n ∧ ∀ t ∈ token, t.kind = kind ∧ t.WellNamed := by
  intro s named same
  unfold Parsing.accept?
  have here := Nat.le_of_eq same.symm
  cases shape : s.rest with
  | nil => exact ⟨named, here, same, by simp⟩
  | cons token rest =>
    rw [shape] at named
    dsimp only
    split
    · next kinds =>
      -- the token taken is one of a well named list
      refine ⟨named.of_cons.2, here, same, ?_⟩
      intro t is
      cases is
      exact ⟨kinds, named.of_cons.1⟩
    · exact ⟨shape ▸ named, here, same, by simp⟩

theorem expect (kind : Kind) (cause : SyntaxCause) :
    Yields n (expect kind cause) fun token n' =>
      n' = n ∧ token.kind = kind ∧ token.WellNamed := by
  intro s named same
  unfold Parsing.expect
  have here := Nat.le_of_eq same.symm
  cases shape : s.rest with
  | nil => exact ⟨named, here⟩
  | cons token rest =>
    rw [shape] at named
    dsimp only
    split
    · next kinds => exact ⟨named.of_cons.2, here, same, kinds, named.of_cons.1⟩
    · exact ⟨shape ▸ named, here⟩

theorem expectName (cause : SyntaxCause) :
    Yields n (expectName cause) fun name n' => n' = n ∧ name.text ∉ reserved :=
  (expect .identifier cause).bind fun _ _ _ h => .pure ⟨h.1, h.2.2 h.2.1⟩

theorem freshId : Yields n freshId fun id n' => id = n ∧ n' = n + 1 :=
  fun _ named same => ⟨named, by simp [← same], same, by simp [← same]⟩

/-- An occurrence of a name takes the next identity. -/
theorem occurrence (name : Name) :
    Yields n (occurrence name) fun o n' => o = ⟨n, name⟩ ∧ n' = n + 1 :=
  freshId.bind fun id n' _ h => .pure ⟨by rw [h.1], h.2⟩

theorem acceptInfix? (level : Level) : Yields n (acceptInfix? level) fun _ n' => n' = n := by
  intro s named same
  unfold Parsing.acceptInfix?
  have here := Nat.le_of_eq same.symm
  cases shape : s.rest with
  | nil => exact ⟨named, here, same⟩
  | cons token rest =>
    rw [shape] at named
    dsimp only
    cases infixOp? token.kind with
    | none => exact ⟨shape ▸ named, here, same⟩
    | some found =>
      dsimp only
      split
      · exact ⟨named.of_cons.2, here, same⟩
      · exact ⟨shape ▸ named, here, same⟩

theorem acceptPrefix? : Yields n acceptPrefix? fun _ n' => n' = n := by
  intro s named same
  unfold Parsing.acceptPrefix?
  have here := Nat.le_of_eq same.symm
  cases shape : s.rest with
  | nil => exact ⟨named, here, same⟩
  | cons token rest =>
    rw [shape] at named
    dsimp only
    cases prefixOp? token.kind with
    | none => exact ⟨shape ▸ named, here, same⟩
    | some op => exact ⟨named.of_cons.2, here, same⟩

theorem acceptLiteral? : Yields n acceptLiteral? fun _ n' => n' = n := by
  intro s named same
  unfold Parsing.acceptLiteral?
  have here := Nat.le_of_eq same.symm
  cases shape : s.rest with
  | nil => exact ⟨named, here, same⟩
  | cons token rest =>
    rw [shape] at named
    dsimp only
    cases literal? token with
    | none => exact ⟨shape ▸ named, here, same⟩
    | some value => exact ⟨named.of_cons.2, here, same⟩

end Yields

/-! ## Expressions -/

/-- A plain expression with identities from the given range. -/
def NewExpr (a b : Nat) (e : Expr) : Prop := e.Plain ∧ Drawn a b e.ids

def NewExprs (a b : Nat) (es : List Expr) : Prop :=
  Expr.AllPlain es ∧ Drawn a b (Expr.idsOfAll es)

theorem newExprs_nil (a b : Nat) : NewExprs a b [] := ⟨trivial, .nil a b⟩

/-- One more expression behind a row of them. -/
theorem NewExprs.snoc {a b c : Nat} {es : List Expr} {e : Expr} (row : NewExprs a b es)
    (last : NewExpr b c e) (ordered : a ≤ b) (ordered' : b ≤ c) :
    NewExprs a c (es ++ [e]) := by
  have ids (es : List Expr) : Expr.idsOfAll (es ++ [e]) = Expr.idsOfAll es ++ e.ids := by
    induction es with
    | nil => simp [Expr.idsOfAll]
    | cons first rest ih => simp [Expr.idsOfAll, ih]
  have plain (es : List Expr) (all : Expr.AllPlain es) : Expr.AllPlain (es ++ [e]) := by
    induction es with
    | nil => exact ⟨last.1, trivial⟩
    | cons first rest ih => exact ⟨all.1, ih all.2⟩
  exact ⟨plain es row.1, by rw [ids]; exact row.2.append last.2 ordered ordered'⟩

/-- An operator node draws no identity, so its operands make it new. -/
theorem NewExpr.join {a b c : Nat} {left right : Expr} (first : NewExpr a b left)
    (second : NewExpr b c right) (ordered : a ≤ b) (ordered' : b ≤ c) (op : InfixOp)
    (line : Nat) : NewExpr a c (op.join line left right) := by
  have drawn := first.2.append second.2 ordered ordered'
  cases op <;> exact ⟨⟨first.1, second.1⟩, drawn⟩

/-- A target and a value with identities of their own make an assignment with identities of its
own. -/
theorem yields_assignTo {a n n' : Nat} {target value : Expr} (equals : Token)
    (left : NewExpr a n target) (right : NewExpr n n' value) (ordered : a ≤ n)
    (ordered' : n ≤ n') :
    Yields n' (assignTo target equals value) fun e last => NewExpr a last e := by
  -- an invalid target is reported and given back as it was read
  have other : Yields n' (reportAt equals .assignmentTarget >>= fun _ => pure target)
      fun e last => NewExpr a last e :=
    (Yields.reportAt equals _).bind fun _ last _ same =>
      .pure ⟨left.1, left.2.mono (Nat.le_refl _) (by omega)⟩
  cases target with
  | «variable» old =>
    refine (Yields.occurrence old.name).bind fun o last _ drawn => .pure ?_
    -- the target is read anew, with an identity behind those of the value
    obtain ⟨rfl, rfl⟩ := drawn
    refine ⟨⟨left.1, right.1⟩, (right.2.mono ordered (Nat.le_refl _)).append ?_ (by omega)
      (by omega)⟩
    exact .single n'
  | get object name =>
    exact .pure ⟨⟨left.1, right.1⟩, right.2.append' left.2 ordered ordered'⟩
  | _ => exact other

theorem yields_superAccess {n : Nat} (keyword : Token) :
    Yields n (superAccess keyword) fun e last => NewExpr n last e := by
  apply (Yields.expect .dot .superDot).bind
  intro _ n₁ _ h₁
  apply (Yields.expectName .superMethod).bind
  intro name n₂ _ h₂
  refine Yields.freshId.bind fun id n₃ _ h₃ => .pure ⟨trivial, ?_⟩
  obtain ⟨rfl, rfl⟩ := h₃
  obtain rfl := h₁.1
  obtain rfl := h₂.1
  exact .single _

mutual

theorem yields_assignment (fuel n : Nat) :
    Yields n (assignment fuel) fun e last => NewExpr n last e := by
  cases fuel with
  | zero => exact .fail _
  | succ fuel =>
    rw [assignment]
    apply (yields_infixChain fuel .or n).bind
    intro target n₁ le₁ left
    apply (Yields.accept? .equal).bind
    intro equals n₂ _ h
    obtain rfl := h.1
    cases equals with
    | none => exact .pure left
    | some equals =>
      exact (yields_assignment fuel _).bind fun value n₃ le₃ right =>
        yields_assignTo equals left right le₁ le₃

theorem yields_infixChain (fuel : Nat) (level : Level) (n : Nat) :
    Yields n (infixChain fuel level) fun e last => NewExpr n last e := by
  cases fuel with
  | zero => exact .fail _
  | succ fuel =>
    rw [infixChain]
    exact (yields_operand fuel level n).bind fun left n₁ le₁ new =>
      yields_infixRest fuel level left n n₁ le₁ new

/-- A chain grows to the left, each operand drawing its identities after those before it. -/
theorem yields_infixRest (fuel : Nat) (level : Level) (left : Expr) (a n : Nat)
    (ordered : a ≤ n) (new : NewExpr a n left) :
    Yields n (infixRest fuel level left) fun e last => NewExpr a last e := by
  cases fuel with
  | zero => exact .fail _
  | succ fuel =>
    rw [infixRest]
    apply (Yields.acceptInfix? level).bind
    intro found n₁ _ same
    obtain rfl := same
    cases found with
    | none => exact .pure new
    | some found =>
      obtain ⟨op, token⟩ := found
      exact (yields_operand fuel level _).bind fun right n₂ le₂ new' =>
        yields_infixRest fuel level _ a n₂ (Nat.le_trans ordered le₂)
          (new.join new' ordered le₂ op token.line)

theorem yields_operand (fuel : Nat) (level : Level) (n : Nat) :
    Yields n (operand fuel level) fun e last => NewExpr n last e := by
  cases fuel with
  | zero => exact .fail _
  | succ fuel =>
    rw [operand]
    cases level.tighter? with
    | none => exact yields_unary fuel n
    | some tighter => exact yields_infixChain fuel tighter n

theorem yields_unary (fuel n : Nat) :
    Yields n (unary fuel) fun e last => NewExpr n last e := by
  cases fuel with
  | zero => exact .fail _
  | succ fuel =>
    rw [unary]
    apply Yields.acceptPrefix?.bind
    intro found n₁ _ same
    obtain rfl := same
    cases found with
    | none =>
      exact (yields_primary fuel _).bind fun subject n₂ le₂ new =>
        yields_accessRest fuel subject _ n₂ le₂ new
    | some found =>
      obtain ⟨op, token⟩ := found
      exact (yields_unary fuel _).bind fun operand n₂ _ new => .pure new

/-- Calls and property reads keep the identities of their subject and draw those of their
arguments. -/
theorem yields_accessRest (fuel : Nat) (subject : Expr) (a n : Nat) (ordered : a ≤ n)
    (new : NewExpr a n subject) :
    Yields n (accessRest fuel subject) fun e last => NewExpr a last e := by
  cases fuel with
  | zero => exact .fail _
  | succ fuel =>
    rw [accessRest]
    apply (Yields.accept? .leftParen).bind
    intro opening n₁ _ h
    obtain rfl := h.1
    cases opening with
    -- a call draws the identities of its arguments, a property draws none
    | some opening =>
      apply (yields_argumentList fuel _).bind
      intro arguments n₂ le₂ row
      apply (Yields.expect .rightParen .argumentsClose).bind
      intro close n₃ _ h
      obtain rfl := h.1
      exact yields_accessRest fuel _ a _ (Nat.le_trans ordered le₂)
        ⟨⟨new.1, row.1⟩, new.2.append row.2 ordered le₂⟩
    | none =>
      apply (Yields.accept? .dot).bind
      intro dot n₂ _ h
      obtain rfl := h.1
      cases dot with
      | none => exact .pure new
      | some dot =>
        apply (Yields.expectName .propertyName).bind
        intro name n₃ _ h
        obtain rfl := h.1
        exact yields_accessRest fuel _ a _ ordered new

theorem yields_argumentList (fuel n : Nat) :
    Yields n (argumentList fuel) fun es last => NewExprs n last es := by
  cases fuel with
  | zero => exact .fail _
  | succ fuel =>
    rw [argumentList]
    apply (Yields.next .rightParen).bind
    intro closed n₁ _ same
    obtain rfl := same
    cases closed with
    | true => exact .pure (newExprs_nil _ _)
    | false => exact yields_arguments fuel [] _ _ (Nat.le_refl _) (newExprs_nil _ _)

/-- Arguments draw their identities one after the other. -/
theorem yields_arguments (fuel : Nat) (done : List Expr) (a n : Nat) (ordered : a ≤ n)
    (row : NewExprs a n done.reverse) :
    Yields n (arguments fuel done) fun es last => NewExprs a last es := by
  cases fuel with
  | zero => exact .fail _
  | succ fuel =>
    have more : Yields n (assignment fuel >>= fun argument => accept? .comma >>= fun comma =>
        match comma with
        | some _ => arguments fuel (argument :: done)
        | none => pure (argument :: done).reverse) fun es last => NewExprs a last es := by
      apply (yields_assignment fuel n).bind
      intro argument n₁ le₁ new
      apply (Yields.accept? .comma).bind
      intro comma n₂ _ h
      obtain rfl := h.1
      -- the row is kept in reverse, and the new argument ends it
      have row' : NewExprs a n₂ (argument :: done).reverse := by
        rw [List.reverse_cons]
        exact row.snoc new ordered le₁
      cases comma with
      | none => exact .pure row'
      | some comma =>
        exact yields_arguments fuel _ a _ (Nat.le_trans ordered le₁) row'
    rw [arguments]
    dsimp only
    split
    · exact (Yields.report _).bind fun _ n₁ _ same => by rw [same]; exact more
    · exact more

/-- The identities of a primary expression are drawn while it is read, one for each name and
keyword. -/
theorem yields_primary (fuel n : Nat) :
    Yields n (primary fuel) fun e last => NewExpr n last e := by
  cases fuel with
  | zero => exact .fail _
  | succ fuel =>
    rw [primary]
    apply Yields.acceptLiteral?.bind
    intro found n₁ _ same
    obtain rfl := same
    cases found with
    | some value => exact .pure ⟨trivial, .nil _ _⟩
    | none =>
    apply (Yields.accept? .this).bind
    intro found n₂ _ h
    obtain rfl := h.1
    cases found with
    | some token =>
      refine Yields.freshId.bind fun id n₃ _ h => .pure ?_
      obtain ⟨rfl, rfl⟩ := h
      exact ⟨trivial, .single _⟩
    | none =>
    apply (Yields.accept? .super).bind
    intro found n₃ _ h
    obtain rfl := h.1
    cases found with
    | some token => exact yields_superAccess token
    | none =>
    apply (Yields.accept? .identifier).bind
    intro found n₄ _ h
    obtain ⟨rfl, named⟩ := h
    cases found with
    | some token =>
      refine (Yields.occurrence _).bind fun o n₅ _ h => .pure ?_
      obtain ⟨rfl, rfl⟩ := h
      -- an identifier is spelled like no reserved word
      obtain ⟨identifier, wellNamed⟩ := named token rfl
      exact ⟨wellNamed identifier, .single _⟩
    | none =>
    apply (Yields.accept? .leftParen).bind
    intro found n₅ _ h
    obtain rfl := h.1
    cases found with
    | none => exact .fail _
    | some token =>
      apply (yields_assignment fuel _).bind
      intro inner n₆ _ new
      apply (Yields.expect .rightParen .groupClose).bind
      intro _ n₇ _ h
      obtain rfl := h.1
      exact .pure new

end

end ClassScript.Parsing
