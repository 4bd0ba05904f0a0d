import ClassScript.Parsing.Reader

/-!
# Runs of a parser, operation by operation

`Runs` takes a run of a parser apart into the operations that parsers are made of, and lists
the errors that come up in it: those with which a rule stops, and those that are noted while
parsing goes on. From the list it follows what a run records: just these errors, in this
order, each of them once; only the one that the run itself ends with is not recorded yet
(`Runs.errors`). So a run has one list (`Runs.unique`). And the tokens that are left are the
last ones of those that were left before (`Runs.onward`).
-/

namespace ClassScript.Parsing

open Source Syntax

/-- What a parser ends with. -/
abbrev Ending (α : Type) := EStateM.Result SyntaxError State α

/-- The state at the end. -/
def Ending.state {α : Type} : Ending α → State
  | .ok _ s => s
  | .error _ s => s

/-- The errors that were recorded, and the one that stopped the parser, if there is one. -/
def Ending.errors {α : Type} : Ending α → List SyntaxError
  | .ok _ s => s.errors
  | .error error s => s.errors ++ [error]

/-- The operations that look at the next token, and may take it, and the one that draws an
identity. No error comes up in them. -/
inductive Quiet : {α : Type} → Parser α → Prop
  | next (kind : Kind) : Quiet (next kind)
  | atEnd : Quiet atEnd
  | accept (kind : Kind) : Quiet (accept? kind)
  | acceptInfix (level : Level) : Quiet (acceptInfix? level)
  | acceptPrefix : Quiet acceptPrefix?
  | acceptLiteral : Quiet acceptLiteral?
  | freshId : Quiet freshId

/-- A run of a parser from a state to an end, with the errors that come up in it. -/
inductive Runs : {α : Type} → Parser α → State → List SyntaxError → Ending α → Prop
  | pure {α : Type} {a : α} {s : State} : Runs (pure a) s [] (.ok a s)
  | quiet {α : Type} {p : Parser α} {a : α} {s t : State} (op : Quiet p)
      (gives : p s = .ok a t) : Runs p s [] (.ok a t)
  | expect {kind : Kind} {cause : SyntaxCause} {token : Token} {rest : List Token} {s : State}
      (left : s.rest = token :: rest) (same : token.kind = kind) :
      Runs (expect kind cause) s [] (.ok token { s with rest })
  /-- Another token comes next, or none. -/
  | missing {kind : Kind} {cause : SyntaxCause} {s : State}
      (other : ∀ t ∈ s.rest.head?, t.kind ≠ kind) :
      Runs (Parsing.expect kind cause) s [s.errorHere cause] (.error (s.errorHere cause) s)
  | fail {α : Type} {cause : SyntaxCause} {s : State} :
      Runs (fail cause : Parser α) s [s.errorHere cause] (.error (s.errorHere cause) s)
  | report {cause : SyntaxCause} {s : State} :
      Runs (report cause) s [s.errorHere cause] (.ok () (s.record (s.errorHere cause)))
  | reportAt {token : Token} {cause : SyntaxCause} {s : State} :
      Runs (reportAt token cause) s [⟨token.line, some token.lexeme, cause⟩]
        (.ok () (s.record ⟨token.line, some token.lexeme, cause⟩))
  | bind {α β : Type} {p : Parser α} {f : α → Parser β} {s t : State} {a : α}
      {log more : List SyntaxError} {ending : Ending β} (first : Runs p s log (.ok a t))
      (rest : Runs (f a) t more ending) : Runs (p >>= f) s (log ++ more) ending
  /-- What comes behind an error is not run. -/
  | stopped {α β : Type} {p : Parser α} {f : α → Parser β} {s t : State}
      {error : SyntaxError} {log : List SyntaxError} (first : Runs p s log (.error error t)) :
      Runs (p >>= f) s log (.error error t)
  | unhurt {α : Type} {p : Parser α} {s t : State} {a : α} {log : List SyntaxError}
      (inner : Runs p s log (.ok a t)) : Runs (recovering p) s log (.ok (some a) t)
  /-- An error of a declaration stops only that declaration. -/
  | recovered {α : Type} {p : Parser α} {s t : State} {error : SyntaxError}
      {log : List SyntaxError} (inner : Runs p s log (.error error t)) :
      Runs (recovering p) s log (.ok none (t.record error).synchronize)

/-! ## Skipping to the next statement -/

/-- What is skipped stands in front of what is left. -/
theorem statementBoundary_suffix (last : Token) (tokens : List Token) :
    statementBoundary last tokens <:+ tokens := by
  induction tokens generalizing last with
  | nil => exact List.suffix_refl _
  | cons token rest ih =>
    rw [statementBoundary]
    split
    · exact List.suffix_refl _
    · exact (ih token).trans (List.suffix_cons token rest)

/-- The token of an error is skipped, if there is one. -/
theorem rest_synchronize (s : State) : s.synchronize.rest <:+ s.rest.tail := by
  unfold State.synchronize
  cases left : s.rest with
  | nil => rw [left]; exact List.suffix_refl _
  | cons token rest => exact statementBoundary_suffix token rest

@[simp] theorem errors_synchronize (s : State) : s.synchronize.errors = s.errors := by
  unfold State.synchronize
  split <;> rfl

@[simp] theorem nextId_synchronize (s : State) : s.synchronize.nextId = s.nextId := by
  unfold State.synchronize
  split <;> rfl

/-! ## What a run does -/

/-- A state that comes later in a reading: some tokens more are taken, and some identities
more are drawn. -/
structure State.Onward (s t : State) : Prop where
  rest : t.rest <:+ s.rest
  nextId : s.nextId ≤ t.nextId

namespace State.Onward

variable {s t u : State}

theorem refl (s : State) : s.Onward s := ⟨List.suffix_refl _, Nat.le_refl _⟩

theorem trans (first : s.Onward t) (second : t.Onward u) : s.Onward u :=
  ⟨second.rest.trans first.rest, Nat.le_trans first.nextId second.nextId⟩

theorem length (h : s.Onward t) : t.rest.length ≤ s.rest.length := h.rest.length_le

/-- Recording an error takes no tokens. -/
theorem record (error : SyntaxError) : s.Onward (s.record error) :=
  ⟨List.suffix_refl _, Nat.le_refl _⟩

theorem synchronize (s : State) : s.Onward s.synchronize where
  rest := (rest_synchronize s).trans (List.tail_suffix s.rest)
  nextId := Nat.le_of_eq (nextId_synchronize s).symm

theorem take {token : Token} {rest : List Token} (left : s.rest = token :: rest) :
    s.Onward { s with rest } :=
  ⟨left ▸ List.suffix_cons token rest, Nat.le_refl _⟩

end State.Onward

namespace Quiet

variable {α : Type} {p : Parser α} {s t : State} {a : α}

/-- Quiet operations always give something, record nothing, and do not go back. -/
theorem gives (op : Quiet p) (s : State) :
    ∃ a t, p s = .ok a t ∧ t.errors = s.errors ∧ s.Onward t := by
  cases op with
  | next kind =>
    unfold Parsing.next
    cases s.rest <;> exact ⟨_, _, rfl, rfl, .refl s⟩
  | atEnd => exact ⟨_, _, rfl, rfl, .refl s⟩
  | freshId => exact ⟨_, _, rfl, rfl, List.suffix_refl _, Nat.le_succ _⟩
  -- the three kinds of acceptance take one token or leave the state as it is
  | accept kind =>
    unfold accept?
    cases left : s.rest with
    | nil => exact ⟨_, _, rfl, rfl, .refl s⟩
    | cons token rest =>
      by_cases same : token.kind = kind
      · exact ⟨_, _, if_pos same, rfl, .take left⟩
      · exact ⟨_, _, if_neg same, rfl, .refl s⟩
  | acceptInfix level =>
    unfold acceptInfix?
    cases left : s.rest with
    | nil => exact ⟨_, _, rfl, rfl, .refl s⟩
    | cons token rest =>
      dsimp only
      cases infixOp? token.kind with
      | none => exact ⟨_, _, rfl, rfl, .refl s⟩
      | some found =>
        by_cases same : found.1 = level
        · exact ⟨_, _, if_pos same, rfl, .take left⟩
        · exact ⟨_, _, if_neg same, rfl, .refl s⟩
  | acceptPrefix =>
    unfold acceptPrefix?
    cases left : s.rest with
    | nil => exact ⟨_, _, rfl, rfl, .refl s⟩
    | cons token rest =>
      dsimp only
      cases prefixOp? token.kind with
      | none => exact ⟨_, _, rfl, rfl, .refl s⟩
      | some op => exact ⟨_, _, rfl, rfl, .take left⟩
  | acceptLiteral =>
    unfold acceptLiteral?
    cases left : s.rest with
    | nil => exact ⟨_, _, rfl, rfl, .refl s⟩
    | cons token rest =>
      dsimp only
      cases literal? token with
      | none => exact ⟨_, _, rfl, rfl, .refl s⟩
      | some value => exact ⟨_, _, rfl, rfl, .take left⟩

theorem effect (op : Quiet p) (ran : p s = .ok a t) : t.errors = s.errors ∧ s.Onward t := by
  obtain ⟨a', t', same, kept, onward⟩ := op.gives s
  rw [same] at ran
  cases ran
  exact ⟨kept, onward⟩

end Quiet

namespace Runs

variable {α : Type} {p q : Parser α} {s : State} {log log' : List SyntaxError}
  {ending : Ending α}

/-- A run is what the parser does. -/
theorem sound (runs : Runs p s log ending) : p s = ending := by
  induction runs with
  | pure | fail | report | reportAt => rfl
  | quiet _ gives => exact gives
  | expect left same => simp [Parsing.expect, left, same]
  -- the tokens may have run out or start with another kind
  | @missing kind cause s other =>
    unfold Parsing.expect
    cases left : s.rest with
    | nil => rfl
    | cons token rest => exact if_neg (other token (by rw [left]; rfl))
  | bind _ _ ih ih' =>
    show EStateM.bind _ _ _ = _
    rw [EStateM.bind, ih]
    exact ih'
  | stopped _ ih =>
    show EStateM.bind _ _ _ = _
    rw [EStateM.bind, ih]
  | unhurt _ ih | recovered _ ih => rw [Parsing.recovering, ih]

/-- The errors of a run are recorded in the order in which they come up, but for the one that
the run ends with. -/
theorem errors (runs : Runs p s log ending) : ending.errors = s.errors ++ log := by
  induction runs with
  | pure | expect => exact (List.append_nil _).symm
  | quiet op gives => exact (op.effect gives).1.trans (List.append_nil _).symm
  | missing | fail | report | reportAt => rfl
  | bind _ _ ih ih' =>
    rw [ih', show State.errors _ = _ from ih, List.append_assoc]
  | stopped _ ih | unhurt _ ih => exact ih
  | recovered _ ih => exact (errors_synchronize _).trans ih

/-- A run goes on to later tokens only. -/
theorem onward (runs : Runs p s log ending) : s.Onward ending.state := by
  induction runs with
  | pure | missing | fail => exact .refl _
  | quiet op gives => exact (op.effect gives).2
  | expect left => exact .take left
  | report | reportAt => exact .record _
  | bind _ _ ih ih' => exact ih.trans ih'
  | stopped _ ih | unhurt _ ih => exact ih
  | recovered _ ih => exact (ih.trans (.record _)).trans (.synchronize _)

/-- The errors that come up in a run are determined by what is recorded: runs from one state to
one end have the same, also if they are runs of two parsers. -/
theorem unique (runs : Runs p s log ending) (runs' : Runs q s log' ending) : log = log' := by
  have recorded := runs.errors.symm.trans runs'.errors
  exact List.append_cancel_left recorded

end Runs

end ClassScript.Parsing
