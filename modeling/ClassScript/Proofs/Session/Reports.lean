import ClassScript.Proofs.Binding.Lines
import ClassScript.Proofs.Machine.Blame
import ClassScript.Proofs.Parsing.Errors
import ClassScript.Proofs.Session.Anywhere
import ClassScript.Proofs.Session.Faults
import ClassScript.Proofs.Source.Positions

/-!
# Reports point into sources

A text that is rejected is rejected with the errors of one pass, at least one, and each of
them cites a line of the text: that of a token, or of what is no token. A fault that cites a
line was raised by a piece of a text that the session accepted, and cites the line of the token
of that text that it is about (`Cites`, `reports_point_into_sources`).

A line in an error of resolution is that of a token since no other line could stand in its
place: to put other lines for all that no token has leaves the tokens as they are, and with
them the tree and the errors.
-/

namespace ClassScript.Session

open Source Syntax Parsing Object Binding Machine

/-- The error is at a token of the text, or where the text ends. -/
def StandsIn (error : SyntaxError) (text : String) : Prop :=
  (∃ token : Token, token.StandsIn text ∧ error.line = token.line ∧
      error.lexeme = some token.lexeme) ∨
    error.line = lastLine text ∧ error.lexeme = none

/-- The line is that of a token of the text. -/
def IsTokenLine (line : Nat) (text : String) : Prop :=
  ∃ token : Token, token.StandsIn text ∧ token.line = line

/-- The rejection has errors, and they are at places in the text. -/
def Rejection.PointsInto : Rejection → String → Prop
  | .lexical errors, text => errors ≠ [] ∧ ∀ error ∈ errors, error.StandsIn text
  | .syntactic errors, text => errors ≠ [] ∧ ∀ error ∈ errors, StandsIn error text
  | .binding errors, text => errors ≠ [] ∧ ∀ error ∈ errors, IsTokenLine error.line text

/-- The lines that a rejection cites. -/
def Rejection.lines : Rejection → List Nat
  | .lexical errors => errors.map LexicalError.line
  | .syntactic errors => errors.map SyntaxError.line
  | .binding errors => errors.map BindingError.line

theorem IsTokenLine.isLineOf {line : Nat} {text : String} (h : IsTokenLine line text) :
    IsLineOf line text := by
  obtain ⟨token, stands, rfl⟩ := h
  exact stands.isLineOf

theorem StandsIn.isLineOf {error : SyntaxError} {text : String} (h : StandsIn error text) :
    IsLineOf error.line text := by
  rcases h with ⟨token, stands, line, -⟩ | ⟨line, -⟩
  · rw [line]
    exact stands.isLineOf
  · rw [line]
    exact isLineOf_lastLine text

/-- What points into a text cites lines of the text. -/
theorem Rejection.PointsInto.lines {rejection : Rejection} {text : String}
    (points : rejection.PointsInto text) : ∀ line ∈ rejection.lines, IsLineOf line text := by
  intro line cited
  cases rejection with
  | lexical errors =>
    obtain ⟨error, among, rfl⟩ := List.mem_map.mp cited
    exact (points.2 error among).isLineOf
  | syntactic errors =>
    obtain ⟨error, among, rfl⟩ := List.mem_map.mp cited
    exact (points.2 error among).isLineOf
  | binding errors =>
    obtain ⟨error, among, rfl⟩ := List.mem_map.mp cited
    exact (points.2 error among).isLineOf

/-! ## Lines that stay -/

/-- The function moves no line of a token. -/
def FixesLines (f : Nat → Nat) (ts : List Token) : Prop :=
  ∀ token ∈ ts, f token.line = token.line

/-- A line that stays wherever the lines of tokens stay is that of a token. -/
theorem line_of_fixed {ts : List Token} {line : Nat}
    (fixed : ∀ f, FixesLines f ts → f line = line) : ∃ token ∈ ts, token.line = line := by
  by_contra other
  -- all lines stay but the one at hand
  have stays := fixed (fun l => if l = line then line + 1 else l) fun token among =>
    if_neg fun same => other ⟨token, among, same⟩
  rw [if_pos rfl] at stays
  exact Nat.succ_ne_self line stays

theorem isTokenLine_of_fixed {text : String} {found : Tokens} {line : Nat}
    (scanned : tokens text = .ok found)
    (fixed : ∀ f, FixesLines f found.list → f line = line) : IsTokenLine line text := by
  obtain ⟨token, among, same⟩ := line_of_fixed fixed
  exact ⟨token, (tokens_stand scanned).1 token among, same⟩

/-- Where the lines of tokens stay, so does what is read of them. -/
theorem renameInput_of_tree {f : Nat → Nat} {ts : List Token} {n last : NodeId} {input : Input}
    (tree : Tree n ts (phraseOf input) last) (fixes : FixesLines f ts) :
    renameInput (.ofLines f) input = input := by
  have same : ts.map (Token.rename (.ofLines f)) = ts := by
    refine (List.map_inj_left.mpr fun token among => ?_).trans (List.map_id ts)
    exact congrArg (Token.mk token.kind token.lexeme) (fixes token among)
  have moved : Tree n (ts.map (Token.rename (.ofLines f))) ((phraseOf input).rename (.ofLines f))
      last := tree.rename (r := .ofLines f) (fun _ _ => rfl) (Nat.le_refl n)
  rw [same] at moved
  -- the same tokens are read as both, and a text is read in one way only
  cases input with
  | statements program =>
    have first : Parsing.program ⟨ts, 0⟩ n = _ := program_iff.mpr tree
    have second : Parsing.program ⟨ts, 0⟩ n = _ := program_iff.mpr moved
    rw [first] at second
    exact congrArg Input.statements (Except.ok.inj (Prod.mk.inj second).1).symm
  | expression e =>
    have first : singleExpression ⟨ts, 0⟩ n = _ := singleExpression_iff.mpr tree
    have second : singleExpression ⟨ts, 0⟩ n = _ := singleExpression_iff.mpr moved
    rw [first] at second
    exact congrArg Input.expression (Except.ok.inj (Prod.mk.inj second).1).symm

/-! ## Rejected texts -/

/-- An interactive line that is read is a tree of its tokens. -/
theorem tree_of_input {found : Tokens} {n last : NodeId} {i : Input}
    (read : input found n = (.ok i, last)) :
    ∃ first, Tree first found.list (phraseOf i) last := by
  cases attempt : singleExpression found n with
  | mk result first =>
    cases result with
    | ok e =>
      rw [input_of_singleExpression attempt] at read
      cases read
      exact ⟨n, singleExpression_iff.mp attempt⟩
    | error errors =>
      obtain ⟨program, rfl, declarations⟩ := (input_iff_of_error attempt).mp read
      exact ⟨first, declarations⟩

/-- What an input is rejected for stands on the lines of its tokens. -/
theorem resolveInput_error {f : Nat → Nat} {i : Input} {errors : List BindingError}
    (same : renameInput (.ofLines f) i = i) (rejected : resolveInput i = .error errors) :
    errors ≠ [] ∧ ∀ error ∈ errors, f error.line = error.line := by
  cases i with
  | statements program => exact ofProgram_error (Input.statements.inj same) rejected
  | expression e => exact ofExpression_error (Input.expression.inj same) rejected

/-- The errors of a check, for a parser whose errors are in the tokens and that gives trees
of them. -/
theorem check_rejects {α : Type} {parse : Tokens → NodeId → Reading α × NodeId}
    {resolve : α → Except (List BindingError) Locals} {text : String} {n : NodeId}
    {rejection : Rejection} (toInput : α → Input)
    (resolved : ∀ tree, resolveInput (toInput tree) = resolve tree)
    (parses : ∀ found, Rejected found (parse found n).1)
    (reads : ∀ found tree, (parse found n).1 = .ok tree →
      ∃ first last, Tree first found.list (phraseOf (toInput tree)) last)
    (rejected : (check parse resolve text n).1 = .error rejection) :
    rejection.PointsInto text := by
  unfold check at rejected
  cases scanned : tokens text with
  | error errors =>
    rw [scanned] at rejected
    cases rejected
    exact errors_stand scanned
  | ok found =>
    rw [scanned] at rejected
    obtain ⟨stand, ends⟩ := tokens_stand scanned
    have parsed := parses found
    have read := reads found
    simp only at rejected
    generalize parse found n = result at rejected parsed read
    obtain ⟨reading, last⟩ := result
    cases reading with
    | error errors =>
      cases rejected
      -- the reader blames a token, or the end of the text
      obtain ⟨some, within⟩ := parsed errors rfl
      refine ⟨some, fun error among => ?_⟩
      rcases within error among with ⟨token, listed, line, lexeme⟩ | ⟨line, lexeme⟩
      · exact .inl ⟨token, stand token listed, line, lexeme⟩
      · exact .inr ⟨line.trans ends, lexeme⟩
    | ok tree =>
      obtain ⟨first, last, formed⟩ := read tree rfl
      dsimp only at rejected
      cases refused : resolve tree with
      | ok locals =>
        rw [refused] at rejected
        cases rejected
      | error errors =>
        rw [refused] at rejected
        cases rejected
        -- the resolver knows lines from the tree only: renumbering all other lines changes none
        -- of its errors
        have stays {f : Nat → Nat} (fixes : FixesLines f found.list) :=
          resolveInput_error (renameInput_of_tree formed fixes) ((resolved tree).trans refused)
        refine ⟨(stays (f := id) fun _ _ => rfl).1, fun error among => ?_⟩
        exact isTokenLine_of_fixed scanned fun f fixes => (stays fixes).2 error among

/-- A text that is rejected, handed over in whatever way. -/
theorem Step.rejected_points {step : Step} {n : NodeId} {rejection : Rejection}
    (rejected : (step.check n).1 = .error rejection) : rejection.PointsInto step.text := by
  have of_map {α : Type} {f : α → Input} {checked : Checked α}
      (h : (checked.map f).1 = .error rejection) : checked.1 = .error rejection := by
    obtain ⟨result, last⟩ := checked
    cases result with
    | ok accepted => cases h
    | error rejection => cases h; rfl
  obtain ⟨entry, text, fuel⟩ := step
  -- the three entries differ in what they read
  cases entry with
  | run =>
    exact check_rejects .statements (fun _ => rfl) (fun found => program_rejected found n)
      (fun found tree read => ⟨n, _, program_iff.mp (Prod.ext read rfl)⟩) (of_map rejected)
  | evaluate =>
    exact check_rejects .expression (fun _ => rfl) (fun found => singleExpression_rejected found n)
      (fun found tree read => ⟨n, _, singleExpression_iff.mp (Prod.ext read rfl)⟩)
      (of_map rejected)
  | line =>
    exact check_rejects id (fun _ => rfl) (fun found => input_rejected found n)
      (fun found tree read =>
        have ⟨first, formed⟩ := tree_of_input (Prod.ext read rfl)
        ⟨first, _, formed⟩) rejected

/-! ## Faults -/

/-- What each fault cites: the token of this kind that it is about, by its line, and a name also
by its text. -/
inductive Cites (t : Token) : Fault → Prop
  | operand (sign : t.kind = .minus) : Cites t (.operandNotNumber t.line)
  | operands {op : BinaryOp} (sign : t.kind = op.kind) : Cites t (.operandsNotNumbers t.line)
  | sum (sign : t.kind = .plus) : Cites t (.operandsNotAddable t.line)
  | quotient (sign : t.kind = .slash) : Cites t (.divisionByZero t.line)
  | variable (name : t.kind = .identifier) : Cites t (.undefinedVariable t.lexeme t.line)
  | property (name : t.kind = .identifier) : Cites t (.undefinedProperty t.lexeme t.line)
  | owner (name : t.kind = .identifier) : Cites t (.noProperties t.line)
  | field (name : t.kind = .identifier) : Cites t (.noFields t.line)
  | superclass (name : t.kind = .identifier) : Cites t (.notAClass t.line)
  | callee (closing : t.kind = .rightParen) : Cites t (.notCallable t.line)
  | arity {expected got : Nat} (closing : t.kind = .rightParen) :
      Cites t (.arityMismatch expected got t.line)
  | host {name message : String} (closing : t.kind = .rightParen) :
      Cites t (.host name message t.line)

theorem Cites.line {t : Token} {fault : Fault} (cites : Cites t fault) :
    fault.line? = some t.line := by
  cases cites <;> rfl

/-- A piece raises faults about its own tokens: its operator, its name, its closing parenthesis
or its superclass. -/
theorem cites_of_raises {ts : List Token} {t : Task} {fault : Fault} {node : Node}
    (raises : Raises t fault) (visit : IsFor t node) (lined : node.Lined ts) :
    ∃ token ∈ ts, Cites token fault := by
  -- the node of an expression task is the expression, or the class whose superclass it is
  have expression {e : Expr} (here : evaluates? node = some e) : e.Lined ts := by
    rcases evaluates?_eq here with rfl | ⟨name, o, rfl, rfl⟩
    · exact lined
    · exact lined.2
  -- an operator or a parenthesis gives the line, a name gives its text as well
  have line {kind : Kind} {line : Nat} (has : HasLine ts kind line) {fault : Nat → Fault}
      (cites : ∀ token : Token, token.kind = kind → Cites token (fault token.line)) :
      ∃ token ∈ ts, Cites token (fault line) := by
    obtain ⟨token, among, same, rfl⟩ := has
    exact ⟨token, among, cites token same⟩
  have name {name : Name} (has : HasName ts name) (fault : String → Nat → Fault)
      (cites : ∀ token : Token, token.kind = .identifier →
        Cites token (fault token.lexeme token.line)) :
      ∃ token ∈ ts, Cites token (fault name.text name.line) := by
    obtain ⟨token, among, same, rfl⟩ := has
    exact ⟨token, among, cites token same⟩
  cases raises with
  | operand => exact line (expression visit).1 fun _ => .operand
  | operands => exact line (expression visit).1 fun _ => .operands
  | sum => exact line (expression visit).1 fun _ => .sum
  | quotient => exact line (expression visit).1 fun _ => .quotient
  | callee => exact line (expression visit).1 fun _ => .callee
  | arity => exact line (expression visit).1 fun _ => .arity
  | host => exact line (expression visit).1 fun _ => .host
  | read => exact name (expression visit) .undefinedVariable fun _ => .variable
  | write => exact name (expression visit).1 .undefinedVariable fun _ => .variable
  | owner => exact name (expression visit).1 (fun _ => .noProperties) fun _ => .owner
  | property => exact name (expression visit).1 .undefinedProperty fun _ => .property
  | field => exact name (expression visit).1 (fun _ => .noFields) fun _ => .field
  | method => exact name (expression visit).2 .undefinedProperty fun _ => .property
  | superclass =>
    obtain rfl : node = _ := visit
    exact name lined.2.1 (fun _ => .notAClass) fun _ => .superclass

/-- Of the texts that a session takes, this one is accepted as the input. -/
def TakenAs (s : Session) (steps : List Step) (step : Step) (input : Input) : Prop :=
  ∃ before behind locals, steps = before ++ step :: behind ∧
    (step.check (s.after before).nextId).1 = .ok ⟨input, locals⟩

/-- What a session has accepted is one of its texts. -/
theorem takenAs_of_accepted {s : Session} {steps : List Step} {input : Input}
    (among : input ∈ s.accepted steps) : ∃ step, TakenAs s steps step input := by
  induction steps generalizing s with
  | nil => cases among
  | cons first rest ih =>
    rw [accepted, List.mem_append] at among
    rcases among with later | now
    · obtain ⟨step, before, behind, locals, rfl, checked⟩ := ih later
      exact ⟨step, first :: before, behind, locals, rfl, checked⟩
    · cases checked : (first.check s.nextId).1 with
      | error rejection =>
        rw [checked] at now
        cases now
      | ok accepted =>
        rw [checked] at now
        obtain rfl := List.mem_singleton.mp now
        exact ⟨first, [], rest, accepted.locals, rfl, checked⟩

/-- What is read of tokens keeps their lines. -/
theorem lined_of_tree {ts : List Token} {n last : NodeId} {input : Input}
    (tree : Tree n ts (phraseOf input) last) : (Visit.ofInput input).node.Lined ts := by
  cases input with
  | statements program => exact tree.lined (List.Subset.refl ts)
  | expression e => exact tree.lined (List.Subset.refl ts)

/-- A piece that is visited cites tokens of the text that it stands in. -/
theorem cites_of_taken {s : Session} {steps : List Step} {step : Step} {input : Input}
    {t : Task} {fault : Fault} {v : Visit} (taken : TakenAs s steps step input)
    (way : Reaches (.ofInput input) v) (visit : IsFor t v.node) (raises : Raises t fault) :
    ∃ token : Token, token.StandsIn step.text ∧ Cites token fault := by
  obtain ⟨before, behind, locals, -, checked⟩ := taken
  obtain ⟨found, first, last, scanned, forms, -⟩ := Step.forms checked
  obtain ⟨token, among, cites⟩ :=
    cites_of_raises raises visit (way.lined (lined_of_tree forms.tree))
  exact ⟨token, (tokens_stand scanned).1 token among, cites⟩

section Inputs

variable {tasks : (t : Task) → Run t.Result} {m : Machine.State}

/-- At top level nothing fails of itself but for jumps. -/
theorem fault_of_breaks {input : Input} {fault : Fault}
    (broken : (planOfInput input).Breaks tasks (.fault fault) m) : fault.line? = none := by
  cases input with
  | expression e =>
    obtain ⟨v, m₁, -, none⟩ := Plan.breaks_sub.mp broken
    exact none.elim
  | statements program =>
    replace broken := Plan.breaks_of_ret broken
    induction program generalizing m with
    | nil => exact broken.elim
    | cons s rest ih =>
      obtain ⟨completion, m₁, -, broken⟩ := Plan.breaks_sub.mp broken
      -- a jump that reached the top would be an internal fault, which cites no line
      have stray {c : Completion} (last : (Plan.prim (stop (.internal (.strayCompletion c))) :
          Plan Unit).Breaks tasks (.fault fault) m₁) : fault.line? = none := by
        obtain ⟨m₂, failed⟩ := Plan.breaks_last.mp last
        obtain rfl := stop_fault failed
        rfl
      cases completion with
      | normal => exact ih broken
      | _ => exact stray broken

/-- At top level there are pieces of programs only. -/
theorem callsOnly_planOfInput (input : Input) :
    (planOfInput input).CallsOnly fun t => ¬ t.IsCall := by
  cases input with
  | expression e => exact ⟨nofun, fun _ => trivial⟩
  | statements program =>
    show Plan.CallsOnly _ (planOfProgram program >>= fun _ => pure none)
    induction program with
    | nil => trivial
    | cons s rest ih =>
      refine ⟨nofun, fun completion => ?_⟩
      cases completion with
      | normal => exact ih
      | _ => exact fun _ => trivial

end Inputs

variable {readings : Nat → Float} {sink : Sink} {steps : List Step} {next : Step}

/-- The piece at which a step fails. -/
theorem Step.fails {s : Session} {fault : Fault} (cites : fault.line? ≠ none)
    (failed : (next.take s).1 = .failed (.fault fault)) :
    ∃ n t m, next.Moment s (n + 1) t m ∧ t.FailsItself n m (.fault fault) := by
  obtain ⟨input, m', checked, stops⟩ := take_fault_iff.mp failed
  rcases Plan.breaks_or_calls _ _ _ stops with broken | ⟨u, m₁, m₂, calls, stopped⟩
  · exact absurd (fault_of_breaks broken) cites
  · have piece : ¬ u.IsCall := (callsOnly_planOfInput input.tree).of_calls calls
    obtain ⟨n, t, m, moment, fails⟩ := Machine.Moment.fails (e := .fault fault) piece nofun stopped
    exact ⟨n, t, m, ⟨input, checked, u, m₁, calls, moment⟩, fails⟩

/-- Where a report of a run points: the step comes to a piece of a text that the session has
accepted, fails there of itself, and cites the line of a token of that text which the piece
has for such a fault: that of its operator, its name, its closing parenthesis or its
superclass. -/
def PointsAtPiece (s : Session) (steps : List Step) (next : Step) (fault : Fault)
    (line : Nat) : Prop :=
  ∃ n t m step input v,
    next.Moment (s.after steps) (n + 1) t m ∧ t.FailsItself n m (.fault fault) ∧
      Raises t fault ∧ TakenAs s (steps ++ [next]) step input ∧
      Reaches (.ofInput input) v ∧ IsFor t v.node ∧
      fault.line? = some line ∧
      ∃ token : Token, token.StandsIn step.text ∧ Cites token fault ∧ token.line = line

/-- Whatever a session was handed before: if the text at hand is rejected, then with the
errors of one pass, of which there is at least one, and each cites a line of the text, that of
a token or of what is no token. If its run fails, then for want of room in the output, or
internally, or at a piece of a text that the session has accepted, with the line of the token
of that text that the fault is about. -/
theorem reports_point_into_sources (readings : Nat → Float) (sink : Sink) (steps : List Step)
    (next : Step) :
    let s := start readings sink
    (∀ rejection, (next.take (s.after steps)).1 = .failed (.rejected rejection) →
      rejection.PointsInto next.text ∧ ∀ line ∈ rejection.lines, IsLineOf line next.text) ∧
    (∀ fault, (next.take (s.after steps)).1 = .failed (.fault fault) →
      fault = .output ∨ (∃ inner, fault = .internal inner) ∨
        ∃ line, PointsAtPiece s steps next fault line) := by
  intro s
  constructor
  -- a rejection is the answer of a step that was not accepted
  · intro rejection failed
    have rejected : (next.check (s.after steps).nextId).1 = .error rejection := by
      cases checked : (next.check (s.after steps).nextId).1 with
      | error other =>
        rw [Step.take_rejected checked] at failed
        cases failed
        rfl
      | ok input =>
        obtain ⟨r, -, taken⟩ := Step.take_accepted checked
        rw [taken] at failed
        rcases r with ⟨value, m⟩ | ⟨_ | _, m⟩ <;> cases failed
    have points := Step.rejected_points rejected
    exact ⟨points, points.lines⟩
  · intro fault failed
    by_cases cites : fault.line? = none
    · cases fault with
      | output => exact .inl rfl
      | internal inner => exact .inr (.inl ⟨inner, rfl⟩)
      | _ => cases cites
    · obtain ⟨line, cited⟩ := Option.ne_none_iff_exists'.mp cites
      -- a fault with a line comes from a task of the run, whose node was taken from some step
      obtain ⟨n, t, m, moment, fails⟩ := Step.fails cites failed
      obtain ⟨healthy, ready⟩ := moment.sound
      have raises := raises_of_fails healthy ready cites fails
      have piece : IsPiece t := by
        rcases raises.piece with ⟨e, rfl⟩ | ⟨s, rfl⟩ <;> trivial
      obtain ⟨v, ⟨input, among, way⟩, visit, -⟩ := visit_of_ready ready piece
      obtain ⟨step, taken⟩ := takenAs_of_accepted among
      obtain ⟨token, stands, cites⟩ := cites_of_taken taken way visit raises
      have same : token.line = line := Option.some.inj (cites.line.symm.trans cited)
      exact .inr (.inr ⟨line, n, t, m, step, input, v, moment, fails, raises, taken, way, visit,
        cited, token, stands, cites, same⟩)

end ClassScript.Session
