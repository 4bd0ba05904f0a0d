import ClassScript.Proofs.Parsing.Complete
import ClassScript.Proofs.Parsing.Prediction

/-!
# Parsers that read by a rule

A parser keeps the errors that it began with and adds others behind them (`Follows`), so the
first hard error of a reading is the first one that any of its parsers adds. `Predicts` says
of a parser that it reads by a rule of the grammar: if it adds no error but soft ones, it has
taken a text of the rule; and its first hard error is where a reader that follows the rule is
stuck. There is one lemma for every shape of rule. What a rule costs in calls before it takes
a token is bounded, and every token pays for 32 calls, so fuel never is the reason.
-/

namespace ClassScript.Parsing

open Source Syntax Rule

/-- Whether the error is about what comes next, and not about a limit or about what stands
left of `=`. -/
def SyntaxError.isHard (error : SyntaxError) : Bool := !error.cause.isSoft

/-- The error is at the first of the tokens, or at the end of the text if there is none. -/
def SyntaxError.At (error : SyntaxError) (endLine : Nat) : List Token → Prop
  | t :: _ => error.line = t.line ∧ error.lexeme = some t.lexeme
  | [] => error.line = endLine ∧ error.lexeme = none

/-- The first error that is not soft. -/
def firstHard (errors : List SyntaxError) : Option SyntaxError := errors.find? SyntaxError.isHard

/-- Where a parser ends that began with some errors: it has kept them and added others. If no
hard one is among these, what is left is as stated, and otherwise the first hard one is. -/
def Leads {α : Type} (endLine : Nat) (errors : List SyntaxError) (post : List Token → Prop)
    (bad : SyntaxError → Prop) : EStateM.Result SyntaxError State α → Prop
  | .ok _ s => s.endLine = endLine ∧ ∃ new, s.errors = errors ++ new ∧
      (∀ first ∈ firstHard new, bad first) ∧ (firstHard new = none → post s.rest)
  | .error e s => s.endLine = endLine ∧ ∃ new, s.errors = errors ++ new ∧ e.isHard ∧
      ∀ first ∈ firstHard (new ++ [e]), bad first

/-- What a parser leads to that reads the tokens of a text that ends on the line. -/
def Follows {α : Type} (endLine : Nat) (tokens : List Token) (p : Parser α)
    (post : List Token → Prop) (bad : SyntaxError → Prop) : Prop :=
  ∀ s : State, s.rest = tokens → s.endLine = endLine → Leads endLine s.errors post bad (p s)

theorem firstHard_append (errors more : List SyntaxError) :
    firstHard (errors ++ more) = (firstHard errors).or (firstHard more) :=
  List.find?_append

theorem firstHard_single {error : SyntaxError} (hard : error.isHard) :
    firstHard [error] = some error := by
  simp [firstHard, hard]

theorem at_errorHere (s : State) (cause : SyntaxCause) :
    (s.errorHere cause).At s.endLine s.rest := by
  unfold State.errorHere
  cases s.rest with
  | nil => exact ⟨rfl, rfl⟩
  | cons t rest => exact ⟨rfl, rfl⟩

/-- Whether an error at the next token is hard is told by its cause. -/
theorem isHard_errorHere (s : State) (cause : SyntaxCause) :
    (s.errorHere cause).isHard = !cause.isSoft := by
  unfold State.errorHere
  cases s.rest <;> rfl

namespace Follows

variable {α β : Type} {endLine : Nat} {tokens rest : List Token} {p : Parser α}
  {post mid : List Token → Prop} {bad : SyntaxError → Prop}

/-- What a parser leads to may be weakened, after it succeeds and after it fails. -/
theorem imp {post' : List Token → Prop} {bad' : SyntaxError → Prop}
    (h : Follows endLine tokens p post bad) (good : ∀ rest, post rest → post' rest)
    (worse : ∀ error, bad error → bad' error) : Follows endLine tokens p post' bad' := by
  intro s left line
  have ends := h s left line
  cases hp : p s with
  | ok a s' =>
    rw [hp] at ends
    obtain ⟨line, new, grown, hard, clean⟩ := ends
    exact ⟨line, new, grown, fun first among => worse _ (hard first among),
      fun none => good _ (clean none)⟩
  | error e s' =>
    rw [hp] at ends
    obtain ⟨line, new, grown, stops, hard⟩ := ends
    exact ⟨line, new, grown, stops, fun first among => worse _ (hard first among)⟩

/-- The second parser is to lead to what is stated if the first one has ended well. -/
theorem bind {q : α → Parser β} (first : Follows endLine tokens p mid bad)
    (second : ∀ a rest, Follows endLine rest (q a) (fun rest' => mid rest → post rest')
      fun error => mid rest → bad error) : Follows endLine tokens (p >>= q) post bad := by
  intro s left line
  have before := first s left line
  show Leads _ _ _ _ (EStateM.bind p q s)
  unfold EStateM.bind
  cases hp : p s with
  | error e s' => rw [hp] at before; exact before
  | ok a s' =>
    rw [hp] at before
    obtain ⟨line', new, grown, hard, clean⟩ := before
    have after := second a s'.rest s' rfl line'
    -- an error of the first parser stays the first one
    have worse (more : List SyntaxError)
        (later : ∀ error ∈ firstHard more, mid s'.rest → bad error) :
        ∀ error ∈ firstHard (new ++ more), bad error := by
      intro error among
      rw [firstHard_append] at among
      cases earlier : firstHard new with
      | none =>
        rw [earlier] at among
        exact later error among (clean earlier)
      | some own =>
        rw [earlier] at among
        obtain rfl := Option.some.inj among
        exact hard own earlier
    dsimp only
    cases hq : q a s' with
    | error e s'' =>
      rw [hq] at after
      obtain ⟨line'', more, grown', stops, hard'⟩ := after
      refine ⟨line'', new ++ more, by rw [grown', grown, List.append_assoc], stops, ?_⟩
      rw [List.append_assoc]
      exact worse _ hard'
    | ok b s'' =>
      rw [hq] at after
      obtain ⟨line'', more, grown', hard', clean'⟩ := after
      refine ⟨line'', new ++ more, by rw [grown', grown, List.append_assoc], worse _ hard', ?_⟩
      intro none
      rw [firstHard_append, Option.or_eq_none_iff] at none
      exact clean' none.2 (clean none.1)

/-- A parser that takes some tokens without an error in front of another one. -/
theorem step {q : α → Parser β} {a : α} (gives : ∀ n, Gives p tokens n a rest n)
    {post : List Token → Prop} (h : Follows endLine rest (q a) post bad) :
    Follows endLine tokens (p >>= q) post bad := by
  rintro ⟨_, _, errors, n⟩ rfl rfl
  show Leads _ _ _ _ (EStateM.bind p q _)
  rw [EStateM.bind, gives n _ errors]
  exact h ⟨rest, _, errors, n⟩ rfl rfl

/-- A failure for a hard cause is the first hard error, at the next token. -/
theorem fail {cause : SyntaxCause} (hard : cause.isSoft = false)
    (h : ∀ error : SyntaxError, error.At endLine tokens → bad error) :
    Follows endLine tokens (fail cause : Parser α) post bad := by
  rintro s rfl rfl
  have stops : (s.errorHere cause).isHard := by rw [isHard_errorHere, hard]; rfl
  refine ⟨rfl, [], (List.append_nil _).symm, stops, fun first among => ?_⟩
  rw [List.nil_append, firstHard_single stops] at among
  obtain rfl := Option.some.inj among
  exact h _ (at_errorHere s cause)

/-- A token that is required is taken, or it is missed at the next token. -/
theorem expect {kind : Kind} {cause : SyntaxCause} (hard : cause.isSoft = false)
    (yes : ∀ t rest, tokens = t :: rest → t.kind = kind → post rest)
    (no : heading tokens ≠ some kind → ∀ error : SyntaxError, error.At endLine tokens → bad error) :
    Follows endLine tokens (expect kind cause) post bad := by
  -- with another token, or none, the error is at the place given
  have refuses (other : heading tokens ≠ some kind) :
      Follows endLine tokens (Parsing.fail cause : Parser Token) post bad := fail hard (no other)
  cases tokens with
  | nil =>
    rintro s left line
    have refuse := refuses nofun s left line
    unfold Parsing.expect
    rw [left]
    exact refuse
  | cons t rest =>
    intro s left line
    unfold Parsing.expect
    rw [left]
    dsimp only
    split
    · next same =>
      exact ⟨line, [], (List.append_nil _).symm, nofun, fun _ => yes t rest rfl same⟩
    · next other =>
      exact refuses (fun same => other (Option.some.inj same)) s left line

/-- A parser that recovers leads on, with its error recorded. -/
theorem recovering (h : Follows endLine tokens p post bad) :
    Follows endLine tokens (recovering p) post bad := by
  intro s left line
  have ends := h s left line
  unfold Parsing.recovering
  cases hp : p s with
  | ok a s' => rw [hp] at ends; exact ends
  | error e s' =>
    rw [hp] at ends
    obtain ⟨line', new, grown, stops, hard⟩ := ends
    -- skipping tokens records no error, so the first hard one stays the first
    have kept (s : State) :
        s.synchronize.errors = s.errors ∧ s.synchronize.endLine = s.endLine := by
      unfold State.synchronize
      split <;> exact ⟨rfl, rfl⟩
    refine ⟨(kept _).2.trans line', new ++ [e], ?_, hard, fun none => ?_⟩
    · rw [(kept _).1, State.record, grown, List.append_assoc]
    · rw [firstHard_append, firstHard_single stops, Option.or_eq_none_iff] at none
      exact absurd none.2 nofun

end Follows

/-! ## Parsers that take nothing -/

/-- The parser takes no tokens and adds no error but soft ones. -/
def Silent {α : Type} (p : Parser α) : Prop :=
  ∀ s : State, ∃ a new n, p s = .ok a { s with errors := s.errors ++ new, nextId := n } ∧
    firstHard new = none

namespace Silent

variable {α β : Type} {p : Parser α}

theorem pure (a : α) : Silent (pure a) := fun s =>
  ⟨a, [], s.nextId, by simp [Pure.pure, EStateM.pure], rfl⟩

theorem bind {q : α → Parser β} (first : Silent p) (second : ∀ a, Silent (q a)) :
    Silent (p >>= q) := by
  intro s
  obtain ⟨a, new, n, run, soft⟩ := first s
  obtain ⟨b, more, n', run', soft'⟩ := second a { s with errors := s.errors ++ new, nextId := n }
  refine ⟨b, new ++ more, n', ?_, ?_⟩
  · show EStateM.bind p q s = _
    rw [EStateM.bind, run]
    dsimp only
    rw [run', List.append_assoc]
  · rw [firstHard_append, soft, soft']
    rfl

theorem freshId : Silent freshId := fun s =>
  ⟨s.nextId, [], s.nextId + 1, by simp [Parsing.freshId], rfl⟩

theorem occurrence (name : Name) : Silent (occurrence name) :=
  freshId.bind fun _ => .pure _

theorem report {cause : SyntaxCause} (soft : cause.isSoft) : Silent (report cause) := fun s =>
  ⟨(), [s.errorHere cause], s.nextId, rfl, by simp [firstHard, isHard_errorHere, soft]⟩

theorem reportAt {cause : SyntaxCause} (soft : cause.isSoft) (t : Token) :
    Silent (reportAt t cause) := fun s =>
  ⟨(), [⟨t.line, some t.lexeme, cause⟩], s.nextId, rfl,
    by simp [firstHard, SyntaxError.isHard, soft]⟩

theorem assignTo (target : Expr) (equals : Token) (value : Expr) :
    Silent (assignTo target equals value) := by
  cases target with
  | «variable» old => exact (occurrence old.name).bind fun _ => .pure _
  | get object name => exact .pure _
  | _ => exact (reportAt rfl equals).bind fun _ => .pure _

/-- What comes behind a parser that takes nothing leads on from the same tokens. -/
theorem leads (quiet : Silent p) {q : α → Parser β} {endLine : Nat} {tokens : List Token}
    {post : List Token → Prop} {bad : SyntaxError → Prop}
    (h : ∀ a, Follows endLine tokens (q a) post bad) :
    Follows endLine tokens (p >>= q) post bad := by
  intro s left line
  obtain ⟨a, new, n, run, soft⟩ := quiet s
  have after := h a { s with errors := s.errors ++ new, nextId := n } left line
  show Leads _ _ _ _ (EStateM.bind p q s)
  rw [EStateM.bind, run]
  -- what a silent part records is soft and does not count
  have later (more : List SyntaxError) : firstHard (new ++ more) = firstHard more := by
    rw [firstHard_append, soft]
    rfl
  dsimp only
  cases hq : q a { s with errors := s.errors ++ new, nextId := n } with
  | error e s' =>
    rw [hq] at after
    obtain ⟨line', more, grown, stops, hard⟩ := after
    refine ⟨line', new ++ more, by rw [grown, List.append_assoc], stops, ?_⟩
    rwa [List.append_assoc, later]
  | ok b s' =>
    rw [hq] at after
    obtain ⟨line', more, grown, hard⟩ := after
    refine ⟨line', new ++ more, by rw [grown, List.append_assoc], ?_⟩
    rwa [later]

theorem follows (quiet : Silent p) (endLine : Nat) (tokens : List Token) :
    Follows endLine tokens p (· = tokens) fun _ => False := by
  rintro s rfl line
  obtain ⟨a, new, n, run, soft⟩ := quiet s
  rw [run]
  refine ⟨line, new, rfl, ?_, fun _ => rfl⟩
  rw [soft]
  nofun

end Silent

/-! ## Parsers that read by a rule -/

/-- The parser goes on with a rule that began with the first tokens. If the fuel is enough for
these and a number of calls more, it takes a text of the rule, or its first hard error is
where the rule is stuck. -/
def Predicts {α : Type} (endLine fuel depth : Nat) (follow : Ahead) (rule : Rule)
    (start tokens : List Token) (p : Parser α) : Prop :=
  Follows endLine tokens p
    (fun rest => 32 * start.length + depth ≤ fuel → rule.fits follow →
      Taken follow rule start rest)
    (fun error => 32 * start.length + depth ≤ fuel → rule.fits follow →
      ∃ rest, error.At endLine rest ∧ Stuck follow rule start rest)

/-- What comes next is a token of the kind, and of none of the others. -/
theorem only_kind {t : Token} {rest : List Token} {kind : Kind} (same : t.kind = kind)
    {others : List Kind} (differs : kind ∉ others) :
    ∀ next ∈ heading (t :: rest), next ∉ others := by
  rintro next head
  obtain rfl : t.kind = next := Option.some.inj head
  rwa [same]

theorem refused {tokens : List Token} {others : List Kind}
    (refuses : ∀ kind ∈ others, heading tokens ≠ some kind) :
    ∀ next ∈ heading tokens, next ∉ others := fun next head among => refuses next among head

theorem refused_one {tokens : List Token} {kind : Kind} (refuses : heading tokens ≠ some kind) :
    ∀ next ∈ heading tokens, next ∉ [kind] :=
  refused (List.forall_mem_singleton.mpr refuses)

theorem begun {t : Token} {rest : List Token} {kind : Kind} (same : t.kind = kind)
    {follow : Ahead} {inner : Rule} (first : kind ∈ inner.first) :
    Begun follow inner (heading (t :: rest)) :=
  .inr ⟨kind, congrArg some same, first⟩

namespace Predicts

variable {α β : Type} {endLine fuel depth depth' : Nat} {follow : Ahead}
  {rule first second inner : Rule} {start tokens rest : List Token} {p : Parser α}

/-- A rule for another one, where the fuel is as much. -/
theorem imp {follow' : Ahead} {rule' : Rule} {start' : List Token} {fuel' : Nat}
    (h : Predicts endLine fuel depth follow rule start tokens p)
    (enough : 32 * start'.length + depth' ≤ fuel' → 32 * start.length + depth ≤ fuel)
    (fit : rule'.fits follow' → rule.fits follow)
    (taken : rule'.fits follow' → ∀ rest, Taken follow rule start rest →
      Taken follow' rule' start' rest)
    (stuck : rule'.fits follow' → ∀ rest, Stuck follow rule start rest →
      Stuck follow' rule' start' rest) :
    Predicts endLine fuel' depth' follow' rule' start' tokens p := by
  refine Follows.imp h (fun rest given sure fits => ?_) (fun error given sure fits => ?_)
  · exact taken fits rest (given (enough sure) (fit fits))
  · obtain ⟨rest, here, bar⟩ := given (enough sure) (fit fits)
    exact ⟨rest, here, stuck fits rest bar⟩

theorem mono (h : Predicts endLine fuel depth follow rule start tokens p)
    (le : depth ≤ depth') : Predicts endLine fuel depth' follow rule start tokens p :=
  h.imp (by omega) id (fun _ _ => id) fun _ _ => id

/-- One call deeper. -/
theorem succ (h : Predicts endLine fuel depth follow rule start tokens p)
    (le : depth + 1 ≤ depth') : Predicts endLine (fuel + 1) depth' follow rule start tokens p :=
  h.imp (by omega) id (fun _ _ => id) fun _ _ => id

/-- A parser without fuel has more tokens than it has fuel for. -/
theorem starved (some : 0 < depth) :
    Predicts endLine 0 depth follow rule start tokens (Parsing.fail .nestingTooDeep : Parser α) :=
  Follows.fail rfl fun _ _ sure => by omega

theorem fail {cause : SyntaxCause} (hard : cause.isSoft = false)
    (stuck : rule.fits follow → Stuck follow rule start tokens) :
    Predicts endLine fuel depth follow rule start tokens (Parsing.fail cause : Parser α) :=
  Follows.fail hard fun _ here _ fits => ⟨tokens, here, stuck fits⟩

/-! ### Tokens -/

theorem step {q : α → Parser β} {a : α} (gives : ∀ n, Gives p tokens n a rest n)
    (h : Predicts endLine fuel depth follow rule start rest (q a)) :
    Predicts endLine fuel depth follow rule start tokens (p >>= q) := Follows.step gives h

theorem expect {kind : Kind} {cause : SyntaxCause} (hard : cause.isSoft = false) :
    Predicts endLine fuel depth follow (.token kind) tokens tokens (expect kind cause) := by
  refine Follows.expect hard ?_ ?_
  · rintro t rest rfl same - -
    exact .token same
  · intro other error here _ _
    refine ⟨tokens, here, .here rfl rfl (refused fun next among => ?_)⟩
    obtain rfl := List.mem_singleton.mp among
    exact other

theorem accept? {kind : Kind} {q : Option Token → Parser β}
    (yes : ∀ t rest, tokens = t :: rest → t.kind = kind →
      Predicts endLine fuel depth follow rule start rest (q (some t)))
    (no : heading tokens ≠ some kind →
      Predicts endLine fuel depth follow rule start tokens (q none)) :
    Predicts endLine fuel depth follow rule start tokens (accept? kind >>= q) := by
  by_cases next : heading tokens = some kind
  · obtain ⟨t, rest, rfl, same⟩ : ∃ t rest, tokens = t :: rest ∧ t.kind = kind := by
      cases tokens with
      | nil => cases next
      | cons t rest => exact ⟨t, rest, rfl, Option.some.inj next⟩
    exact step (fun _ => .accept same) (yes t rest rfl same)
  · refine step (fun _ => .refuse fun t head same => next ?_) (no next)
    obtain ⟨rest, rfl⟩ := List.head?_eq_some_iff.mp head
    exact congrArg some same

theorem next {kind : Kind} {q : Bool → Parser β}
    (h : Predicts endLine fuel depth follow rule start tokens (q (heading tokens == some kind))) :
    Predicts endLine fuel depth follow rule start tokens (next kind >>= q) := by
  cases tokens with
  | nil => exact step (fun _ => .notNext nofun) h
  | cons t rest => exact step (fun _ _ _ => rfl) h

theorem atEnd {q : Bool → Parser β}
    (h : Predicts endLine fuel depth follow rule start tokens (q tokens.isEmpty)) :
    Predicts endLine fuel depth follow rule start tokens (Parsing.atEnd >>= q) :=
  step (fun _ => .atEnd) h

/-! ### Parsers that take nothing -/

/-- A parser that takes nothing takes a text of a rule that has the empty one. -/
theorem silent (quiet : Silent p) (taken : rule.fits follow → Taken follow rule start tokens) :
    Predicts endLine fuel depth follow rule start tokens p :=
  (quiet.follows endLine tokens).imp (fun _ same _ fits => same ▸ taken fits)
    fun _ none => none.elim

/-- What is silent after a parser takes no more tokens and adds no hard error. -/
theorem also (h : Predicts endLine fuel depth follow rule start tokens p) {q : α → Parser β}
    (quiet : ∀ a, Silent (q a)) :
    Predicts endLine fuel depth follow rule start tokens (p >>= q) :=
  Follows.bind h fun a rest => ((quiet a).follows endLine rest).imp
    (fun _ same given => same ▸ given) fun _ none => none.elim

theorem expectName {cause : SyntaxCause} (hard : cause.isSoft = false) :
    Predicts endLine fuel depth follow (.token .identifier) tokens tokens (expectName cause) :=
  (expect hard).also fun _ => .pure _

/-- A parser that recovers has recorded where it was stuck. -/
theorem recovering (h : Predicts endLine fuel depth follow rule start tokens p) :
    Predicts endLine fuel depth follow rule start tokens (recovering p) := Follows.recovering h

/-! ### Rules -/

/-- A rule is read by reading its body, before what can stand behind the rule. -/
theorem named {name : Nonterminal} (body : relaxed name = rule)
    (h : Predicts endLine fuel depth name.follow rule start tokens p) :
    Predicts endLine fuel depth follow (.named name) start tokens p := by
  subst body
  exact h.imp id (fun _ => fits_relaxed name) (fun fits _ => .named fits) fun fits _ => .named fits

/-- A choice is read by the alternative that the first token does not rule out. -/
theorem alternative {rules : List Rule} (i : Nat) (at_i : rules[i]? = some rule)
    (other : ∀ kind ∈ heading start, kind ∉ (rules.eraseIdx i).flatMap Rule.first)
    (h : Predicts endLine fuel depth follow rule start tokens p) :
    Predicts endLine fuel depth follow (any rules) start tokens p :=
  h.imp id (fits_any at_i) (fun fits _ => .any at_i fits) fun fits _ => .any at_i fits other

/-- An optional part is read where the next token begins it. -/
theorem present (begun : Begun follow inner (heading start))
    (h : Predicts endLine fuel depth follow inner start tokens p) :
    Predicts endLine fuel depth follow (.optional inner) start tokens p :=
  h.imp id (fun fits => (fits_optional fits).1) (fun fits _ => .present fits)
    fun fits _ => .present fits begun

/-- An optional part is left out where the next token does not begin it. -/
theorem absent (quiet : Silent p) (other : ∀ kind ∈ heading tokens, kind ∉ inner.first) :
    Predicts endLine fuel depth follow (.optional inner) tokens tokens p :=
  silent quiet fun fits => .absent fits other

/-- A part that is left out where the token comes next that stands behind it. -/
theorem optionalUnless {kind : Kind} (closes : kind ∉ inner.first) {q : Bool → Parser β}
    (quiet : Silent (q true))
    (h : Predicts endLine fuel depth [some kind] inner tokens tokens (q false)) :
    Predicts endLine fuel depth [some kind] (.optional inner) tokens tokens
      (Parsing.next kind >>= q) := by
  refine next ?_
  cases closed : heading tokens == some kind with
  | true =>
    refine absent quiet ?_
    rw [eq_of_beq closed]
    rintro _ ⟨⟩
    exact closes
  | false =>
    exact present (.inl fun among => ne_of_beq_false closed (List.mem_singleton.mp among)) h

/-- A rule behind one that has taken a token. -/
theorem behind (solid : first.nullable = false)
    (taken : Taken (second.ahead follow) first start tokens)
    (h : Predicts endLine fuel 32 follow second tokens tokens p) :
    Predicts endLine fuel depth follow (.seq first second) start tokens p := by
  have shorter := taken.shorter solid
  exact h.imp (by omega) (fun fits => (fits_seq fits).2.1) (fun fits _ => .seq fits taken)
    fun fits _ => .seq_right fits taken

/-- A rule behind an optional part that is left out. -/
theorem skip (other : ∀ kind ∈ heading tokens, kind ∉ inner.first)
    (h : Predicts endLine fuel depth follow second tokens tokens p) :
    Predicts endLine fuel depth follow (.seq (.optional inner) second) tokens tokens p := by
  have taken (fits : (Rule.seq (.optional inner) second).fits follow) :
      Taken (second.ahead follow) (.optional inner) tokens tokens :=
    .absent (fits_seq fits).1 other
  exact h.imp id (fun fits => (fits_seq fits).2.1) (fun fits _ => .seq fits (taken fits))
    fun fits _ => .seq_right fits (taken fits)

/-- A rule with nothing behind it. -/
theorem last (h : Predicts endLine fuel depth follow rule start tokens p) :
    Predicts endLine fuel depth follow (.seq rule .empty) start tokens p := by
  have same : Rule.empty.ahead follow = follow := rfl
  refine h.imp id (fun fits => (fits_seq fits).1) (fun fits rest taken => ?_)
    fun fits rest stuck => ?_
  · exact .seq fits (same ▸ taken) .empty
  · exact .seq_left fits (same ▸ stuck)

/-- A rule and then another one, for which there is fuel enough. -/
theorem chain {q : α → Parser β}
    (one : Predicts endLine fuel depth (second.ahead follow) first start tokens p)
    (other : ∀ a rest, Predicts endLine fuel depth' follow second rest rest (q a))
    (enough : ∀ {rest}, Taken (second.ahead follow) first start rest →
      32 * rest.length + depth' ≤ 32 * start.length + depth) :
    Predicts endLine fuel depth follow (.seq first second) start tokens (p >>= q) := by
  refine Follows.bind (Follows.imp one (fun _ => id) fun error given sure fits => ?_)
    fun a rest => Follows.imp (other a rest) (fun rest' given taken sure fits => ?_)
      fun error given taken sure fits => ?_
  -- stuck in the first part, done, or stuck in the second after the first was taken
  · obtain ⟨rest, here, stuck⟩ := given sure (fits_seq fits).1
    exact ⟨rest, here, .seq_left fits stuck⟩
  · have took := taken sure (fits_seq fits).1
    have spare := enough took
    exact .seq fits took (given (by omega) (fits_seq fits).2.1)
  · have took := taken sure (fits_seq fits).1
    have spare := enough took
    obtain ⟨rest', here, stuck⟩ := given (by omega) (fits_seq fits).2.1
    exact ⟨rest', here, .seq_right fits took stuck⟩

/-- A rule that takes a token, and then another one. -/
theorem seq {q : α → Parser β} (solid : first.nullable = false)
    (one : Predicts endLine fuel depth (second.ahead follow) first start tokens p)
    (other : ∀ a rest, Predicts endLine fuel 32 follow second rest rest (q a)) :
    Predicts endLine fuel depth follow (.seq first second) start tokens (p >>= q) := by
  refine chain one other fun taken => ?_
  have shorter := taken.shorter solid
  omega

/-- A rule that may take no token, and then another one. -/
theorem part {q : α → Parser β}
    (one : Predicts endLine fuel depth (second.ahead follow) first start tokens p)
    (other : ∀ a rest, Predicts endLine fuel depth follow second rest rest (q a)) :
    Predicts endLine fuel depth follow (.seq first second) start tokens (p >>= q) := by
  refine chain one other fun taken => ?_
  have shorter := taken.length
  omega

/-- One part of a repetition, and then the others. -/
theorem again {q : α → Parser β} (begun : Begun follow inner (heading start))
    (one : Predicts endLine fuel depth ((Rule.many inner).ahead follow) inner start tokens p)
    (other : ∀ a rest, Predicts endLine fuel 32 follow (.many inner) rest rest (q a)) :
    Predicts endLine fuel depth follow (.many inner) start tokens (p >>= q) := by
  refine Follows.bind (Follows.imp one (fun _ => id) fun error given sure fits => ?_)
    fun a rest => Follows.imp (other a rest) (fun rest' given taken sure fits => ?_)
      fun error given taken sure fits => ?_
  · obtain ⟨rest, here, stuck⟩ := given sure (fits_many fits).1
    exact ⟨rest, here, .begun fits begun stuck⟩
  · have took := taken sure (fits_many fits).1
    have shorter := took.shorter (fits_many fits).2.1
    exact .more fits took (given (by omega) fits)
  · have took := taken sure (fits_many fits).1
    have shorter := took.shorter (fits_many fits).2.1
    obtain ⟨rest', here, stuck⟩ := given (by omega) fits
    exact ⟨rest', here, .more fits took stuck⟩

end Predicts

end ClassScript.Parsing
