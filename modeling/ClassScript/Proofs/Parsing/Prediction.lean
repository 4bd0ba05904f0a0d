import ClassScript.Proofs.Parsing.Relaxed
import Mathlib

/-!
# One token of lookahead

What is read by a rule depends on one token more: on whether a part of the rule can begin
with it, or what stands behind the part. `Rule.fits` checks that this never leaves a choice,
and it holds of every relaxed rule (`fits_relaxed`); the one exception is `else`, which is
always taken. So a reader that follows the rules knows at each token whether it can go on
(`Taken`, `Stuck`, with a lemma for every shape of rule): what is behind what it has taken is
what can be behind the rule, and where it is stuck, no text of the rule goes on with the next
token.
-/

namespace ClassScript.Parsing

open Source Rule

/-! ## Tables -/

/-- The tokens that begin a call. -/
def callHeads : List Kind :=
  [.number, .string, .true, .false, .nil, .this, .identifier, .leftParen, .super]

/-- The tokens that begin an expression. -/
def expressionHeads : List Kind := .bang :: .minus :: callHeads

/-- The tokens that begin a statement. -/
def statementHeads : List Kind :=
  expressionHeads ++ [.for, .if, .print, .return, .while, .break, .continue, .leftBrace]

namespace Nonterminal

/-- The tokens that a nonterminal can begin with. -/
def first : Nonterminal → List Kind
  | .program | .declaration => .classWord :: .fun :: .var :: statementHeads
  | .classDecl => [.classWord]
  | .funDecl => [.fun]
  | .function | .parameters => [.identifier]
  | .varDecl => [.var]
  | .statement => statementHeads
  | .forStmt => [.for]
  | .ifStmt => [.if]
  | .printStmt => [.print]
  | .returnStmt => [.return]
  | .whileStmt => [.while]
  | .breakStmt => [.break]
  | .continueStmt => [.continue]
  | .block => [.leftBrace]
  | .exprStmt | .arguments | .expression | .assignment | .level _ | .unary => expressionHeads
  | .call | .primary => callHeads

/-- A nonterminal has a text that needs only nonterminals of lower ranks. -/
def rank : Nonterminal → Nat
  | .program | .classDecl | .varDecl | .returnStmt | .breakStmt | .continueStmt | .block
  | .parameters | .primary => 0
  | .declaration | .function | .statement | .call => 1
  | .funDecl | .forStmt | .unary => 2
  | .level .factor => 3
  | .level .term => 4
  | .level .comparison => 5
  | .level .equality => 6
  | .level .and => 7
  | .level .or => 8
  | .assignment => 9
  | .expression => 10
  | .exprStmt | .ifStmt | .printStmt | .whileStmt | .arguments => 11

/-- Whether a nonterminal can be the empty text. -/
def nullable : Nonterminal → Bool
  | .program => true
  | _ => false

end Nonterminal

namespace Rule

/-- Whether a rule can be the empty text. -/
def nullable : Rule → Bool
  | .token _ | .never => false
  | .named name => name.nullable
  | .empty | .optional _ | .many _ | .upTo .. => true
  | .seq first second => first.nullable && second.nullable
  | .choice left right => left.nullable || right.nullable

/-- The tokens that a rule can begin with. -/
def first : Rule → List Kind
  | .token kind => [kind]
  | .named name => name.first
  | .empty | .never => []
  | .seq left right => left.first ++ if left.nullable then right.first else []
  | .choice left right => left.first ++ right.first
  | .optional inner | .many inner | .upTo _ inner => inner.first

end Rule

/-- A token that comes next, or the end. -/
abbrev Ahead := List (Option Kind)

/-- What can come next in front of a rule, where the given can come next behind it. -/
def Rule.ahead (rule : Rule) (follow : Ahead) : Ahead :=
  rule.first.map some ++ if rule.nullable then follow else []

/-- The levels that are looser than a level. -/
def Level.looser : Level → List Level
  | .or => []
  | .and => [.or]
  | .equality => [.or, .and]
  | .comparison => [.or, .and, .equality]
  | .term => [.or, .and, .equality, .comparison]
  | .factor => [.or, .and, .equality, .comparison, .term]

/-- The tokens that can stand behind a chain of operands. -/
def Level.follow (level : Level) : List Kind :=
  [.semicolon, .rightParen, .comma, .equal] ++ level.looser.flatMap operators

/-- What can come next behind a nonterminal. -/
def Nonterminal.follow : Nonterminal → Ahead
  | .program => [none]
  | .declaration | .classDecl | .funDecl =>
    none :: some .rightBrace :: Nonterminal.declaration.first.map some
  | .varDecl | .function | .statement | .exprStmt | .forStmt | .ifStmt | .printStmt
  | .returnStmt | .whileStmt | .breakStmt | .continueStmt | .block =>
    none :: (Kind.rightBrace :: .else :: .semicolon :: Nonterminal.declaration.first).map some
  | .parameters | .arguments => [some .rightParen]
  | .expression | .assignment => [some .semicolon, some .rightParen, some .comma]
  | .level own => own.follow.map some
  | .unary | .call => (Level.factor.follow ++ operators .factor).map some
  | .primary => (.leftParen :: .dot :: Level.factor.follow ++ operators .factor).map some

/-- What is taken behind a branch whenever it can be. -/
def elseClause : Rule := all [.token .else, .named .statement]

namespace Rule

/-- Whether some text is of the rule, where the known nonterminals have one. -/
def yields (known : Nonterminal → Bool) : Rule → Bool
  | .token _ | .empty | .optional _ | .many _ => true
  | .never | .upTo .. => false
  | .named name => known name
  | .seq first second => first.yields known && second.yields known
  | .choice left right => left.yields known || right.yields known

def isElse : Rule → Bool
  | .seq (.token .else) (.seq (.named .statement) .empty) => true
  | _ => false

/-- Whether an `else` in front of the rule is part of an `else` clause. -/
def keepsElse (rule : Rule) (follow : Ahead) : Bool :=
  some .else ∉ rule.ahead follow ||
    match rule with
    | .empty => true
    | .seq (.optional clause) .empty => clause.isElse
    | _ => false

/-- Whether none of the tokens can come next. -/
def apart (kinds : List Kind) (follow : Ahead) : Bool := kinds.all (some · ∉ follow)

/-- Whether the next token always says how to go on in a rule that the given can follow. -/
def fits : Rule → Ahead → Bool
  | .token _, _ | .empty, _ | .never, _ => true
  | .named name, follow => follow.all (· ∈ name.follow)
  | .seq first second, follow =>
    first.fits (second.ahead follow) && second.fits follow && second.keepsElse follow &&
      second.yields (fun _ => true)
  | .choice left right, follow =>
    left.fits follow && right.fits follow && !left.nullable && !right.nullable &&
      apart left.first (right.first.map some)
  | .optional inner, follow =>
    inner.fits follow && !inner.nullable && (apart inner.first follow || inner.isElse)
  | .many inner, follow =>
    inner.fits ((Rule.many inner).ahead follow) && !inner.nullable && apart inner.first follow &&
      (Rule.many inner).keepsElse follow
  | .upTo .., _ => false

end Rule

/-- The next token always says how to go on. -/
theorem fits_relaxed (name : Nonterminal) : (relaxed name).fits name.follow := by
  cases name with
  | level level => cases level <;> decide +kernel
  | _ => decide +kernel

/-! ## The tables are right -/

theorem nullable_relaxed (name : Nonterminal) : (relaxed name).nullable = name.nullable := by
  cases name with
  | level level => cases level <;> rfl
  | _ => rfl

theorem first_relaxed (name : Nonterminal) : (relaxed name).first ⊆ name.first := by
  cases name with
  | level level => cases level <;> decide +kernel
  | _ => decide +kernel

/-- What a rule admits is empty or begins as the tables say. -/
theorem Admits.begins {rule : Rule} {text : List Kind} (admits : Admits rule text) :
    (text = [] → rule.nullable) ∧ ∀ kind ∈ text.head?, kind ∈ rule.first := by
  induction admits with
  | token kind => exact ⟨nofun, by rintro _ ⟨⟩; exact List.mem_singleton.mpr rfl⟩
  | @named name text _ ih =>
    refine ⟨fun empty => ?_, fun kind head => first_relaxed name (ih.2 kind head)⟩
    rw [Rule.nullable, ← nullable_relaxed]
    exact ih.1 empty
  | empty => exact ⟨fun _ => rfl, nofun⟩
  | @seq first second u v _ _ ih ih' =>
    cases u with
    | nil =>
      -- an empty first part lets the second one begin the text
      have nothing := ih.1 rfl
      refine ⟨fun empty => ?_, fun kind head => ?_⟩
      · rw [Rule.nullable, nothing, ih'.1 empty]
        rfl
      · rw [Rule.first, if_pos nothing]
        exact List.mem_append_right _ (ih'.2 kind head)
    | cons kind u =>
      refine ⟨nofun, ?_⟩
      rintro _ ⟨⟩
      exact List.mem_append_left _ (ih.2 kind rfl)
  | left _ ih =>
    refine ⟨fun empty => ?_, fun kind head => List.mem_append_left _ (ih.2 kind head)⟩
    rw [Rule.nullable, ih.1 empty, Bool.true_or]
  | right _ ih =>
    refine ⟨fun empty => ?_, fun kind head => List.mem_append_right _ (ih.2 kind head)⟩
    rw [Rule.nullable, ih.1 empty, Bool.or_true]
  | absent | done => exact ⟨fun _ => rfl, nofun⟩
  | present _ ih => exact ⟨fun _ => rfl, ih.2⟩
  | @more inner u v _ _ ih ih' =>
    refine ⟨fun _ => rfl, fun kind head => ?_⟩
    cases u with
    -- an empty repetition step leaves the beginning to the next ones
    | nil => exact ih'.2 kind head
    | cons first u => exact ih.2 kind head

/-- A rule that cannot be empty begins with one of its first tokens. -/
theorem Admits.solid {rule : Rule} {text : List Kind} (admits : Admits rule text)
    (solid : rule.nullable = false) : ∃ kind rest, text = kind :: rest ∧ kind ∈ rule.first := by
  obtain ⟨empty, first⟩ := admits.begins
  cases text with
  | nil =>
    rw [empty rfl] at solid
    cases solid
  | cons kind rest => exact ⟨kind, rest, rfl, first kind rfl⟩

/-- A rule that needs no nonterminal but known ones has a text. -/
theorem text_of_yields {known : Nonterminal → Bool}
    (texts : ∀ name, known name → ∃ text, Admits (.named name) text) {rule : Rule}
    (yields : rule.yields known) : ∃ text, Admits rule text := by
  induction rule with
  | token kind => exact ⟨_, .token kind⟩
  | named name => exact texts name yields
  | empty => exact ⟨_, .empty⟩
  | seq first second ih ih' =>
    obtain ⟨left, right⟩ := Bool.and_eq_true_iff.mp yields
    obtain ⟨u, left⟩ := ih left
    obtain ⟨v, right⟩ := ih' right
    exact ⟨_, left.seq right⟩
  | never => cases yields
  -- one alternative with a text is enough
  | choice left right ih ih' =>
    rcases Bool.or_eq_true_iff.mp yields with here | there
    · obtain ⟨u, here⟩ := ih here
      exact ⟨u, .left here⟩
    · obtain ⟨u, there⟩ := ih' there
      exact ⟨u, .right there⟩
  | optional inner => exact ⟨_, .absent⟩
  | many inner => exact ⟨_, .done⟩
  | upTo bound inner => cases yields

/-- Every nonterminal has a text. -/
theorem exists_text (name : Nonterminal) : ∃ text, Admits (.named name) text := by
  have lower (name : Nonterminal) :
      (relaxed name).yields (fun other => decide (other.rank < name.rank)) := by
    cases name with
    | level level => cases level <;> rfl
    | _ => rfl
  induction h : name.rank using Nat.strongRecOn generalizing name with
  | ind rank ih =>
    obtain ⟨text, admits⟩ := text_of_yields
      (fun other less => ih _ (h ▸ of_decide_eq_true less) other rfl) (lower name)
    exact ⟨text, .named admits⟩

theorem exists_rule_text {rule : Rule} (yields : rule.yields fun _ => true) :
    ∃ text, Admits rule text :=
  text_of_yields (fun name _ => exists_text name) yields

/-! ## What can stand behind a rule -/

/-- The texts of a rule. -/
def Rule.language (rule : Rule) : Language Kind := {text | Admits rule text}

/-- Texts that can stand behind a rule: the given comes next in them, and where that is
`else`, they begin with a whole `else` clause. -/
structure Within (follow : Ahead) (texts : Language Kind) : Prop where
  heads : ∀ text ∈ texts, text.head? ∈ follow
  dangling : ∀ text, .else :: text ∈ texts → .else :: text ∈ elseClause.language * texts

theorem Within.mono {follow more : Ahead} {texts : Language Kind} (within : Within follow texts)
    (sub : ∀ next ∈ follow, next ∈ more) : Within more texts :=
  ⟨fun text among => sub _ (within.heads text among), within.dangling⟩

section Behind

variable {rule : Rule} {follow : Ahead} {texts : Language Kind}

theorem head_append {u v : List Kind} (none : u = [] → v.head? ∈ follow)
    (some : ∀ kind ∈ u.head?, some kind ∈ follow) : (u ++ v).head? ∈ follow := by
  cases u with
  | nil => exact none rfl
  | cons kind rest => exact some kind rfl

/-- What comes next in front of a rule. -/
theorem head_ahead (within : Within follow texts) {text : List Kind}
    (among : text ∈ rule.language * texts) : text.head? ∈ rule.ahead follow := by
  obtain ⟨u, admits, v, behind, rfl⟩ := Language.mem_mul.mp among
  obtain ⟨empty, first⟩ := Admits.begins admits
  refine head_append (fun none => ?_) fun kind head => ?_
  · rw [Rule.ahead, if_pos (empty none)]
    exact List.mem_append_right _ (within.heads v behind)
  · exact List.mem_append_left _ (List.mem_map_of_mem (first kind head))

theorem isElse_iff (clause : Rule) : clause.isElse ↔ clause = elseClause := by
  constructor
  · intro same
    unfold Rule.isElse at same
    split at same
    · rfl
    · cases same
  · rintro rfl
    rfl

theorem subset_after (nothing : Admits rule []) (texts : Language Kind) :
    texts ≤ rule.language * texts :=
  fun text among => Language.mem_mul.mpr ⟨[], nothing, text, among, rfl⟩

/-- What can stand behind what is in front of a rule. -/
theorem Within.after (within : Within follow texts) (keeps : rule.keepsElse follow) :
    Within (rule.ahead follow) (rule.language * texts) := by
  refine ⟨fun text => head_ahead within, fun text among => ?_⟩
  rcases Bool.or_eq_true_iff.mp keeps with never | shape
  · exact absurd (head_ahead within among) (of_decide_eq_true never)
  split at shape
  · -- nothing comes in between
    have same : (Rule.empty).language = 1 := by
      ext text
      constructor
      · rintro ⟨⟩
        rfl
      · rintro ⟨⟩
        exact .empty
    rw [same, one_mul] at among ⊢
    exact within.dangling text among
  · -- the clause itself, or what is behind it
    next clause =>
    obtain rfl := (isElse_iff clause).mp shape
    have nothing : Admits (.seq (.optional elseClause) .empty) [] := .last .absent
    have larger := subset_after nothing texts
    obtain ⟨u, admits, v, behind, split⟩ := Language.mem_mul.mp among
    cases Admits.of_last admits with
    | absent =>
      obtain rfl : v = .else :: text := split
      exact mul_le_mul_right larger _ (within.dangling text behind)
    | present body => exact Language.mem_mul.mpr ⟨u, body, v, larger behind, split⟩
  · cases shape

end Behind

/-! ## Reading by a rule -/

/-- The kinds of some tokens. -/
abbrev kinds (ts : List Token) : List Kind := ts.map Token.kind

/-- What comes next. -/
def heading (ts : List Token) : Option Kind := (kinds ts).head?

/-- Tokens in front leave alone how a text and what is left compare at their first kind. -/
theorem heading_append {text : List Kind} {rest : List Token} (same : text.head? = heading rest)
    (ts : List Token) : (kinds ts ++ text).head? = heading (ts ++ rest) := by
  cases ts with
  | nil => exact same
  | cons t ts => rfl

/-- The tokens begin with a text of the rule, and whatever can stand behind the rule and
begins as what is left stands behind that text. -/
def Taken (follow : Ahead) (rule : Rule) (tokens rest : List Token) : Prop :=
  ∃ ts, tokens = ts ++ rest ∧ Admits rule (kinds ts) ∧
    ∀ texts, Within follow texts → ∀ text, text.head? = heading rest →
      kinds ts ++ text ∈ rule.language * texts → text ∈ texts

/-- The tokens in front of what is left begin a text of the rule, but no such text, with what
can stand behind it, goes on as they do. -/
def Stuck (follow : Ahead) (rule : Rule) (tokens rest : List Token) : Prop :=
  ∃ ts, tokens = ts ++ rest ∧ (∃ more, Admits rule (kinds ts ++ more)) ∧
    ∀ texts, Within follow texts → ∀ text, text.head? = heading rest →
      kinds ts ++ text ∉ rule.language * texts

section Reading

variable {follow : Ahead} {rule first second former latter inner : Rule}
  {tokens between rest : List Token} {kind : Kind}

theorem mem_after {texts : Language Kind} {whole : List Kind} :
    whole ∈ rule.language * texts ↔ ∃ u, Admits rule u ∧ ∃ v ∈ texts, u ++ v = whole :=
  Language.mem_mul

/-- What is left after a text of a rule is no longer than before it. -/
theorem Taken.length (taken : Taken follow rule tokens rest) : rest.length ≤ tokens.length := by
  obtain ⟨ts, rfl, -⟩ := taken
  rw [List.length_append]
  omega

/-- A rule without an empty text takes one token at least. -/
theorem Taken.shorter (taken : Taken follow rule tokens rest) (solid : rule.nullable = false) :
    rest.length < tokens.length := by
  obtain ⟨ts, rfl, admits, -⟩ := taken
  obtain ⟨kind, others, shape, -⟩ := admits.solid solid
  have longer : ts.length = others.length + 1 := by
    simpa using congrArg List.length shape
  rw [List.length_append]
  omega

/-! ### Single tokens and nonterminals -/

theorem Taken.token {t : Token} (same : t.kind = kind) :
    Taken follow (.token kind) (t :: rest) rest := by
  subst same
  refine ⟨[t], rfl, .token _, fun texts _ text _ among => ?_⟩
  obtain ⟨u, admits, v, behind, split⟩ := mem_after.mp among
  obtain rfl := Admits.of_token admits
  obtain rfl : v = text := by simpa using split
  exact behind

/-- Nothing is taken, and the next token cannot begin the rule. -/
theorem Stuck.here (yields : rule.yields fun _ => true) (solid : rule.nullable = false)
    (other : ∀ kind ∈ heading tokens, kind ∉ rule.first) : Stuck follow rule tokens tokens := by
  refine ⟨[], rfl, exists_rule_text yields, fun texts _ text head among => ?_⟩
  obtain ⟨u, admits, v, -, split⟩ := mem_after.mp among
  obtain ⟨kind, others, rfl, first⟩ := Admits.solid admits solid
  refine other kind ?_ first
  rw [← head, ← show kind :: others ++ v = text from split]
  rfl

theorem Taken.empty : Taken follow .empty tokens tokens := by
  refine ⟨[], rfl, .empty, fun texts _ text _ among => ?_⟩
  obtain ⟨u, admits, v, behind, split⟩ := mem_after.mp among
  cases admits
  obtain rfl : v = text := split
  exact behind

theorem language_named (name : Nonterminal) :
    (Rule.named name).language = (relaxed name).language := by
  ext text
  constructor
  · rintro ⟨⟩
    assumption
  · exact .named

theorem sub_follow {name : Nonterminal} (fits : (Rule.named name).fits follow) :
    ∀ next ∈ follow, next ∈ name.follow := fun next among =>
  of_decide_eq_true (List.all_eq_true.mp fits next among)

/-- A text of the body of a rule is one of the rule. -/
theorem Taken.named {name : Nonterminal} (fits : (Rule.named name).fits follow)
    (taken : Taken name.follow (relaxed name) tokens rest) :
    Taken follow (.named name) tokens rest := by
  obtain ⟨ts, split, admits, only⟩ := taken
  refine ⟨ts, split, .named admits, fun texts within text head among => ?_⟩
  rw [language_named] at among
  exact only texts (within.mono (sub_follow fits)) text head among

/-- Where the body of a rule is stuck, the rule is. -/
theorem Stuck.named {name : Nonterminal} (fits : (Rule.named name).fits follow)
    (stuck : Stuck name.follow (relaxed name) tokens rest) :
    Stuck follow (.named name) tokens rest := by
  obtain ⟨ts, split, ⟨more, admits⟩, none⟩ := stuck
  refine ⟨ts, split, ⟨more, .named admits⟩, fun texts within text head among => ?_⟩
  rw [language_named] at among
  exact none texts (within.mono (sub_follow fits)) text head among

/-! ### One rule after another -/

theorem language_seq (first second : Rule) :
    (Rule.seq first second).language = first.language * second.language := by
  ext text
  constructor
  · rintro ⟨⟩
    exact Language.mem_mul.mpr ⟨_, ‹_›, _, ‹_›, rfl⟩
  · intro among
    obtain ⟨u, left, v, right, rfl⟩ := Language.mem_mul.mp among
    exact Admits.seq left right

/-- What a row of rules that fits consists of. -/
theorem fits_seq (fits : (Rule.seq first second).fits follow) :
    first.fits (second.ahead follow) ∧ second.fits follow ∧ second.keepsElse follow ∧
      second.yields fun _ => true := by
  simpa only [Rule.fits, Bool.and_eq_true, and_assoc] using fits

/-- A text of the first rule and then one of the second is one of the two in a row. -/
theorem Taken.seq (fits : (Rule.seq first second).fits follow)
    (taken : Taken (second.ahead follow) first tokens between)
    (next : Taken follow second between rest) :
    Taken follow (.seq first second) tokens rest := by
  obtain ⟨-, -, keeps, -⟩ := fits_seq fits
  obtain ⟨ts, rfl, admits, only⟩ := taken
  obtain ⟨us, rfl, admits', only'⟩ := next
  refine ⟨ts ++ us, (List.append_assoc ..).symm, ?_, fun texts within text head among => ?_⟩
  · rw [kinds, List.map_append]
    exact admits.seq admits'
  · rw [language_seq, mul_assoc, kinds, List.map_append, List.append_assoc] at among
    have behind := only _ (within.after keeps) _ (heading_append head us) among
    exact only' texts within text head behind

/-- Where the first rule of a row is stuck, the row is. -/
theorem Stuck.seq_left (fits : (Rule.seq first second).fits follow)
    (stuck : Stuck (second.ahead follow) first tokens rest) :
    Stuck follow (.seq first second) tokens rest := by
  obtain ⟨-, -, keeps, yields⟩ := fits_seq fits
  obtain ⟨ts, split, ⟨more, admits⟩, none⟩ := stuck
  obtain ⟨behind, admits'⟩ := exists_rule_text yields
  refine ⟨ts, split, ⟨more ++ behind, ?_⟩, fun texts within text head among => ?_⟩
  · rw [← List.append_assoc]
    exact admits.seq admits'
  · rw [language_seq, mul_assoc] at among
    exact none _ (within.after keeps) text head among

/-- Where the second rule is stuck after a text of the first, the row is. -/
theorem Stuck.seq_right (fits : (Rule.seq first second).fits follow)
    (taken : Taken (second.ahead follow) first tokens between)
    (stuck : Stuck follow second between rest) :
    Stuck follow (.seq first second) tokens rest := by
  obtain ⟨-, -, keeps, -⟩ := fits_seq fits
  obtain ⟨ts, rfl, admits, only⟩ := taken
  obtain ⟨us, rfl, ⟨more, admits'⟩, none⟩ := stuck
  refine ⟨ts ++ us, (List.append_assoc ..).symm, ⟨more, ?_⟩, fun texts within text head among => ?_⟩
  · rw [kinds, List.map_append, List.append_assoc]
    exact admits.seq admits'
  · rw [language_seq, mul_assoc, kinds, List.map_append, List.append_assoc] at among
    have behind := only _ (within.after keeps) _ (heading_append head us) among
    exact none texts within text head behind

/-! ### Alternatives -/

theorem language_choice (former latter : Rule) :
    (Rule.choice former latter).language = former.language + latter.language := by
  ext text
  constructor
  · rintro (⟨⟩ | ⟨⟩)
    · exact .inl ‹_›
    · exact .inr ‹_›
  · rintro (here | there)
    · exact Admits.left here
    · exact Admits.right there

theorem apart_iff {heads : List Kind} {follow : Ahead} :
    apart heads follow ↔ ∀ kind ∈ heads, some kind ∉ follow := by
  simp [apart]

/-- The alternatives of a choice that fits begin differently, and neither has an empty text. -/
theorem fits_choice (fits : (Rule.choice former latter).fits follow) :
    former.fits follow ∧ latter.fits follow ∧ former.nullable = false ∧ latter.nullable = false ∧
      ∀ kind ∈ former.first, kind ∉ latter.first := by
  simp only [Rule.fits, Bool.and_eq_true, Bool.not_eq_true', and_assoc, apart_iff] at fits
  obtain ⟨l, r, solid, solid', distinct⟩ := fits
  exact ⟨l, r, solid, solid', fun kind here there =>
    distinct kind here (List.mem_map_of_mem there)⟩

section Heads

variable {texts : Language Kind} {whole : List Kind}

/-- What begins with a rule that cannot be empty begins with one of its first tokens. -/
theorem head_of_solid (solid : rule.nullable = false) (among : whole ∈ rule.language * texts) :
    ∃ kind ∈ whole.head?, kind ∈ rule.first := by
  obtain ⟨u, admits, v, -, rfl⟩ := mem_after.mp among
  obtain ⟨kind, others, rfl, first⟩ := Admits.solid admits solid
  exact ⟨kind, rfl, first⟩

theorem head_of_taken {ts : List Token} (solid : rule.nullable = false)
    (admits : Admits rule (kinds ts)) (text : List Kind) :
    ∃ kind ∈ (kinds ts ++ text).head?, kind ∈ rule.first := by
  obtain ⟨kind, others, shape, first⟩ := admits.solid solid
  rw [shape]
  exact ⟨kind, rfl, first⟩

/-- What does not begin as the second alternative is the first one. -/
theorem mem_former (fits : (Rule.choice former latter).fits follow)
    (other : ∀ kind ∈ whole.head?, kind ∉ latter.first)
    (among : whole ∈ (Rule.choice former latter).language * texts) :
    whole ∈ former.language * texts := by
  obtain ⟨-, -, -, solid, -⟩ := fits_choice fits
  rw [language_choice, add_mul] at among
  rcases among with here | there
  · exact here
  · obtain ⟨kind, head, first⟩ := head_of_solid solid there
    exact absurd first (other kind head)

/-- A text whose first kind does not begin the former alternative is one of the latter. -/
theorem mem_latter (fits : (Rule.choice former latter).fits follow)
    (other : ∀ kind ∈ whole.head?, kind ∉ former.first)
    (among : whole ∈ (Rule.choice former latter).language * texts) :
    whole ∈ latter.language * texts := by
  obtain ⟨-, -, solid, -, -⟩ := fits_choice fits
  rw [language_choice, add_mul] at among
  rcases among with here | there
  · obtain ⟨kind, head, first⟩ := head_of_solid solid here
    exact absurd first (other kind head)
  · exact there

end Heads

theorem Taken.left (fits : (Rule.choice former latter).fits follow)
    (taken : Taken follow former tokens rest) :
    Taken follow (.choice former latter) tokens rest := by
  obtain ⟨-, -, solid, -, distinct⟩ := fits_choice fits
  obtain ⟨ts, split, admits, only⟩ := taken
  refine ⟨ts, split, .left admits, fun texts within text head among => ?_⟩
  obtain ⟨kind, next, first⟩ := head_of_taken solid admits text
  refine only texts within text head (mem_former fits ?_ among)
  rintro _ same
  obtain rfl := Option.mem_unique same next
  exact distinct _ first

theorem Taken.right (fits : (Rule.choice former latter).fits follow)
    (taken : Taken follow latter tokens rest) :
    Taken follow (.choice former latter) tokens rest := by
  obtain ⟨-, -, -, solid, distinct⟩ := fits_choice fits
  obtain ⟨ts, split, admits, only⟩ := taken
  refine ⟨ts, split, .right admits, fun texts within text head among => ?_⟩
  obtain ⟨kind, next, first⟩ := head_of_taken solid admits text
  refine only texts within text head (mem_latter fits ?_ among)
  rintro _ same there
  obtain rfl := Option.mem_unique same next
  exact distinct _ there first

/-- Where the former alternative is stuck and the latter cannot begin, the choice is stuck. -/
theorem Stuck.left (fits : (Rule.choice former latter).fits follow)
    (other : ∀ kind ∈ heading tokens, kind ∉ latter.first)
    (stuck : Stuck follow former tokens rest) :
    Stuck follow (.choice former latter) tokens rest := by
  obtain ⟨ts, split, ⟨more, admits⟩, none⟩ := stuck
  refine ⟨ts, split, ⟨more, .left admits⟩, fun texts within text head among => ?_⟩
  refine none texts within text head (mem_former fits ?_ among)
  rwa [heading_append head, ← split]

/-- Where the latter alternative is stuck and the former cannot begin, the choice is stuck. -/
theorem Stuck.right (fits : (Rule.choice former latter).fits follow)
    (other : ∀ kind ∈ heading tokens, kind ∉ former.first)
    (stuck : Stuck follow latter tokens rest) :
    Stuck follow (.choice former latter) tokens rest := by
  obtain ⟨ts, split, ⟨more, admits⟩, none⟩ := stuck
  refine ⟨ts, split, ⟨more, .right admits⟩, fun texts within text head among => ?_⟩
  refine none texts within text head (mem_latter fits ?_ among)
  rwa [heading_append head, ← split]

theorem admits_anyToken {ks : List Kind} {text : List Kind} :
    Admits (anyToken ks) text ↔ ∃ kind ∈ ks, text = [kind] := by
  constructor
  · intro admits
    induction ks with
    | nil => cases admits
    | cons kind ks ih =>
      cases admits with
      | left here => exact ⟨kind, List.mem_cons_self, here.of_token⟩
      | right there =>
        obtain ⟨other, among, same⟩ := ih there
        exact ⟨other, List.mem_cons_of_mem _ among, same⟩
  · rintro ⟨kind, among, rfl⟩
    exact .any (List.mem_map_of_mem among) (.token kind)

theorem Taken.anyToken {t : Token} {ks : List Kind} (among : t.kind ∈ ks) :
    Taken follow (anyToken ks) (t :: rest) rest := by
  refine ⟨[t], rfl, admits_anyToken.mpr ⟨t.kind, among, rfl⟩, fun texts _ text _ among => ?_⟩
  obtain ⟨u, admits, v, behind, split⟩ := mem_after.mp among
  obtain ⟨kind, -, rfl⟩ := admits_anyToken.mp admits
  obtain rfl : v = text := (List.cons.inj split).2
  exact behind

section Alternatives

variable {rules : List Rule} {i : Nat}

theorem first_any (rules : List Rule) : (any rules).first = rules.flatMap Rule.first := by
  induction rules with
  | nil => rfl
  | cons rule rules ih => exact congrArg (rule.first ++ ·) ih

theorem fits_any (alternative : rules[i]? = some rule) (fits : (any rules).fits follow) :
    rule.fits follow := by
  induction rules generalizing i with
  | nil => cases alternative
  | cons first rules ih =>
    obtain ⟨here, there, -⟩ := fits_choice fits
    cases i with
    | zero =>
      cases alternative
      exact here
    | succ i => exact ih alternative there

/-- A text of an alternative is one of the choice. -/
theorem Taken.any (alternative : rules[i]? = some rule) (fits : (any rules).fits follow)
    (taken : Taken follow rule tokens rest) : Taken follow (any rules) tokens rest := by
  induction rules generalizing i with
  | nil => cases alternative
  | cons first rules ih =>
    cases i with
    | zero =>
      cases alternative
      exact .left fits taken
    | succ i => exact .right fits (ih alternative (fits_choice fits).2.1)

/-- The next token begins no other alternative. -/
theorem Stuck.any (alternative : rules[i]? = some rule) (fits : (any rules).fits follow)
    (other : ∀ kind ∈ heading tokens, kind ∉ (rules.eraseIdx i).flatMap Rule.first)
    (stuck : Stuck follow rule tokens rest) : Stuck follow (any rules) tokens rest := by
  induction rules generalizing i with
  | nil => cases alternative
  | cons first rules ih =>
    cases i with
    | zero =>
      cases alternative
      refine .left fits ?_ stuck
      rwa [← first_any] at other
    | succ i =>
      rw [List.eraseIdx_cons_succ, List.flatMap_cons] at other
      refine .right fits (fun kind head here => ?_) (ih alternative (fits_choice fits).2.1 ?_)
      · exact other kind head (List.mem_append_left _ here)
      · exact fun kind head there => other kind head (List.mem_append_right _ there)

end Alternatives

/-! ### Optional parts -/

/-- The next token says that a part is to be read: the part begins with it, or nothing that
can stand behind the part does. -/
def Begun (follow : Ahead) (inner : Rule) (next : Option Kind) : Prop :=
  next ∉ follow ∨ ∃ kind ∈ next, kind ∈ inner.first

theorem language_optional (inner : Rule) : (Rule.optional inner).language = 1 + inner.language := by
  ext text
  constructor
  · rintro (⟨⟩ | ⟨⟩)
    · exact .inl rfl
    · exact .inr ‹_›
  · rintro (⟨⟨⟩⟩ | some)
    · exact .absent
    · exact Admits.present some

/-- An optional part that fits is told from what can stand behind it, but for the alternative of
a branch. -/
theorem fits_optional (fits : (Rule.optional inner).fits follow) :
    inner.fits follow ∧ inner.nullable = false ∧
      ((∀ kind ∈ inner.first, some kind ∉ follow) ∨ inner = elseClause) := by
  simpa only [Rule.fits, Bool.and_eq_true, Bool.not_eq_true', and_assoc, Bool.or_eq_true,
    apart_iff, isElse_iff] using fits

/-- What begins as an optional part does begin with the part, also if it could stand behind
the part. -/
theorem mem_part (fits : (Rule.optional inner).fits follow) {texts : Language Kind}
    (within : Within follow texts) {whole : List Kind} (begun : Begun follow inner whole.head?)
    (among : whole ∈ (Rule.optional inner).language * texts) : whole ∈ inner.language * texts := by
  obtain ⟨-, -, order⟩ := fits_optional fits
  rw [language_optional, add_mul, one_mul] at among
  rcases among with behind | here
  · have next := within.heads whole behind
    rcases begun with never | ⟨kind, head, first⟩
    · exact absurd next never
    rw [Option.mem_def.mp head] at next
    rcases order with apart | rfl
    · exact absurd next (apart kind first)
    · obtain rfl : kind = .else := List.mem_singleton.mp first
      obtain ⟨others, rfl⟩ := List.head?_eq_some_iff.mp head
      exact within.dangling others behind
  · exact here

/-- Where the next token does not begin an optional part, the empty text is taken. -/
theorem Taken.absent (fits : (Rule.optional inner).fits follow)
    (other : ∀ kind ∈ heading tokens, kind ∉ inner.first) :
    Taken follow (.optional inner) tokens tokens := by
  obtain ⟨-, solid, -⟩ := fits_optional fits
  refine ⟨[], rfl, .absent, fun texts _ text head among => ?_⟩
  rw [language_optional, add_mul, one_mul] at among
  rcases among with behind | here
  · exact behind
  · obtain ⟨kind, next, first⟩ := head_of_solid solid here
    exact absurd first (other kind (head ▸ next))

theorem Taken.present (fits : (Rule.optional inner).fits follow)
    (taken : Taken follow inner tokens rest) : Taken follow (.optional inner) tokens rest := by
  obtain ⟨-, solid, -⟩ := fits_optional fits
  obtain ⟨ts, split, admits, only⟩ := taken
  refine ⟨ts, split, .present admits, fun texts within text head among => ?_⟩
  exact only texts within text head
    (mem_part fits within (.inr (head_of_taken solid admits text)) among)

/-- Where an optional part is begun and stuck, nothing can be read in its place. -/
theorem Stuck.present (fits : (Rule.optional inner).fits follow)
    (begun : Begun follow inner (heading tokens)) (stuck : Stuck follow inner tokens rest) :
    Stuck follow (.optional inner) tokens rest := by
  obtain ⟨ts, split, ⟨more, admits⟩, none⟩ := stuck
  refine ⟨ts, split, ⟨more, .present admits⟩, fun texts within text head among => ?_⟩
  refine none texts within text head (mem_part fits within ?_ among)
  rwa [heading_append head, ← split]

/-! ### Repetitions -/

theorem language_many (inner : Rule) :
    (Rule.many inner).language = 1 + inner.language * (Rule.many inner).language := by
  ext text
  constructor
  · rintro (⟨⟩ | ⟨⟩)
    · exact .inl rfl
    · exact .inr (Language.mem_mul.mpr ⟨_, ‹_›, _, ‹_›, rfl⟩)
  · rintro (⟨⟨⟩⟩ | some)
    · exact .done
    · obtain ⟨u, first, v, rest, rfl⟩ := Language.mem_mul.mp some
      exact Admits.more first rest

/-- A repetition that fits is told from what can stand behind it. -/
theorem fits_many (fits : (Rule.many inner).fits follow) :
    inner.fits ((Rule.many inner).ahead follow) ∧ inner.nullable = false ∧
      (∀ kind ∈ inner.first, some kind ∉ follow) ∧ (Rule.many inner).keepsElse follow := by
  simpa only [Rule.fits, Bool.and_eq_true, Bool.not_eq_true', and_assoc, apart_iff] using fits

/-- What begins as one of the parts does begin with a part. -/
theorem mem_repeated (fits : (Rule.many inner).fits follow) {texts : Language Kind}
    (within : Within follow texts) {whole : List Kind} (begun : Begun follow inner whole.head?)
    (among : whole ∈ (Rule.many inner).language * texts) :
    whole ∈ inner.language * ((Rule.many inner).language * texts) := by
  obtain ⟨-, -, apart, -⟩ := fits_many fits
  rw [language_many, add_mul, one_mul, mul_assoc] at among
  rcases among with behind | here
  · have next := within.heads whole behind
    rcases begun with never | ⟨kind, head, first⟩
    · exact absurd next never
    · rw [Option.mem_def.mp head] at next
      exact absurd next (apart kind first)
  · exact here

theorem Taken.done (fits : (Rule.many inner).fits follow)
    (other : ∀ kind ∈ heading tokens, kind ∉ inner.first) :
    Taken follow (.many inner) tokens tokens := by
  obtain ⟨-, solid, -, -⟩ := fits_many fits
  refine ⟨[], rfl, .done, fun texts _ text head among => ?_⟩
  rw [language_many, add_mul, one_mul, mul_assoc] at among
  rcases among with behind | here
  · exact behind
  · obtain ⟨kind, next, first⟩ := head_of_solid solid here
    exact absurd first (other kind (head ▸ next))

/-- One text more in front of a repetition. -/
theorem Taken.more (fits : (Rule.many inner).fits follow)
    (taken : Taken ((Rule.many inner).ahead follow) inner tokens between)
    (next : Taken follow (.many inner) between rest) :
    Taken follow (.many inner) tokens rest := by
  obtain ⟨-, solid, -, keeps⟩ := fits_many fits
  obtain ⟨ts, rfl, admits, only⟩ := taken
  obtain ⟨us, rfl, admits', only'⟩ := next
  refine ⟨ts ++ us, (List.append_assoc ..).symm, ?_, fun texts within text head among => ?_⟩
  · rw [kinds, List.map_append]
    exact admits.more admits'
  · rw [kinds, List.map_append, List.append_assoc] at among
    have part := mem_repeated fits within (.inr (head_of_taken solid admits _)) among
    have behind := only _ (within.after keeps) _ (heading_append head us) part
    exact only' texts within text head behind

/-- Where a repetition is begun and its first text is stuck, the repetition is. -/
theorem Stuck.begun (fits : (Rule.many inner).fits follow)
    (begun : Begun follow inner (heading tokens))
    (stuck : Stuck ((Rule.many inner).ahead follow) inner tokens rest) :
    Stuck follow (.many inner) tokens rest := by
  obtain ⟨-, -, -, keeps⟩ := fits_many fits
  obtain ⟨ts, split, ⟨more, admits⟩, none⟩ := stuck
  refine ⟨ts, split, ⟨more, ?_⟩, fun texts within text head among => ?_⟩
  · simpa using admits.more .done
  · refine none _ (within.after keeps) text head (mem_repeated fits within ?_ among)
    rwa [heading_append head, ← split]

/-- Where a repetition is stuck after some texts, it was stuck with them in front. -/
theorem Stuck.more (fits : (Rule.many inner).fits follow)
    (taken : Taken ((Rule.many inner).ahead follow) inner tokens between)
    (stuck : Stuck follow (.many inner) between rest) :
    Stuck follow (.many inner) tokens rest := by
  obtain ⟨-, solid, -, keeps⟩ := fits_many fits
  obtain ⟨ts, rfl, admits, only⟩ := taken
  obtain ⟨us, rfl, ⟨more, admits'⟩, none⟩ := stuck
  refine ⟨ts ++ us, (List.append_assoc ..).symm, ⟨more, ?_⟩, fun texts within text head among => ?_⟩
  · rw [kinds, List.map_append, List.append_assoc]
    exact admits.more admits'
  · rw [kinds, List.map_append, List.append_assoc] at among
    have part := mem_repeated fits within (.inr (head_of_taken solid admits _)) among
    have behind := only _ (within.after keeps) _ (heading_append head us) part
    exact none texts within text head behind

end Reading

end ClassScript.Parsing
