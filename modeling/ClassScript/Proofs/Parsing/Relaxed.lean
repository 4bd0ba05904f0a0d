import ClassScript.Proofs.Parsing.Grammar

/-!
# The relaxed grammar

`relaxed` is the grammar without the two limits that are no matter of the next token: any
operands joined by operators may stand left of `=`, and a list may have any length.
`Admits` is derivability from its rules. What the grammar derives, the relaxed one admits
(`Derives.admits`).
-/

namespace ClassScript.Parsing

open Source Rule

/-- The rule of each nonterminal, with anything that is no assignment left of `=` and with
lists of any length. -/
def relaxed : Nonterminal → Rule
  | .assignment =>
    all [.named (.level .or), .optional (all [.token .equal, .named .assignment])]
  | .parameters => all [.token .identifier, .optional (all [.token .comma, .named .parameters])]
  | .arguments => all [.named .expression, .optional (all [.token .comma, .named .arguments])]
  | name => grammar name

/-- The texts that a rule derives by the relaxed rules. No relaxed rule has a bound. -/
inductive Admits : Rule → List Kind → Prop
  | token (kind : Kind) : Admits (.token kind) [kind]
  | named {name : Nonterminal} {text} (body : Admits (relaxed name) text) :
      Admits (.named name) text
  | empty : Admits .empty []
  | seq {first second : Rule} {u v} (left : Admits first u) (right : Admits second v) :
      Admits (.seq first second) (u ++ v)
  | left {left right : Rule} {text} (inner : Admits left text) : Admits (.choice left right) text
  | right {left right : Rule} {text} (inner : Admits right text) : Admits (.choice left right) text
  | absent {inner : Rule} : Admits (.optional inner) []
  | present {inner : Rule} {text} (body : Admits inner text) : Admits (.optional inner) text
  | done {inner : Rule} : Admits (.many inner) []
  | more {inner : Rule} {u v} (first : Admits inner u) (rest : Admits (.many inner) v) :
      Admits (.many inner) (u ++ v)

/-! ## The grammar is part of it -/

/-- The rule with its repetitions unbounded. -/
def Rule.unbounded : Rule → Rule
  | .seq first second => .seq first.unbounded second.unbounded
  | .choice left right => .choice left.unbounded right.unbounded
  | .optional inner => .optional inner.unbounded
  | .many inner => .many inner.unbounded
  | .upTo _ inner => .many inner.unbounded
  | rule => rule

namespace Admits

variable {inner : Rule} {u v : List Kind}

/-- One more at the end of a repetition. -/
theorem snoc (before : Admits (.many inner) u) (last : Admits inner v) :
    Admits (.many inner) (u ++ v) := by
  generalize shape : Rule.many inner = r at before
  induction before with
  | done =>
    cases shape
    simpa using last.more .done
  | more first rest _ ih =>
    cases shape
    rw [List.append_assoc]
    exact first.more (ih rfl)
  | _ => cases shape

theorem cons {kind : Kind} (rest : Admits inner v) :
    Admits (.seq (.token kind) inner) (kind :: v) := .seq (.token kind) rest

/-- A rule that is the last one of a row. -/
theorem last (only : Admits inner u) : Admits (.seq inner .empty) u := by
  simpa using Admits.seq only .empty

theorem of_token {kind : Kind} (admits : Admits (.token kind) u) : u = [kind] := by
  cases admits
  rfl

theorem of_last (admits : Admits (.seq inner .empty) u) : Admits inner u := by
  cases admits with
  | seq only nothing =>
    cases nothing
    rwa [List.append_nil]

theorem of_cons {kind : Kind} (admits : Admits (.seq (.token kind) inner) u) :
    ∃ rest, u = kind :: rest ∧ Admits inner rest := by
  cases admits with
  | seq token rest =>
    obtain rfl := token.of_token
    exact ⟨_, rfl, rest⟩

/-- A rule with nothing of an optional part behind it. -/
theorem alone {rest : Rule} (first : Admits inner u) (nothing : Admits rest []) :
    Admits (all [inner, rest]) u := by
  have both := first.seq (last nothing)
  rwa [List.append_nil] at both

theorem any {rule : Rule} {rules : List Rule} (among : rule ∈ rules) (admits : Admits rule u) :
    Admits (any rules) u := by
  induction rules with
  | nil => cases among
  | cons first rest ih =>
    rcases List.mem_cons.mp among with rfl | later
    · exact .left admits
    · exact .right (ih later)

/-- A list that goes on with commas is one that ends in a shorter list. -/
theorem list {name : Nonterminal}
    (rule : relaxed name = all [inner, .optional (all [.token .comma, .named name])])
    (first : Admits inner u) (more : Admits (.many (all [.token .comma, inner])) v) :
    Admits (relaxed name) (u ++ v) := by
  rw [rule]
  generalize shape : Rule.many (all [.token .comma, inner]) = r at more
  induction more generalizing u with
  | done =>
    cases shape
    exact .seq first (last .absent)
  | more next _ _ ih =>
    cases shape
    obtain ⟨rest, rfl, item⟩ := next.of_cons
    have later : Admits (.named name) _ := .named (rule ▸ ih item.of_last rfl)
    exact .seq first (last (.present (cons (last later))))
  | _ => cases shape

/-- A call is an operand of every level. -/
theorem level_of_call (call : Admits (.named .call) u) (level : Level) :
    Admits (.named (.level level)) u := by
  have chain (level : Level) (operand : Admits (.named (operandRule level)) u) :
      Admits (.named (.level level)) u := .named (operand.alone .done)
  have unary : Admits (.named .unary) u := .named (.right (.left call))
  have factor := chain .factor unary
  have term := chain .term factor
  have comparison := chain .comparison term
  have equality := chain .equality comparison
  have and := chain .and equality
  cases level with
  | or => exact chain .or and
  | and => exact and
  | equality => exact equality
  | comparison => exact comparison
  | term => exact term
  | factor => exact factor

/-- What stands left of `=` by the grammar is a call. -/
theorem target (object : Admits (.optional (all [.named .call, .token .dot])) u) :
    Admits (.named .call) (u ++ [.identifier]) := by
  cases object with
  | absent =>
    have name : Admits (anyToken [.number, .string, .true, .false, .nil, .this, .identifier])
        [.identifier] := any (List.mem_map_of_mem (by decide)) (.token .identifier)
    have primary : Admits (.named .primary) [.identifier] := .named (.left name)
    exact .named (primary.alone .done)
  | present object =>
    -- one access more behind the call
    have access : Admits (all [.token .dot, .token .identifier]) [.dot, .identifier] :=
      cons (last (.token .identifier))
    cases object with
    | seq call dot =>
      obtain rfl := dot.of_last.of_token
      cases call with
      | named body =>
        cases body with
        | seq primary others =>
          have longer := others.of_last.snoc (.right (.left access))
          rw [List.append_assoc, List.append_assoc]
          exact .named (primary.seq (last longer))

end Admits

/-- The relaxed rule of a nonterminal admits what its rule derives. -/
theorem admits_relaxed {name : Nonterminal} {text : List Kind}
    (admits : Admits (grammar name).unbounded text) : Admits (relaxed name) text := by
  cases name with
  | assignment =>
    cases admits with
    | left assigned =>
      cases assigned with
      | seq object name =>
        obtain ⟨_, rfl, equals⟩ := name.of_cons
        obtain ⟨value, rfl, assigns⟩ := equals.of_cons
        -- any target may stand before the sign, a property included
        have behind : Admits (.optional (all [.token .equal, .named .assignment]))
            (.equal :: value) := .present (.cons assigns)
        have whole := (object.target.level_of_call .or).seq (.last behind)
        rwa [List.append_assoc] at whole
    | right other =>
      cases other with
      | left value => exact value.alone .absent
      | right none => cases none
  | parameters =>
    cases admits with
    | seq first more => exact .list rfl first more.of_last
  | arguments =>
    cases admits with
    | seq first more => exact .list rfl first more.of_last
  | level level => cases level <;> exact admits
  | _ => exact admits

/-- What the grammar derives is admitted. -/
theorem Derives.admits {rule : Rule} {text : List Kind} (derives : Derives rule text) :
    Admits rule.unbounded text := by
  induction derives with
  | token kind => exact .token kind
  | named _ ih => exact .named (admits_relaxed ih)
  | empty => exact .empty
  | seq _ _ ih ih' => exact .seq ih ih'
  | left _ ih => exact .left ih
  | right _ ih => exact .right ih
  | absent => exact .absent
  | present _ ih => exact .present ih
  | done => exact .done
  | more _ _ ih ih' => exact .more ih ih'
  | stop => exact .done
  | step _ _ ih ih' => exact .more ih ih'

end ClassScript.Parsing
