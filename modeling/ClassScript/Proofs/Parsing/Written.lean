import ClassScript.Proofs.Parsing.Renamed
import ClassScript.Proofs.Syntax.Symbols

/-!
# Reading undoes writing

The symbols of an expression are those of the tokens that it was read from
(`Tree.written`), so reading loses nothing but lines. Not every tree is read back from its
symbols: an operand has to hold together more tightly than what it is an operand of
(`Ranked`). The trees of tokens are of this kind, and every tree of this kind is read from
tokens that have its symbols, up to identities and lines (`Expr.Ranked.read`). Both proofs
go through the rules of the grammar by number, from assignments to calls: the first is an
induction on the tree of the tokens, the second on the expression.
-/

namespace ClassScript.Parsing

open Source Syntax

/-! ## The rules of the grammar in order -/

/-- The number of the rule that makes an expression: assignments, the levels of infix
operators, prefix operators, and last calls and what is in one piece anyway. -/
def tightness : Expr → Nat
  | .assign _ _ | .set _ _ _ => 0
  | .logical op _ _ => (InfixOp.logical op).level.rank + 1
  | .binary op _ _ _ => (InfixOp.binary op).level.rank + 1
  | .unary _ _ _ => 7
  | _ => 8

/-- Every operand is made by a later rule than what it is an operand of, where the left
operand of an infix operator may have operators of the same level; and no call has more
arguments than may be written. -/
inductive Ranked : Expr → Prop
  | literal {value} : Ranked (.literal value)
  | this {id line} : Ranked (.this id line)
  | super {id line method} : Ranked (.super id line method)
  | variable {o} : Ranked (.variable o)
  | group {e} (inner : Ranked e) : Ranked (.group e)
  | call {callee line arguments} (callee' : Ranked callee) (tight : 8 ≤ tightness callee)
      (arguments' : ∀ e ∈ arguments, Ranked e) (few : arguments.length ≤ 255) :
      Ranked (.call callee line arguments)
  | get {object name} (object' : Ranked object) (tight : 8 ≤ tightness object) :
      Ranked (.get object name)
  | unary {op line operand} (operand' : Ranked operand) (tight : 7 ≤ tightness operand) :
      Ranked (.unary op line operand)
  | join {op : InfixOp} {line left right} (left' : Ranked left) (right' : Ranked right)
      (tight : op.level.rank + 1 ≤ tightness left)
      (tighter : op.level.rank + 2 ≤ tightness right) : Ranked (op.join line left right)
  | assign {target value} (value' : Ranked value) : Ranked (.assign target value)
  | set {object name value} (object' : Ranked object) (tight : 8 ≤ tightness object)
      (value' : Ranked value) : Ranked (.set object name value)

theorem tightness_join (op : InfixOp) (line : Nat) (left right : Expr) :
    tightness (op.join line left right) = op.level.rank + 1 := by
  cases op <;> rfl

/-- An operator node is written as its operands with the operator between them. -/
theorem symbols_join (op : InfixOp) (line : Nat) (left right : Expr) :
    (op.join line left right).symbols = left.symbols ++ op.kind.symbol :: right.symbols := by
  cases op <;> rfl

/-! ## What was read is written as the text -/

/-- The expression is ranked, is made by a rule from the given one on, and has these
symbols. -/
structure Writes (rule : Nat) (e : Expr) (row : List Symbol) : Prop where
  ranked : Ranked e
  tight : rule ≤ tightness e
  symbols : e.symbols = row

/-- What is written for a tighter rule is written for a looser one. -/
theorem Writes.weaken {rule rule' : Nat} {e : Expr} {row : List Symbol}
    (writes : Writes rule e row) (le : rule' ≤ rule) : Writes rule' e row :=
  ⟨writes.ranked, Nat.le_trans le writes.tight, writes.symbols⟩

/-- The tokens of a phrase have these symbols, if it is about expressions. -/
def Phrase.IsWritten (row : List Symbol) : Phrase → Prop
  | primary e | call e => Writes 8 e row
  | callRest subject e => ∀ before, Writes 8 subject before → Writes 8 e (before ++ row)
  | arguments es => (∀ e ∈ es, Ranked e) ∧ es.length ≤ 255 ∧ Expr.listed es = row
  | moreArguments es => (∀ e ∈ es, Ranked e) ∧ Expr.listedBehind es = row
  | unary e => Writes 7 e row
  | chainRest level left e =>
    ∀ before, Writes (level.rank + 1) left before → Writes (level.rank + 1) e (before ++ row)
  | chain level e => Writes (level.rank + 1) e row
  | assignment e => Writes 0 e row
  | _ => True

theorem Phrase.isWritten_operand {level : Level} {e : Expr} {row : List Symbol} :
    (operand level e).IsWritten row ↔ Writes (level.rank + 2) e row := by
  cases level <;> exact Iff.rfl

theorem symbol_of_denotes {t : Token} {value : Literal} (constant : t.Denotes value)
    (spelled : t.WellSpelled) : value.symbol = t.symbol := by
  cases constant with
  | false keyword | true keyword | nil keyword => exact (spelled.symbol keyword rfl).symm
  | number kind | string kind => simp only [Literal.symbol, Token.symbol, kind]

theorem InfixOp.not_free (op : InfixOp) : isFree op.kind = false := by
  rcases op with op | op <;> cases op <;> rfl

theorem prefix_not_free (op : UnaryOp) : isFree op.kind = false := by
  cases op <;> rfl

theorem symbol_asName {t : Token} (name : t.kind = .identifier) : t.asName.symbol = t.symbol := by
  unfold Token.symbol
  rw [name]
  rfl

/-- The tree of well spelled tokens is ranked, and is written as they are. -/
theorem Tree.written {n n' : NodeId} {ts : List Token} {p : Phrase} (tree : Tree n ts p n')
    (spelled : ∀ t ∈ ts, t.WellSpelled) : p.IsWritten (ts.map Token.symbol) := by
  induction tree with
  | literal constant =>
    refine ⟨.literal, Nat.le_refl _, ?_⟩
    rw [Expr.symbols, symbol_of_denotes constant (spelled _ List.mem_cons_self)]
    rfl
  | this keyword =>
    refine ⟨.this, Nat.le_refl _, ?_⟩
    simp only [List.forall_mem_cons] at spelled
    simp only [Expr.symbols, List.map_cons, List.map_nil, spelled.1.symbol keyword rfl]
  | super keyword separator name =>
    refine ⟨.super, Nat.le_refl _, ?_⟩
    simp only [List.forall_mem_cons] at spelled
    simp only [Expr.symbols, List.map_cons, List.map_nil, spelled.1.symbol keyword rfl,
      spelled.2.1.symbol separator rfl, symbol_asName name]
  | identifier name =>
    refine ⟨.variable, Nat.le_refl _, ?_⟩
    simp only [Expr.symbols, List.map_cons, List.map_nil, symbol_asName name]
  | group opens _ closes ih =>
    simp only [List.cons_append, List.forall_mem_cons, List.forall_mem_append] at spelled
    obtain ⟨inner, -, same⟩ := ih spelled.2.1
    refine ⟨.group inner, Nat.le_refl _, ?_⟩
    simp only [Expr.symbols, List.map_cons, List.map_append, List.map_nil, List.cons_append,
      same, spelled.1.symbol opens rfl, spelled.2.2.1.symbol closes rfl]
  | uncalled =>
    -- the rest of a call is written behind the symbols of its subject
    intro before subject
    rwa [List.map_nil, List.append_nil]
  | called opens _ closes _ ih rest =>
    intro before subject
    simp only [List.cons_append, List.forall_mem_cons, List.forall_mem_append] at spelled
    obtain ⟨opening, inside, closing, behind⟩ := spelled
    obtain ⟨arguments, few, same⟩ := ih inside
    -- the call made here is the subject of what follows
    have made := rest behind _
      ⟨.call subject.ranked subject.tight arguments few, Nat.le_refl _, rfl⟩
    simpa only [Expr.symbols, subject.symbols, same, List.map_cons, List.map_append,
      List.cons_append, List.nil_append, List.append_assoc, opening.symbol opens rfl,
      closing.symbol closes rfl] using made
  | property separator name _ rest =>
    intro before subject
    simp only [List.forall_mem_cons] at spelled
    obtain ⟨dot, -, behind⟩ := spelled
    have made := rest behind _ ⟨.get subject.ranked subject.tight, Nat.le_refl _, rfl⟩
    simpa only [Expr.symbols, subject.symbols, List.map_cons, List.cons_append, List.nil_append,
      List.append_assoc, dot.symbol separator rfl, symbol_asName name] using made
  | call _ _ first rest =>
    rw [List.forall_mem_append] at spelled
    rw [List.map_append]
    exact rest spelled.2 _ (first spelled.1)
  | noArguments => exact ⟨nofun, Nat.zero_le _, rfl⟩
  | arguments _ _ few first more =>
    rw [List.forall_mem_append] at spelled
    obtain ⟨others, same⟩ := more spelled.2
    obtain ⟨ranked, -, same'⟩ := first spelled.1
    refine ⟨List.forall_mem_cons.mpr ⟨ranked, others⟩, few, ?_⟩
    rw [Expr.listed, same, same', List.map_append]
  | noMoreArguments => exact ⟨nofun, rfl⟩
  | moreArguments separator _ _ first more =>
    simp only [List.cons_append, List.forall_mem_cons, List.forall_mem_append] at spelled
    obtain ⟨comma, inside, behind⟩ := spelled
    obtain ⟨others, same⟩ := more behind
    obtain ⟨ranked, -, same'⟩ := first inside
    refine ⟨List.forall_mem_cons.mpr ⟨ranked, others⟩, ?_⟩
    rw [Expr.listedBehind, same, same', List.cons_append, List.cons_append, List.map_cons,
      List.map_append, comma.symbol separator rfl]
  | operated sign _ ih =>
    rw [List.forall_mem_cons] at spelled
    obtain ⟨operand, tight, same⟩ := ih spelled.2
    refine ⟨.unary operand tight, Nat.le_refl _, ?_⟩
    rw [Expr.symbols, same, List.map_cons, spelled.1.symbol sign (prefix_not_free _)]
  -- a tighter phrase may stand where a looser one is asked for
  | unary _ ih => exact (ih spelled).weaken (by decide)
  | unjoined =>
    intro before left
    rwa [List.map_nil, List.append_nil]
  | joined joins _ _ operand rest =>
    intro before left
    obtain ⟨op, operator, rfl⟩ := joins_iff.mp joins
    simp only [List.cons_append, List.forall_mem_cons, List.forall_mem_append] at spelled
    obtain ⟨sign, inside, behind⟩ := spelled
    obtain ⟨kind, rfl⟩ := infixOp?_iff.mp operator
    -- the right operand is tighter than the operator, the left one as tight
    obtain ⟨right, tighter, same⟩ := Phrase.isWritten_operand.mp (operand inside)
    have made := rest behind _
      ⟨.join left.ranked right left.tight tighter, (tightness_join ..).ge, rfl⟩
    simpa only [symbols_join, left.symbols, same, List.map_cons, List.map_append,
      List.cons_append, List.append_assoc, sign.symbol kind.symm (InfixOp.not_free _)] using made
  | chain _ _ first rest =>
    rw [List.forall_mem_append] at spelled
    rw [List.map_append]
    exact rest spelled.2 _ ((Phrase.isWritten_operand.mp (first spelled.1)).weaken (by omega))
  | unassigned _ ih => exact (ih spelled).weaken (Nat.zero_le _)
  | assigned name sign _ ih =>
    simp only [List.forall_mem_cons] at spelled
    obtain ⟨value, -, same⟩ := ih spelled.2.2
    refine ⟨.assign value, Nat.zero_le _, ?_⟩
    simp only [Expr.symbols, same, List.map_cons, symbol_asName name,
      spelled.2.1.symbol sign rfl]
  | set _ separator name sign _ owner ih =>
    simp only [List.forall_mem_cons, List.forall_mem_append] at spelled
    obtain ⟨before, dot, -, equals, behind⟩ := spelled
    obtain ⟨object, tight, same⟩ := owner before
    obtain ⟨value, -, same'⟩ := ih behind
    refine ⟨.set object tight value, Nat.zero_le _, ?_⟩
    simp only [Expr.symbols, same, same', List.map_cons, List.map_append,
      symbol_asName name, dot.symbol separator rfl, equals.symbol sign rfl]
  -- nothing is claimed of statements
  | _ => trivial

/-! ## What is written is read -/

/-- What the rule of a number makes. -/
def Phrase.madeBy : Nat → Expr → Phrase
  | 0, e => assignment e
  | 1, e => chain .or e
  | 2, e => chain .and e
  | 3, e => chain .equality e
  | 4, e => chain .comparison e
  | 5, e => chain .term e
  | 6, e => chain .factor e
  | 7, e => unary e
  | _, e => call e

theorem Phrase.madeBy_chain (level : Level) (e : Expr) :
    madeBy (level.rank + 1) e = chain level e := by
  cases level <;> rfl

theorem Phrase.madeBy_operand (level : Level) (e : Expr) :
    madeBy (level.rank + 2) e = operand level e := by
  cases level <;> rfl

/-- What a rule makes is an operand that the rule before can make alone. -/
theorem Tree.madeBy_succ {n n' : NodeId} {ts : List Token} {rule : Nat} {e : Expr}
    (tree : Tree n ts (.madeBy (rule + 1) e) n') : Tree n ts (.madeBy rule e) n' := by
  have alone {level : Level} (operand : Tree n ts (.operand level e) n') :
      Tree n ts (.chain level e) n' := by
    have chain := Tree.chain operand .unjoined
    rwa [List.append_nil] at chain
  match rule with
  | 0 => exact .unassigned tree
  | 1 | 2 | 3 | 4 | 5 | 6 => exact alone tree
  | 7 => exact .unary tree
  | _ + 8 => exact tree

/-- A tree of a tighter rule is one of a looser rule, which adds nothing to it. -/
theorem Tree.madeBy_le {n n' : NodeId} {ts : List Token} {rule rule' : Nat} {e : Expr}
    (le : rule' ≤ rule) (tree : Tree n ts (.madeBy rule e) n') :
    Tree n ts (.madeBy rule' e) n' := by
  induction rule, le using Nat.le_induction with
  | base => exact tree
  | succ rule _ ih => exact ih tree.madeBy_succ

/-- More operators and operands behind some. -/
theorem Tree.chainRest_append {n n₁ n₂ : NodeId} {ts us : List Token} {level : Level}
    {left e e' : Expr} (first : Tree n ts (.chainRest level left e) n₁)
    (second : Tree n₁ us (.chainRest level e e') n₂) :
    Tree n (ts ++ us) (.chainRest level left e') n₂ := by
  generalize shape : Phrase.chainRest level left e = p at first
  induction first generalizing left with
  | unjoined =>
    cases shape
    exact second
  | joined joins operand _ _ ih =>
    cases shape
    rw [List.append_assoc]
    exact .joined joins operand (ih second rfl)
  | _ => cases shape

/-- One more operator and operand behind a chain. -/
theorem Tree.chain_join {n n₁ n₂ : NodeId} {ts us : List Token} {level : Level} {t : Token}
    {e right node : Expr} (chain : Tree n ts (.chain level e) n₁)
    (joins : Joins t e right level node) (operand : Tree n₁ us (.operand level right) n₂) :
    Tree n (ts ++ t :: us) (.chain level node) n₂ := by
  have last : Tree n₁ (t :: us) (.chainRest level e node) n₂ := by
    have joined := Tree.joined joins operand .unjoined
    rwa [List.append_nil] at joined
  cases chain with
  | chain first rest =>
    rw [List.append_assoc]
    exact .chain first (rest.chainRest_append last)

/-- More calls and property accesses behind some. -/
theorem Tree.callRest_append {n n₁ n₂ : NodeId} {ts us : List Token} {subject e e' : Expr}
    (first : Tree n ts (.callRest subject e) n₁) (second : Tree n₁ us (.callRest e e') n₂) :
    Tree n (ts ++ us) (.callRest subject e') n₂ := by
  generalize shape : Phrase.callRest subject e = p at first
  induction first generalizing subject with
  | uncalled =>
    cases shape
    exact second
  | called opens arguments closes _ _ ih =>
    cases shape
    simp only [List.cons_append, List.append_assoc]
    exact .called opens arguments closes (ih second rfl)
  | property separator name _ ih =>
    cases shape
    exact .property separator name (ih second rfl)
  | _ => cases shape

/-- Calls and reads after a call make a longer call. -/
theorem Tree.call_append {n n₁ n₂ : NodeId} {ts us : List Token} {e e' : Expr}
    (call : Tree n ts (.call e) n₁) (more : Tree n₁ us (.callRest e e') n₂) :
    Tree n (ts ++ us) (.call e') n₂ := by
  cases call with
  | call first rest =>
    rw [List.append_assoc]
    exact .call first (rest.callRest_append more)

/-- A primary expression is a call. -/
theorem Tree.of_primary {n n' : NodeId} {ts : List Token} {e : Expr}
    (first : Tree n ts (.primary e) n') : Tree n ts (.call e) n' := by
  have call := Tree.call first .uncalled
  rwa [List.append_nil] at call

/-- All identities and all lines are forgotten. -/
def forgotten : Renaming := ⟨fun _ => 0, fun _ => 0⟩

theorem rename_asName {t : Token} {name : Name} (text : t.lexeme = name.text) :
    t.asName.rename forgotten = name.rename forgotten :=
  congrArg (Name.mk · 0) text

/-- The tokens can be read by the rule of a number as the expression, up to identities and
lines. -/
def ReadsAs (rule : Nat) (ts : List Token) (e : Expr) : Prop :=
  ∀ n, ∃ e' n', Tree n ts (.madeBy rule e') n' ∧ e'.rename forgotten = e.rename forgotten

/-- What reads as an expression under a tighter rule does so under a looser one. -/
theorem ReadsAs.weaken {rule rule' : Nat} {ts : List Token} {e : Expr}
    (reads : ReadsAs rule ts e) (le : rule' ≤ rule) : ReadsAs rule' ts e := by
  intro n
  obtain ⟨e', n', tree, same⟩ := reads n
  exact ⟨e', n', tree.madeBy_le le, same⟩

/-- A token with the symbol of a kind is of that kind. -/
theorem kind_of_symbol {t : Token} {kind : Kind} (same : t.symbol = kind.symbol) :
    t.kind = kind :=
  (Token.of_symbol_plain same).1

/-- A token with the symbol of a constant denotes that constant. -/
theorem denotes_of_symbol {t : Token} {value : Literal} (same : t.symbol = value.symbol) :
    t.Denotes value := by
  cases value with
  | number n =>
    unfold Token.symbol at same
    split at same <;> cases same
    next kind => exact .number kind
  | string s =>
    unfold Token.symbol at same
    split at same <;> cases same
    next kind => exact .string kind
  | bool b =>
    cases b with
    | false => exact .false (kind_of_symbol same)
    | true => exact .true (kind_of_symbol same)
  | nil => exact .nil (kind_of_symbol same)

/-- Arguments with a comma before each of them. -/
theorem reads_moreArguments {arguments : List Expr}
    (each : ∀ e ∈ arguments, ∀ ts : List Token, ts.map Token.symbol = e.symbols → ReadsAs 0 ts e)
    {ts : List Token} (row : ts.map Token.symbol = Expr.listedBehind arguments) (n : NodeId) :
    ∃ es n', Tree n ts (.moreArguments es) n' ∧
      Expr.renameAll forgotten es = Expr.renameAll forgotten arguments := by
  induction arguments generalizing ts n with
  | nil =>
    obtain rfl := List.map_eq_nil_iff.mp row
    exact ⟨[], n, .noMoreArguments, rfl⟩
  | cons e more ih =>
    rw [List.forall_mem_cons] at each
    rw [Expr.listedBehind, List.cons_append] at row
    obtain ⟨comma, ts, rfl, separator, row⟩ := List.map_eq_cons_iff.mp row
    -- the tokens split where the symbols of one argument end
    obtain ⟨us, vs, rfl, first, others⟩ := List.map_eq_append_iff.mp row
    obtain ⟨e', n₁, tree, same⟩ := each.1 us first n
    obtain ⟨es, n₂, trees, same'⟩ := ih each.2 others n₁
    refine ⟨e' :: es, n₂, .moreArguments (kind_of_symbol separator) tree trees, ?_⟩
    rw [Expr.renameAll, Expr.renameAll, same, same']

/-- Arguments up to the closing parenthesis. -/
theorem reads_arguments {arguments : List Expr}
    (each : ∀ e ∈ arguments, ∀ ts : List Token, ts.map Token.symbol = e.symbols → ReadsAs 0 ts e)
    (few : arguments.length ≤ 255) {ts : List Token}
    (row : ts.map Token.symbol = Expr.listed arguments) (n : NodeId) :
    ∃ es n', Tree n ts (.arguments es) n' ∧
      Expr.renameAll forgotten es = Expr.renameAll forgotten arguments := by
  cases arguments with
  | nil =>
    obtain rfl := List.map_eq_nil_iff.mp row
    exact ⟨[], n, .noArguments, rfl⟩
  | cons e more =>
    rw [List.forall_mem_cons] at each
    obtain ⟨us, vs, rfl, first, others⟩ := List.map_eq_append_iff.mp row
    obtain ⟨e', n₁, tree, same⟩ := each.1 us first n
    obtain ⟨es, n₂, trees, same'⟩ := reads_moreArguments each.2 others n₁
    -- as many arguments come back, so the limit is kept
    have length : es.length = more.length := by
      have lengths := congrArg List.length same'
      rwa [Expr.renameAll_eq, Expr.renameAll_eq, List.length_map, List.length_map] at lengths
    refine ⟨e' :: es, n₂, .arguments tree trees (length ▸ few), ?_⟩
    rw [Expr.renameAll, Expr.renameAll, same, same']

/-- A ranked expression is read from the tokens that have its symbols, by the rule that
makes it. -/
theorem Ranked.reads {e : Expr} (ranked : Ranked e) {ts : List Token}
    (row : ts.map Token.symbol = e.symbols) : ReadsAs (tightness e) ts e := by
  induction ranked generalizing ts with
  -- the leaves are read by the primary rule
  | literal =>
    intro n
    obtain ⟨t, rfl, same⟩ := List.map_eq_singleton_iff.mp row
    exact ⟨_, _, .of_primary (.literal (denotes_of_symbol same)), rfl⟩
  | this =>
    intro n
    obtain ⟨t, rfl, keyword⟩ := List.map_eq_singleton_iff.mp row
    exact ⟨_, _, .of_primary (.this (kind_of_symbol keyword)), rfl⟩
  | super =>
    intro n
    obtain ⟨t, more, rfl, keyword, behind⟩ := List.map_eq_cons_iff.mp row
    obtain ⟨dot, more, rfl, separator, last⟩ := List.map_eq_cons_iff.mp behind
    obtain ⟨name, rfl, named⟩ := List.map_eq_singleton_iff.mp last
    -- a name symbol is spelled by an identifier with that text
    obtain ⟨kind, text⟩ := Token.of_symbol_plain named
    refine ⟨_, _, .of_primary
      (.super (kind_of_symbol keyword) (kind_of_symbol separator) kind), ?_⟩
    rw [Expr.rename, Expr.rename, rename_asName text]
    rfl
  | «variable» =>
    intro n
    obtain ⟨t, rfl, named⟩ := List.map_eq_singleton_iff.mp row
    obtain ⟨kind, text⟩ := Token.of_symbol_plain named
    refine ⟨_, _, .of_primary (.identifier kind), ?_⟩
    rw [Expr.rename, Expr.rename, Occurrence.rename, rename_asName text]
    rfl
  | group inner ih =>
    intro n
    rw [Expr.symbols, List.cons_append] at row
    obtain ⟨opening, more, rfl, opens, behind⟩ := List.map_eq_cons_iff.mp row
    obtain ⟨us, end', rfl, inside, last⟩ := List.map_eq_append_iff.mp behind
    obtain ⟨closing, rfl, closes⟩ := List.map_eq_singleton_iff.mp last
    obtain ⟨e', n', tree, same⟩ := (ih inside).weaken (Nat.zero_le _) n
    refine ⟨_, _, .of_primary (.group (kind_of_symbol opens) tree (kind_of_symbol closes)), ?_⟩
    rw [Expr.rename, same, Expr.rename]
  -- from here the tokens are split along the symbols, and each part is read at the tightness it
  -- is asked for
  | call _ tight _ few callee arguments =>
    intro n
    simp only [Expr.symbols, List.append_assoc, List.cons_append] at row
    obtain ⟨us, more, rfl, before, behind⟩ := List.map_eq_append_iff.mp row
    obtain ⟨opening, more, rfl, opens, behind⟩ := List.map_eq_cons_iff.mp behind
    obtain ⟨vs, end', rfl, inside, last⟩ := List.map_eq_append_iff.mp behind
    obtain ⟨closing, rfl, closes⟩ := List.map_eq_singleton_iff.mp last
    obtain ⟨e', n₁, tree, same⟩ := (callee before).weaken tight n
    obtain ⟨es, n₂, trees, same'⟩ := reads_arguments
      (fun e among ts row => (arguments e among row).weaken (Nat.zero_le _)) few inside n₁
    refine ⟨_, _, tree.call_append
      (.called (kind_of_symbol opens) trees (kind_of_symbol closes) .uncalled), ?_⟩
    rw [Expr.rename, same, same', Expr.rename]
    rfl
  | get _ tight object =>
    intro n
    obtain ⟨us, more, rfl, before, behind⟩ := List.map_eq_append_iff.mp row
    obtain ⟨dot, more, rfl, separator, last⟩ := List.map_eq_cons_iff.mp behind
    obtain ⟨t, rfl, named⟩ := List.map_eq_singleton_iff.mp last
    obtain ⟨kind, text⟩ := Token.of_symbol_plain named
    obtain ⟨e', n₁, tree, same⟩ := (object before).weaken tight n
    refine ⟨_, _, tree.call_append (.property (kind_of_symbol separator) kind .uncalled), ?_⟩
    rw [Expr.rename, same, rename_asName text, Expr.rename]
  | unary _ tight ih =>
    intro n
    obtain ⟨t, more, rfl, sign, behind⟩ := List.map_eq_cons_iff.mp row
    obtain ⟨e', n', tree, same⟩ := (ih behind).weaken tight n
    refine ⟨_, _, .operated (kind_of_symbol sign) tree, ?_⟩
    rw [Expr.rename, same, Expr.rename]
    rfl
  | @join op _ _ _ _ _ tight tighter left right =>
    intro n
    rw [symbols_join] at row
    obtain ⟨us, more, rfl, before, behind⟩ := List.map_eq_append_iff.mp row
    obtain ⟨t, vs, rfl, sign, behind⟩ := List.map_eq_cons_iff.mp behind
    obtain ⟨l, n₁, tree, same⟩ := (left before).weaken tight n
    obtain ⟨r, n₂, tree', same'⟩ := (right behind).weaken tighter n₁
    rw [Phrase.madeBy_chain] at tree
    rw [Phrase.madeBy_operand] at tree'
    -- the operator comes back from its kind alone
    have joins : Joins t l r op.level (op.join t.line l r) := .join (kind_of_symbol sign)
    refine ⟨op.join t.line l r, n₂, ?_, ?_⟩
    · rw [tightness_join, Phrase.madeBy_chain]
      exact tree.chain_join joins tree'
    · rw [InfixOp.rename_join, InfixOp.rename_join, same, same']
      rfl
  | assign _ ih =>
    intro n
    obtain ⟨t, more, rfl, named, behind⟩ := List.map_eq_cons_iff.mp row
    obtain ⟨equals, more, rfl, sign, behind⟩ := List.map_eq_cons_iff.mp behind
    obtain ⟨kind, text⟩ := Token.of_symbol_plain named
    -- the target is numbered as a variable before its value is read
    obtain ⟨e', n', tree, same⟩ := (ih behind).weaken (Nat.zero_le _) (n + 1)
    refine ⟨_, _, .assigned kind (kind_of_symbol sign) tree, ?_⟩
    rw [Expr.rename, Occurrence.rename, rename_asName text, same, Expr.rename]
    rfl
  | set _ tight _ owner ih =>
    intro n
    obtain ⟨us, more, rfl, before, behind⟩ := List.map_eq_append_iff.mp row
    obtain ⟨dot, more, rfl, separator, behind⟩ := List.map_eq_cons_iff.mp behind
    obtain ⟨t, more, rfl, named, behind⟩ := List.map_eq_cons_iff.mp behind
    obtain ⟨equals, more, rfl, sign, behind⟩ := List.map_eq_cons_iff.mp behind
    obtain ⟨kind, text⟩ := Token.of_symbol_plain named
    obtain ⟨object, n₁, tree, same⟩ := (owner before).weaken tight n
    obtain ⟨value, n₂, tree', same'⟩ := (ih behind).weaken (Nat.zero_le _) n₁
    refine ⟨_, _, .set tree (kind_of_symbol separator) kind (kind_of_symbol sign) tree', ?_⟩
    rw [Expr.rename, same, same', rename_asName text, Expr.rename]

theorem Ranked.isPlain {e : Expr} (ranked : Ranked e) : ∀ s ∈ e.symbols, s.IsPlain := by
  have kind {kind : Kind} (bound : isFree kind = false) := Symbol.isPlain_kind bound
  have name (name : Name) : name.symbol.IsPlain := ⟨nofun, nofun⟩
  have empty : ∀ s ∈ ([] : List Symbol), s.IsPlain := nofun
  induction ranked with
  -- names and fixed words are plain, literals by their own lemma
  | literal =>
    rw [Expr.symbols, List.forall_mem_cons]
    exact ⟨isPlain_literal _, empty⟩
  | this =>
    rw [Expr.symbols, List.forall_mem_cons]
    exact ⟨kind rfl, empty⟩
  | super =>
    simp only [Expr.symbols, List.forall_mem_cons]
    exact ⟨kind rfl, kind rfl, name _, empty⟩
  | «variable» =>
    rw [Expr.symbols, List.forall_mem_cons]
    exact ⟨name _, empty⟩
  | group _ ih =>
    simp only [Expr.symbols, List.cons_append, List.forall_mem_cons, List.forall_mem_append]
    exact ⟨kind rfl, ih, kind rfl, empty⟩
  | call _ _ _ _ callee arguments =>
    simp only [Expr.symbols, List.append_assoc, List.cons_append, List.forall_mem_cons,
      List.forall_mem_append]
    exact ⟨callee, kind rfl, isPlain_listed arguments, kind rfl, empty⟩
  | get _ _ object =>
    simp only [Expr.symbols, List.forall_mem_cons, List.forall_mem_append]
    exact ⟨object, kind rfl, name _, empty⟩
  | unary _ _ ih =>
    rw [Expr.symbols, List.forall_mem_cons]
    exact ⟨kind (prefix_not_free _), ih⟩
  | join _ _ _ _ left right =>
    rw [symbols_join, List.forall_mem_append, List.forall_mem_cons]
    exact ⟨left, kind (InfixOp.not_free _), right⟩
  | assign _ ih =>
    simp only [Expr.symbols, List.forall_mem_cons]
    exact ⟨name _, kind rfl, ih⟩
  | set _ _ _ object ih =>
    simp only [Expr.symbols, List.forall_mem_cons, List.forall_mem_append]
    exact ⟨object, kind rfl, name _, kind rfl, ih⟩

/-- Reading an expression and writing it undo each other. What the tokens of a text are
read as is ranked, and is written as these tokens. Every ranked expression is what all
tokens that it is written as are read as, up to identities and lines; and there are such
tokens if its numbers have numerals. -/
theorem reading_undoes_writing :
    (∀ (text : String) (found : Tokens) (n : NodeId) (e : Expr), tokens text = .ok found →
      (singleExpression found n).1 = .ok e →
        Ranked e ∧ found.list.map Token.symbol = e.symbols) ∧
    (∀ (e : Expr) (found : Tokens) (n : NodeId), Ranked e →
      found.list.map Token.symbol = e.symbols →
        ∃ e', (singleExpression found n).1 = .ok e' ∧
          e'.rename forgotten = e.rename forgotten) ∧
    (∀ e : Expr, Ranked e → (∀ value, .number value ∈ e.symbols → IsNumeral value) →
      ∃ list : List Token, list.map Token.symbol = e.symbols) := by
  refine ⟨?_, ?_, ?_⟩
  -- what was read is written by the symbols of its tokens
  · intro text found n e scanned read
    have tree : Tree n found.list (.assignment e) (singleExpression found n).2 :=
      singleExpression_iff.mp (Prod.ext read rfl)
    obtain ⟨ranked, -, same⟩ := tree.written (wellSpelled_tokens scanned)
    exact ⟨ranked, same.symm⟩
  -- what is written is read back, up to lines and identities
  · intro e found n ranked row
    obtain ⟨e', n', tree, same⟩ := (ranked.reads row).weaken (Nat.zero_le _) n
    exact ⟨e', congrArg Prod.fst (singleExpression_iff.mpr tree), same⟩
  · intro e ranked numerals
    -- each symbol can be spelled by some token
    have each : ∀ s ∈ e.symbols, ∃ t : Token, t.symbol = s := by
      intro s among
      refine exists_token (ranked.isPlain s among) fun value same => numerals value ?_
      rwa [← same]
    have inside : e.symbols ∈ Set.range (List.map Token.symbol) := by
      rw [Set.range_list_map]
      exact each
    exact inside

/-- An assignment is written back, and its tree is that of tokens. -/
theorem assignment_written_back : ∃ (found : Tokens) (e : Expr),
    tokens "a = -b or \"c\"" = .ok found ∧ (singleExpression found 0).1 = .ok e ∧ Ranked e ∧
      found.list.map Token.symbol = e.symbols ∧
      (∃ e', (singleExpression found 5).1 = .ok e' ∧ e'.rename forgotten = e.rename forgotten) ∧
      ∃ list : List Token, list.map Token.symbol = e.symbols := by
  let found : Tokens := ⟨[⟨.identifier, "a", 1⟩, ⟨.equal, "=", 1⟩, ⟨.minus, "-", 1⟩,
    ⟨.identifier, "b", 1⟩, ⟨.or, "or", 1⟩, ⟨.string, "\"c\"", 1⟩], 1⟩
  let e : Expr := .assign ⟨2, ⟨"a", 1⟩⟩
    (.logical .or (.unary .negate 1 (.variable ⟨1, ⟨"b", 1⟩⟩)) (.literal (.string "c")))
  have scanned : tokens "a = -b or \"c\"" = .ok found := by decide +kernel
  have read : (singleExpression found 0).1 = .ok e := by cbv
  have numerals : ∀ value, .number value ∈ e.symbols → IsNumeral value := by
    intro value among
    simp [e, Expr.symbols, Kind.symbol, Name.symbol, Literal.symbol] at among
  obtain ⟨ranked, row⟩ := reading_undoes_writing.1 _ found 0 e scanned read
  exact ⟨found, e, scanned, read, ranked, row, reading_undoes_writing.2.1 e found 5 ranked row,
    reading_undoes_writing.2.2 e ranked numerals⟩

end ClassScript.Parsing
