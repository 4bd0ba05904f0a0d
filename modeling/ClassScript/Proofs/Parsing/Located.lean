import ClassScript.Proofs.Parsing.Renamed
import ClassScript.Proofs.Syntax.Core

/-!
# Loops in a text

Where `for` stands in the tokens of a program, the tree of the program has a statement
that begins there (`Tree.located`). What tokens a statement takes from its first one on is
determined by the tokens, so that statement is the one that one sees there
(`Tree.statement_unique`). Other tokens may stand in its place if they are a closed
statement with the same core: then the whole is a program with the same core
(`Tree.replace`).
-/

namespace ClassScript.Parsing

open Source Syntax

/-! ## Where no loop is -/

/-- Statements may be in the phrase. -/
def Phrase.holdsStatements : Phrase → Bool
  | .statement _ _ | .declaration _ | .declarations _ | .function _ | .methods _ => true
  | _ => false

theorem Phrase.holdsStatements_operand (level : Level) (e : Expr) :
    (Phrase.operand level e).holdsStatements = false := by
  cases level <;> rfl

/-- An expression and what else holds no statement has no loop keyword among its tokens. -/
theorem Tree.noFor {n n' : NodeId} {ts : List Token} {p : Phrase} (tree : Tree n ts p n')
    (plain : p.holdsStatements = false) : ∀ t ∈ ts, t.kind ≠ .for := by
  induction tree with
  | literal constant =>
    intro t among keyword
    obtain rfl := List.mem_singleton.mp among
    have begins := beginsExpression_of_denotes constant
    rw [keyword] at begins
    cases begins
  -- signs and operators are no keywords of statements
  | operated sign _ ih =>
    rw [List.forall_mem_cons, sign]
    refine ⟨fun keyword => ?_, ih rfl⟩
    have begins := beginsExpression_of_prefix ‹_›
    rw [keyword] at begins
    cases begins
  | joined joins _ _ ih ih' =>
    rw [List.forall_mem_append, List.forall_mem_cons]
    refine ⟨⟨fun keyword => ?_, ih (Phrase.holdsStatements_operand ..)⟩, ih' rfl⟩
    obtain ⟨op, operator, -⟩ := joins_iff.mp joins
    rw [keyword] at operator
    cases operator
  | chain _ _ ih ih' =>
    rw [List.forall_mem_append]
    exact ⟨ih (Phrase.holdsStatements_operand ..), ih' rfl⟩
  | _ => first
    | cases plain; done
    | simp_all [Phrase.holdsStatements, or_imp]

/-! ## Phrases with the same core -/

/-- A phrase of the same kind whose statements have the same core. A statement that was
closed still is. -/
inductive Phrase.Recast : Phrase → Phrase → Prop
  | statement {isOpen isOpen' s s'} (closed : isOpen' = true → isOpen = true)
      (core : s'.core = s.core) : Recast (.statement isOpen s) (.statement isOpen' s')
  | declaration {s s'} (core : s'.core = s.core) : Recast (.declaration s) (.declaration s')
  | declarations {ss ss'} (core : Stmt.coreAll ss' = Stmt.coreAll ss) :
      Recast (.declarations ss) (.declarations ss')
  | function {d d'} (core : d'.core = d.core) : Recast (.function d) (.function d')
  | methods {ds ds'} (core : FunctionDecl.coreAll ds' = FunctionDecl.coreAll ds) :
      Recast (.methods ds) (.methods ds')

/-- Wherever identities are drawn from, the tokens are such a phrase up to its core. -/
def Readable (ts : List Token) (p : Phrase) : Prop :=
  ∀ n, ∃ p' n', Tree n ts p' n' ∧ p.Recast p'

theorem Readable.cast {ts ts' : List Token} {p : Phrase} (h : Readable ts p) (same : ts = ts') :
    Readable ts' p := same ▸ h

namespace Readable

variable {ts : List Token}

theorem statement {isOpen : Bool} {s : Stmt} (h : Readable ts (.statement isOpen s)) (n : NodeId) :
    ∃ isOpen' s' n', Tree n ts (.statement isOpen' s') n' ∧ (isOpen' = true → isOpen = true) ∧
      s'.core = s.core := by
  obtain ⟨_, n', tree, recast⟩ := h n
  cases recast with
  | statement closed core => exact ⟨_, _, n', tree, closed, core⟩

theorem declaration {s : Stmt} (h : Readable ts (.declaration s)) (n : NodeId) :
    ∃ s' n', Tree n ts (.declaration s') n' ∧ s'.core = s.core := by
  obtain ⟨_, n', tree, recast⟩ := h n
  cases recast with
  | declaration core => exact ⟨_, n', tree, core⟩

theorem declarations {ss : List Stmt} (h : Readable ts (.declarations ss)) (n : NodeId) :
    ∃ ss' n', Tree n ts (.declarations ss') n' ∧ Stmt.coreAll ss' = Stmt.coreAll ss := by
  obtain ⟨_, n', tree, recast⟩ := h n
  cases recast with
  | declarations core => exact ⟨_, n', tree, core⟩

theorem function {d : FunctionDecl} (h : Readable ts (.function d)) (n : NodeId) :
    ∃ d' n', Tree n ts (.function d') n' ∧ d'.core = d.core := by
  obtain ⟨_, n', tree, recast⟩ := h n
  cases recast with
  | function core => exact ⟨_, n', tree, core⟩

theorem methods {ds : List FunctionDecl} (h : Readable ts (.methods ds)) (n : NodeId) :
    ∃ ds' n', Tree n ts (.methods ds') n' ∧
      FunctionDecl.coreAll ds' = FunctionDecl.coreAll ds := by
  obtain ⟨_, n', tree, recast⟩ := h n
  cases recast with
  | methods core => exact ⟨_, n', tree, core⟩

end Readable

/-- What a tree moved elsewhere is, its core is. -/
theorem core_countingLoop_congr {initializer initializer' : Option Stmt}
    {condition condition' : Expr} {body body' : Stmt} {increment increment' : Option Expr}
    (first : initializer'.map Stmt.core = initializer.map Stmt.core)
    (test : condition'.core = condition.core) (inner : body'.core = body.core)
    (step : increment'.map Expr.core = increment.map Expr.core) :
    (countingLoop initializer' condition' body' increment').core =
      (countingLoop initializer condition body increment).core := by
  -- the loop itself; an initializer puts a block around it
  have loop : (Stmt.loop condition' body' increment').core =
      (Stmt.loop condition body increment).core := by
    simp only [Stmt.core, test, inner, step]
  cases initializer with
  | none =>
    obtain rfl := Option.map_eq_none_iff.mp first
    exact loop
  | some s =>
    obtain ⟨s', rfl, same⟩ := Option.map_eq_some_iff.mp first
    simp only [countingLoop, Stmt.core, Stmt.coreAll, same]
    exact congrArg (fun l => blockOf [s.core, l]) loop

/-! ## Phrases around others -/

namespace Readable

variable {n n₁ n₂ n₃ k₁ k₂ : NodeId} {t name opening closing semicolon brace : Token}
  {ts us vs ws : List Token} {isOpen : Bool}

theorem forLoop {initializer : Option Stmt} {condition increment : Option Expr} {body : Stmt}
    (keyword : t.kind = .for) (opens : opening.kind = .leftParen)
    (first : Tree n ts (.initializer initializer) n₁) (test : Tree k₁ us (.optional condition) n₂)
    (ends : semicolon.kind = .semicolon) (step : Tree k₂ vs (.optional increment) n₃)
    (closes : closing.kind = .rightParen) (inner : Readable ws (.statement isOpen body)) :
    Readable (t :: opening :: ts ++ us ++ semicolon :: vs ++ closing :: ws)
      (.statement isOpen (countingLoop initializer
        (condition.getD (.literal (.bool true))) body increment)) := by
  intro m
  obtain ⟨isOpen', body', m', inner', closed, core⟩ := inner.statement _
  refine ⟨_, m', .forLoop keyword opens (first.move m) (test.move _) ends (step.move _) closes
    inner' (counts_iff.mpr rfl),
    .statement closed (core_countingLoop_congr ?_ ?_ core (Expr.core_rename? ..))⟩
  · cases initializer with
    | none => rfl
    | some s => exact congrArg some (s.core_rename _)
  · rw [← rename_condition, Expr.core_rename]

theorem ifThen {condition : Expr} {yes : Stmt} (keyword : t.kind = .if)
    (opens : opening.kind = .leftParen) (test : Tree n ts (.assignment condition) n₁)
    (closes : closing.kind = .rightParen) (branch : Readable us (.statement isOpen yes)) :
    Readable (t :: opening :: ts ++ closing :: us)
      (.statement true (.branch condition yes none)) := by
  intro m
  obtain ⟨isOpen', yes', m', branch', -, core⟩ := branch.statement _
  refine ⟨_, m', .ifThen keyword opens (test.move m) closes branch', .statement (fun _ => rfl) ?_⟩
  simp only [Stmt.core, Expr.core_rename, core]

/-- In front of an `else`, where the statement stays closed. -/
theorem ifElse_first {condition : Expr} {yes no : Stmt} {other : Token} (keyword : t.kind = .if)
    (opens : opening.kind = .leftParen) (test : Tree n ts (.assignment condition) n₁)
    (closes : closing.kind = .rightParen) (first : Readable us (.statement false yes))
    (otherwise : other.kind = .else) (second : Tree n₂ vs (.statement isOpen no) n₃) :
    Readable (t :: opening :: ts ++ closing :: us ++ other :: vs)
      (.statement isOpen (.branch condition yes (some no))) := by
  intro m
  obtain ⟨isOpen', yes', m', first', closed, core⟩ := first.statement _
  obtain rfl : isOpen' = false := by simpa using closed
  refine ⟨_, _, .ifElse keyword opens (test.move m) closes first' otherwise (second.move m'),
    .statement id ?_⟩
  simp only [Stmt.core, Expr.core_rename, Stmt.core_rename, core]

theorem ifElse_second {condition : Expr} {yes no : Stmt} {other : Token} (keyword : t.kind = .if)
    (opens : opening.kind = .leftParen) (test : Tree n ts (.assignment condition) n₁)
    (closes : closing.kind = .rightParen) (first : Tree n₁ us (.statement false yes) n₂)
    (otherwise : other.kind = .else) (second : Readable vs (.statement isOpen no)) :
    Readable (t :: opening :: ts ++ closing :: us ++ other :: vs)
      (.statement isOpen (.branch condition yes (some no))) := by
  intro m
  obtain ⟨isOpen', no', m', second', closed, core⟩ := second.statement _
  refine ⟨_, m', .ifElse keyword opens (test.move m) closes (first.move _) otherwise second',
    .statement closed ?_⟩
  simp only [Stmt.core, Expr.core_rename, Stmt.core_rename, core]

theorem whileLoop {condition : Expr} {body : Stmt} (keyword : t.kind = .while)
    (opens : opening.kind = .leftParen) (test : Tree n ts (.assignment condition) n₁)
    (closes : closing.kind = .rightParen) (inner : Readable us (.statement isOpen body)) :
    Readable (t :: opening :: ts ++ closing :: us)
      (.statement isOpen (.loop condition body none)) := by
  intro m
  obtain ⟨isOpen', body', m', inner', closed, core⟩ := inner.statement _
  refine ⟨_, m', .whileLoop keyword opens (test.move m) closes inner', .statement closed ?_⟩
  simp only [Stmt.core, Expr.core_rename, core]

theorem block {body : List Stmt} (opens : opening.kind = .leftBrace)
    (inner : Readable ts (.declarations body)) (closes : closing.kind = .rightBrace) :
    Readable (opening :: ts ++ [closing]) (.statement false (.block body)) := by
  intro m
  obtain ⟨body', m', inner', core⟩ := inner.declarations m
  refine ⟨_, m', .block opens inner' closes, .statement id ?_⟩
  simp only [Stmt.core, core]

theorem classDecl {superclass : Option Occurrence} {body : List FunctionDecl}
    (keyword : t.kind = .classWord) (named : name.kind = .identifier)
    (parent : Tree n ts (.superclass superclass) n₁) (opens : opening.kind = .leftBrace)
    (inner : Readable us (.methods body)) (closes : closing.kind = .rightBrace) :
    Readable (t :: name :: ts ++ opening :: us ++ [closing])
      (.declaration (.classDecl name.asName superclass body)) := by
  intro m
  obtain ⟨body', m', inner', core⟩ := inner.methods _
  refine ⟨_, m', .classDecl keyword named (parent.move m) opens inner' closes, .declaration ?_⟩
  simp only [Stmt.core, core, Option.map_map]
  rfl

theorem funDecl {d : FunctionDecl} (keyword : t.kind = .fun)
    (declared : Readable ts (.function d)) : Readable (t :: ts) (.declaration (.function d)) := by
  intro m
  obtain ⟨d', m', declared', core⟩ := declared.function m
  refine ⟨_, m', .funDecl keyword declared', .declaration ?_⟩
  simp only [Stmt.core, core]

theorem ofStatement {s : Stmt} (inner : Readable ts (.statement isOpen s)) :
    Readable ts (.declaration s) := by
  intro m
  obtain ⟨isOpen', s', m', inner', -, core⟩ := inner.statement m
  exact ⟨_, m', .statement inner', .declaration core⟩

theorem declarations_first {s : Stmt} {ss : List Stmt} (first : Readable ts (.declaration s))
    (rest : Tree n us (.declarations ss) n₁) : Readable (ts ++ us) (.declarations (s :: ss)) := by
  intro m
  obtain ⟨s', m', first', core⟩ := first.declaration m
  refine ⟨_, _, .declarations first' (rest.move m'), .declarations ?_⟩
  simp only [Stmt.coreAll, core, Stmt.coreAll_renameAll]

theorem declarations_rest {s : Stmt} {ss : List Stmt} (first : Tree n ts (.declaration s) n₁)
    (rest : Readable us (.declarations ss)) : Readable (ts ++ us) (.declarations (s :: ss)) := by
  intro m
  obtain ⟨ss', m', rest', core⟩ := rest.declarations _
  refine ⟨_, m', .declarations (first.move m) rest', .declarations ?_⟩
  simp only [Stmt.coreAll, core, Stmt.core_rename]

theorem methods_first {d : FunctionDecl} {ds : List FunctionDecl}
    (first : Readable ts (.function d)) (rest : Tree n us (.methods ds) n₁) :
    Readable (ts ++ us) (.methods (d :: ds)) := by
  intro m
  obtain ⟨d', m', first', core⟩ := first.function m
  refine ⟨_, _, .methods first' (rest.move m'), .methods ?_⟩
  simp only [FunctionDecl.coreAll, core, FunctionDecl.coreAll_renameAll]

theorem methods_rest {d : FunctionDecl} {ds : List FunctionDecl}
    (first : Tree n ts (.function d) n₁) (rest : Readable us (.methods ds)) :
    Readable (ts ++ us) (.methods (d :: ds)) := by
  intro m
  obtain ⟨ds', m', rest', core⟩ := rest.methods _
  refine ⟨_, m', .methods (first.move m) rest', .methods ?_⟩
  simp only [FunctionDecl.coreAll, core, FunctionDecl.core_rename]

theorem ofBody {closingBrace : Token} {parameters : List Name} {body : List Stmt}
    (named : t.kind = .identifier) (opens : opening.kind = .leftParen)
    (list : Tree n ts (.parameters parameters) n₁) (closes : closing.kind = .rightParen)
    (begins : brace.kind = .leftBrace) (inner : Readable us (.declarations body))
    (ends : closingBrace.kind = .rightBrace) :
    Readable (t :: opening :: ts ++ closing :: brace :: us ++ [closingBrace])
      (.function ⟨t.asName, parameters, body⟩) := by
  intro m
  obtain ⟨body', m', inner', core⟩ := inner.declarations _
  have names : Name.rename (.ofNodes fun id => id - n + m) = id := rfl
  refine ⟨_, m', .function named opens (list.move m) closes begins inner' ends, .function ?_⟩
  simp only [FunctionDecl.core, core, names, List.map_id]

end Readable

/-! ## Where a loop is -/

/-- A token of an append is in the first part or in the second. -/
theorem split_append {first second before rest : List Token} {t : Token}
    (split : first ++ second = before ++ t :: rest) :
    (∃ more, first = before ++ t :: more ∧ rest = more ++ second) ∨
      ∃ more, before = first ++ more ∧ second = more ++ t :: rest := by
  rcases List.append_eq_append_iff.mp split with ⟨more, rfl, rfl⟩ | ⟨more, rfl, tail⟩
  · exact .inr ⟨more, rfl, rfl⟩
  · cases more with
    | nil => exact .inr ⟨[], by simp, tail.symm⟩
    | cons t' more =>
      obtain ⟨rfl, rfl⟩ := List.cons.inj tail
      exact .inl ⟨more, rfl, rfl⟩

/-- It is in the second part, if the first has no such token. -/
theorem split_second (first second : List Token) {before rest : List Token} {t : Token}
    (split : first ++ second = before ++ t :: rest) (keyword : t.kind = .for)
    (plain : ∀ u ∈ first, u.kind ≠ .for) :
    ∃ more, before = first ++ more ∧ second = more ++ t :: rest := by
  rcases split_append split with ⟨more, rfl, -⟩ | found
  · exact absurd keyword (plain t (by simp))
  · exact found

/-- A keyword in a row whose second part has none stands in the first part. -/
theorem split_first {first second before rest : List Token} {t : Token}
    (split : first ++ second = before ++ t :: rest) (keyword : t.kind = .for)
    (plain : ∀ u ∈ second, u.kind ≠ .for) :
    ∃ more, first = before ++ t :: more ∧ rest = more ++ second := by
  rcases split_append split with found | ⟨more, -, rfl⟩
  · exact found
  · exact absurd keyword (plain t (by simp))

theorem not_split {ts before rest : List Token} {t : Token} (split : ts = before ++ t :: rest)
    (keyword : t.kind = .for) (plain : ∀ u ∈ ts, u.kind ≠ .for) : False :=
  plain t (by simp [split]) keyword

/-- What may stand behind a phrase that may end with an open `if`. -/
def Phrase.MayPrecede (follow : List Token) : Phrase → Prop
  | .statement isOpen _ => isOpen = true → NoElse follow
  | .declaration _ | .declarations _ => NoElse follow
  | _ => True

/-- In a phrase with other tokens behind it, a statement begins at the token between two
parts. Where a closed statement with the same core stands instead, the phrase has the same
core. -/
def Located (t : Token) (before rest : List Token) (p : Phrase) (follow : List Token) : Prop :=
  ∃ loop after n n' isOpen s, rest = loop ++ after ∧
    Tree n (t :: loop) (.statement isOpen s) n' ∧
    (isOpen = true → NoElse (after ++ follow)) ∧
    ∀ us, Readable us (.statement false s) → Readable (before ++ us ++ after) p

/-- A statement in a part of a phrase is one in the phrase. -/
theorem Located.lift (head tail : List Token) {t : Token} {before rest follow : List Token}
    {q p : Phrase} (inner : Located t before rest q (tail ++ follow))
    (rebuild : ∀ ts, Readable ts q → Readable (head ++ ts ++ tail) p) :
    Located t (head ++ before) (rest ++ tail) p follow := by
  obtain ⟨loop, after, n, n', isOpen, s, rfl, tree, ends, replace⟩ := inner
  refine ⟨loop, after ++ tail, n, n', isOpen, s, by simp, tree, ?_, fun us read => ?_⟩
  · rw [List.append_assoc]
    exact ends
  · exact (rebuild _ (replace us read)).cast (by simp)

/-- Where a phrase is a statement that begins with the token, it is the one. -/
theorem Located.whole {t : Token} {loop follow : List Token} {n n' : NodeId} {isOpen : Bool}
    {s : Stmt} (tree : Tree n (t :: loop) (.statement isOpen s) n')
    (ends : isOpen = true → NoElse follow) :
    Located t [] loop (.statement isOpen s) follow := by
  refine ⟨loop, [], n, n', isOpen, s, by simp, tree, ends, fun us read m => ?_⟩
  obtain ⟨isOpen', s', m', tree', closed, core⟩ := read.statement m
  refine ⟨_, m', ?_, .statement (fun opens => nomatch closed opens) core⟩
  simpa using tree'

/-- Where declarations may end, other declarations may stand in front. -/
theorem Tree.noElse_append {n n' : NodeId} {ts follow : List Token} {ss : List Stmt}
    (tree : Tree n ts (.declarations ss) n') (ends : NoElse follow) : NoElse (ts ++ follow) := by
  have begins := tree.declarations_begin
  cases ts with
  | nil => exact ends
  | cons t more =>
    rintro _ ⟨⟩ same
    exact begins t rfl (.inr same)

/-- Where another keyword is next, no `else` follows. -/
theorem noElse_cons {t : Token} {rest : List Token} {kind : Kind} (same : t.kind = kind)
    (other : kind ≠ .else) : NoElse (t :: rest) := by
  rintro _ ⟨⟩
  rw [same]
  exact other

/-- Where `for` stands in the tokens of a phrase, a statement begins. -/
theorem Tree.located {n n' : NodeId} {ts before rest follow : List Token} {p : Phrase} {t : Token}
    (tree : Tree n ts p n') (keyword : t.kind = .for) (split : ts = before ++ t :: rest)
    (ends : p.MayPrecede follow) : Located t before rest p follow := by
  -- a phrase that holds no statement holds no for either
  have holds : p.holdsStatements = true := by
    by_contra plain
    exact tree.noFor (Bool.eq_false_of_not_eq_true plain) t (by simp [split]) keyword
  induction tree generalizing before rest follow with
  | @forLoop n t' opening ts initializer n₁ us condition n₂ semicolon vs increment n₃ closing ws
      isOpen body n₄ s loop opens first test semi step closes inner counts _ _ _ ih =>
    obtain rfl := counts_iff.mp counts
    cases before with
    | nil =>
      -- the keyword of this very loop
      obtain ⟨rfl, rfl⟩ := List.cons.inj split
      exact .whole (.forLoop loop opens first test semi step closes inner counts) ends
    | cons t₀ before =>
      obtain ⟨rfl, split⟩ := List.cons.inj split
      -- the clauses hold no for, so one behind the keyword lies in the body
      obtain ⟨more, rfl, found⟩ := split_second
        (opening :: ts ++ us ++ semicolon :: vs ++ [closing]) ws
        (by simpa using split) keyword
        (by simpa [opens, semi, closes, or_imp, forall_and] using
          ⟨first.noFor rfl, test.noFor rfl, step.noFor rfl⟩)
      simpa using Located.lift (t' :: opening :: ts ++ us ++ semicolon :: vs ++ [closing])
        [] (ih found ends rfl) fun ts' read =>
          (Readable.forLoop loop opens first test semi step closes read).cast (by simp)
  | @ifThen n t' opening ts condition n₁ closing us isOpen yes n₂ branch opens test closes inner
      _ ih =>
    obtain ⟨more, rfl, found⟩ := split_second (t' :: opening :: ts ++ [closing])
      us (by simpa using split) keyword
      (by simpa [branch, opens, closes, or_imp, forall_and] using test.noFor rfl)
    simpa using Located.lift (t' :: opening :: ts ++ [closing]) []
      (ih found (fun _ => ends rfl) rfl) fun ts' read =>
        (Readable.ifThen branch opens test closes read).cast (by simp)
  | @ifElse n t' opening ts condition n₁ closing us yes n₂ other vs isOpen no n₃ branch opens test
      closes first otherwise second _ ih ih' =>
    obtain ⟨more, rfl, found⟩ := split_second (t' :: opening :: ts ++ [closing])
      (us ++ other :: vs) (by simpa using split) keyword
      (by simpa [branch, opens, closes, or_imp, forall_and] using test.noFor rfl)
    -- in one part of the branch or in the other
    rcases split_append found with ⟨more', inside, rfl⟩ | ⟨more', rfl, inside⟩
    · exact Located.lift _ (other :: vs) (ih inside nofun rfl) fun ts' read =>
        (Readable.ifElse_first branch opens test closes read otherwise second).cast (by simp)
    · obtain ⟨more, rfl, last⟩ := split_second [other] vs inside keyword
        (by simp [otherwise])
      simpa using Located.lift (t' :: opening :: ts ++ closing :: us ++ [other])
        [] (ih' last ends rfl) fun ts' read =>
          (Readable.ifElse_second branch opens test closes first otherwise read).cast (by simp)
  | @whileLoop n t' opening ts condition n₁ closing us isOpen body n₂ loop opens test closes inner
      _ ih =>
    obtain ⟨more, rfl, found⟩ := split_second (t' :: opening :: ts ++ [closing])
      us (by simpa using split) keyword
      (by simpa [loop, opens, closes, or_imp, forall_and] using test.noFor rfl)
    simpa using Located.lift (t' :: opening :: ts ++ [closing]) []
      (ih found ends rfl) fun ts' read =>
        (Readable.whileLoop loop opens test closes read).cast (by simp)
  | @block n opening ts body n₁ closing opens inner closes ih =>
    obtain ⟨more, rfl, found⟩ := split_second [opening] (ts ++ [closing])
      (by simpa using split) keyword (by simp [opens])
    obtain ⟨more', inside, rfl⟩ := split_first found keyword (by simp [closes])
    exact Located.lift [opening] [closing]
      (ih inside (noElse_cons closes nofun) rfl) fun ts' read => read.block opens closes
  | @classDecl n t' name ts superclass n₁ opening us body n₂ closing declared named parent opens
      inner closes _ ih =>
    obtain ⟨more, rfl, found⟩ := split_second (t' :: name :: ts ++ [opening])
      (us ++ [closing]) (by simpa using split) keyword
      (by simpa [declared, named, opens, or_imp, forall_and] using parent.noFor rfl)
    obtain ⟨more', inside, rfl⟩ := split_first found keyword (by simp [closes])
    exact Located.lift _ [closing] (ih inside trivial rfl) fun ts' read =>
      (Readable.classDecl declared named parent opens read closes).cast (by simp)
  | @funDecl n t' ts d n₁ declared inner ih =>
    obtain ⟨more, rfl, found⟩ := split_second [t'] ts split keyword
      (by simp [declared])
    simpa using Located.lift [t'] [] (ih found trivial rfl) fun ts' read =>
      (Readable.funDecl declared read).cast (by simp)
  | statement inner ih =>
    simpa using Located.lift [] [] (ih split (fun _ => ends) rfl) fun ts' read =>
      (Readable.ofStatement read).cast (by simp)
  | declarations first rest ih ih' =>
    rcases split_append split with ⟨more, found, rfl⟩ | ⟨more, rfl, found⟩
    · exact Located.lift [] _ (ih found (rest.noElse_append ends) rfl) fun ts' read =>
        read.declarations_first rest
    · simpa using Located.lift _ [] (ih' found ends rfl) fun ts' read =>
        (Readable.declarations_rest first read).cast (by simp)
  | methods first rest ih ih' =>
    rcases split_append split with ⟨more, found, rfl⟩ | ⟨more, rfl, found⟩
    · exact Located.lift [] _ (ih found trivial rfl) fun ts' read =>
        read.methods_first rest
    · simpa using Located.lift _ [] (ih' found trivial rfl) fun ts' read =>
        (Readable.methods_rest first read).cast (by simp)
  | @function n t' opening ts parameters n₁ closing brace us body n₂ closingBrace named opens list
      closes begins inner ends' _ ih =>
    obtain ⟨more, rfl, found⟩ := split_second
      (t' :: opening :: ts ++ [closing, brace]) (us ++ [closingBrace])
      (by simpa using split) keyword
      (by simpa [named, opens, closes, begins, or_imp, forall_and] using list.noFor rfl)
    obtain ⟨more', inside, rfl⟩ := split_first found keyword (by simp [ends'])
    exact Located.lift _ [closingBrace]
      (ih inside (noElse_cons ends' nofun) rfl) fun ts' read =>
        (Readable.ofBody named opens list closes begins read ends').cast (by simp)
  -- the statements without parts hold no for
  | expressionStatement inner => exact (not_split split keyword (inner.noFor rfl)).elim
  | varDecl declared inner =>
    refine (not_split split keyword ?_).elim
    simpa [declared] using inner.noFor rfl
  | returns declared value ends' | print declared value ends' =>
    refine (not_split split keyword ?_).elim
    simpa [declared, ends', or_imp, forall_and] using value.noFor rfl
  | breaks declared ends' | continues declared ends' =>
    exact (not_split split keyword (by simp [declared, ends'])).elim
  | noDeclarations | noMethods => simp at split
  | _ => cases holds

/-! ## Other tokens for a loop -/

/-- Where two statements begin in the same tokens, they end there, too. -/
theorem Tree.statement_unique {n n' k k' : NodeId} {ts us rest rest' : List Token}
    {isOpen isOpen' : Bool} {s s' : Stmt} (first : Tree n ts (.statement isOpen s) n')
    (second : Tree k us (.statement isOpen' s') k') (ends : isOpen = true → NoElse rest)
    (ends' : isOpen' = true → NoElse rest') (same : ts ++ rest = us ++ rest') :
    ts = us ∧ rest = rest' ∧ s'.core = s.core := by
  let fuel := 32 * ts.length + 32 * us.length + 17
  have read := first.readStatement rest ends fuel (by omega) 1 []
  have read' := (second.move n).readStatement rest' ends' fuel (by omega) 1 []
  rw [same, read'] at read
  injection read with tree left
  injection left with left
  subst left
  exact ⟨List.append_cancel_right same, rfl, by rw [← tree, Stmt.core_rename]⟩

/-- In a program, other tokens may stand in the place of a loop that are a closed statement
with the same core, and the whole has the same core. -/
theorem Tree.replace {n n' k k' : NodeId} {before loop after us : List Token} {t : Token}
    {ss : List Stmt} {isOpen : Bool} {s : Stmt}
    (program : Tree n (before ++ t :: loop ++ after) (.declarations ss) n')
    (keyword : t.kind = .for) (tree : Tree k (t :: loop) (.statement isOpen s) k')
    (ends : isOpen = true → NoElse after) (read : Readable us (.statement false s)) :
    Readable (before ++ us ++ after) (.declarations ss) := by
  have found : Located t before (loop ++ after) (.declarations ss) [] :=
    program.located keyword (by simp) nofun
  obtain ⟨loop', after', m, m', isOpen', s', split, tree', ends', replace⟩ := found
  rw [List.append_nil] at ends'
  obtain ⟨-, rfl, core⟩ := tree.statement_unique tree' ends ends' (by simp [split])
  refine replace us fun start => ?_
  obtain ⟨isOpen'', s'', last, again, closed, core'⟩ := read.statement start
  exact ⟨_, last, again, .statement closed (core'.trans core.symm)⟩

end ClassScript.Parsing
