import ClassScript.Proofs.Binding.Sound
import ClassScript.Proofs.Syntax.Respelled
import Mathlib.Logic.Equiv.Basic

/-!
# Walks over respelled trees

In some scopes of an accepted program a name is exchanged for one that occurs nowhere in it.
A walk over the respelled program then goes alike: it finds no error, and notes the same
depth for every occurrence (`Follows`). For an occurrence is spelled as the scope spells its
name that the table leads to, and no scope in between has that spelling (`Levels.depthOf`).
-/

namespace ClassScript.Binding

open Syntax Walk

/-- The scopes of a walk, and those of one over the respelled tree. The new spelling is in
none of the first. -/
inductive Levels (x y : String) : Flags → List Names → List Names → Prop
  | nil : Levels x y [] [] []
  | cons {isRespelled flags names names' outer outer'} (free : names[y]? = none)
      (same : ∀ text, names'[spelled (Equiv.swap x y) isRespelled text]? = names[text]?)
      (rest : Levels x y flags outer outer') :
      Levels x y (isRespelled :: flags) (names :: outer) (names' :: outer')

/-- Two walks in progress, where the second one goes over the respelled tree. -/
structure Follows (x y : String) (flags : Flags) (w w' : Walk) : Prop where
  scopes : Levels x y flags w.scopes w'.scopes
  errors : w.errors = [] → w'.errors = []
  locals : w'.locals = w.locals

variable {x y text : String} {flags : Flags} {isRespelled : Bool}

/-- Swapping two spellings keeps different names apart. -/
theorem spelled_injective : Function.Injective (spelled (Equiv.swap x y) isRespelled) := by
  cases isRespelled with
  | false => exact Function.injective_id
  | true => exact (Equiv.swap x y).injective

/-- Exchanging two names does not concern a third. -/
theorem spelled_of_ne (first : text ≠ x) (second : text ≠ y) :
    spelled (Equiv.swap x y) isRespelled text = text := by
  cases isRespelled with
  | false => rfl
  | true => exact Equiv.swap_apply_of_ne_of_ne first second

namespace Levels

variable {scopes scopes' : List Names}

/-- A name that a scope does not have has no spelling there, whatever spells it. -/
theorem absent {names names' : Names} (free : names[y]? = none)
    (same : ∀ text, names'[spelled (Equiv.swap x y) isRespelled text]? = names[text]?)
    (fresh : text ≠ y) (missing : names[text]? = none) (other : Bool) :
    names'[spelled (Equiv.swap x y) other text]? = none := by
  by_cases named : text = x
  · subst named
    have here := same text
    have there := same y
    cases isRespelled <;> cases other <;>
      simp only [spelled, if_true, if_false, Bool.false_eq_true, Equiv.swap_apply_left,
        Equiv.swap_apply_right] at here there ⊢ <;> simp only [here, there, missing, free]
  · have here := same text
    rw [spelled_of_ne named fresh] at here ⊢
    exact here.trans missing

/-- An occurrence finds the scope that its name did. -/
theorem depthOf (h : Levels x y flags scopes scopes') (fresh : text ≠ y) :
    Binding.depthOf
        (spelled (Equiv.swap x y) (flags.has (Binding.depthOf text scopes)) text) scopes' =
      Binding.depthOf text scopes := by
  induction h with
  | nil => rfl
  | @cons isRespelled flags names names' outer outer' free same rest ih =>
    rw [depthOf_cons text names outer]
    cases found : names[text]? with
    | some state =>
      -- found on this level: the renamed level holds the spelling at the same place
      have inside : names.contains text = true := by
        rw [← Std.ExtTreeMap.isSome_getElem?_eq_contains, found]
        rfl
      have inside' : names'.contains (spelled (Equiv.swap x y) isRespelled text) = true := by
        rw [← Std.ExtTreeMap.isSome_getElem?_eq_contains, same, found]
        rfl
      rw [if_pos inside, depthOf_cons]
      exact if_pos inside'
    | none =>
      -- not on this level: it holds neither spelling, so both searches go on outwards
      have outside : names.contains text = false := by
        rw [← Std.ExtTreeMap.isSome_getElem?_eq_contains, found]
        rfl
      have flag : Flags.has (isRespelled :: flags) ((Binding.depthOf text outer).map (· + 1)) =
          flags.has (Binding.depthOf text outer) := by
        cases Binding.depthOf text outer <;> rfl
      rw [outside, if_neg nofun, flag, depthOf_cons,
        ← Std.ExtTreeMap.isSome_getElem?_eq_contains, absent free same fresh found, ih]
      rfl

/-- In the innermost scope it has the state that its name had. -/
theorem innermost (h : Levels x y flags scopes scopes') (fresh : text ≠ y) :
    (scopes'.head?.bind fun names =>
        names[spelled (Equiv.swap x y) (flags.has (Binding.depthOf text scopes)) text]?) =
      scopes.head?.bind fun names => names[text]? := by
  cases h with
  | nil => rfl
  | @cons isRespelled flags names names' outer outer' free same rest =>
    simp only [List.head?_cons, Option.bind_some]
    cases found : names[text]? with
    | some state =>
      have inside : names.contains text = true := by
        rw [← Std.ExtTreeMap.isSome_getElem?_eq_contains, found]
        rfl
      rw [depthOf_cons, if_pos inside, ← found]
      exact same text
    | none => exact absent free same fresh found _

/-- What the innermost scope has under its own spelling of a name. -/
theorem declared (h : Levels x y flags scopes scopes') (text : String) :
    (scopes'.head?.bind fun names =>
        names[spelled (Equiv.swap x y) (flags.headD false) text]?) =
      scopes.head?.bind fun names => names[text]? := by
  cases h with
  | nil => rfl
  | cons _ same _ => exact same text

/-- A name is set in the innermost scope, as that spells it. -/
theorem mark (h : Levels x y flags scopes scopes') (fresh : text ≠ y) (isDefined : Bool) :
    Levels x y flags (marked text isDefined scopes)
      (marked (spelled (Equiv.swap x y) (flags.headD false) text) isDefined scopes') := by
  cases h with
  | nil => exact .nil
  | cons free same rest =>
    refine .cons ?_ (fun other => ?_) rest
    · rw [Std.ExtTreeMap.getElem?_insert, if_neg (by simpa using fresh), free]
    · simp only [List.headD_cons, Std.ExtTreeMap.getElem?_insert, same,
        Std.LawfulEqOrd.compare_eq_iff_eq, spelled_injective.eq_iff]

/-- A scope that is opened in both walks has no names in either yet. -/
theorem enter (h : Levels x y flags scopes scopes') (isRespelled : Bool) :
    Levels x y (isRespelled :: flags) (∅ :: scopes) (∅ :: scopes') :=
  .cons (by simp) (by simp) h

theorem leave (h : Levels x y (isRespelled :: flags) scopes scopes') :
    Levels x y flags scopes.tail scopes'.tail := by
  cases h with
  | cons free same rest => exact rest

end Levels

namespace Follows

variable {w w' : Walk} {table : Locals}

/-- Walks that begin. -/
theorem start : Follows x y [] .start .start := ⟨.nil, id, rfl⟩

/-- A requirement that holds in both is an error in neither, and one that fails in both is one
in both, whatever they cite. -/
theorem require (h : Follows x y flags w w') {holds holds' : Bool} (same : holds' = holds)
    (line line' : Nat) (lexeme lexeme' : String) (cause : BindingCause) :
    Follows x y flags (w.require holds line lexeme cause)
      (w'.require holds' line' lexeme' cause) where
  scopes := by rw [scopes_require, scopes_require]; exact h.scopes
  errors none := by
    have holding := require_accepted none
    rw [same, holding]
    rw [holding] at none
    exact h.errors none
  locals := by rw [locals_require, locals_require]; exact h.locals

theorem enter (h : Follows x y flags w w') (isRespelled : Bool) :
    Follows x y (isRespelled :: flags) w.enter w'.enter :=
  ⟨h.scopes.enter isRespelled, h.errors, h.locals⟩

theorem leave (h : Follows x y (isRespelled :: flags) w w') : Follows x y flags w.leave w'.leave :=
  ⟨h.scopes.leave, h.errors, h.locals⟩

theorem mark (h : Follows x y flags w w') (fresh : text ≠ y) (isDefined : Bool) :
    Follows x y flags (w.mark text isDefined)
      (w'.mark (spelled (Equiv.swap x y) (flags.headD false) text) isDefined) where
  scopes := by rw [scopes_mark, scopes_mark]; exact h.scopes.mark fresh isDefined
  errors := by rw [errors_mark, errors_mark]; exact h.errors
  locals := by rw [locals_mark, locals_mark]; exact h.locals

/-- So is a name that is declared. -/
theorem declare (h : Follows x y flags w w') {name : Name} (fresh : name.text ≠ y) :
    Follows x y flags (w.declare name)
      (w'.declare (name.respell (Equiv.swap x y) (flags.headD false))) := by
  -- the spelling is in the scope if the name was
  have same : w'.innermost? (spelled (Equiv.swap x y) (flags.headD false) name.text) =
      w.innermost? name.text := h.scopes.declared name.text
  exact (h.mark fresh false).require (congrArg Option.isNone same) ..

theorem declareDefined (h : Follows x y flags w w') {name : Name} (fresh : name.text ≠ y) :
    Follows x y flags (w.declareDefined name)
      (w'.declareDefined (name.respell (Equiv.swap x y) (flags.headD false))) :=
  (h.declare fresh).mark fresh true

/-- The name of a function or a class, which its scope spells as it is. -/
theorem title (h : Follows x y flags w w') {name : Name} (fresh : name.text ≠ y)
    (kept : spelled (Equiv.swap x y) (flags.headD false) name.text = name.text) :
    Follows x y flags (w.declareDefined name) (w'.declareDefined name) := by
  have declared := h.declareDefined fresh
  rwa [Name.respell, kept] at declared

/-- Parameters are declared in the scope of the function, whose flag counts for all of them. -/
theorem parameters (h : Follows x y (isRespelled :: flags) w w') {names : List Name}
    (fresh : y ∉ names.map Name.text) :
    Follows x y (isRespelled :: flags) (names.foldl Walk.declareDefined w)
      ((names.map (Name.respell (Equiv.swap x y) isRespelled)).foldl Walk.declareDefined w') := by
  induction names generalizing w w' with
  | nil => exact h
  | cons name rest ih =>
    rw [List.map_cons, List.mem_cons, not_or] at fresh
    exact ih (h.declareDefined (Ne.symm fresh.1)) fresh.2

/-- An occurrence is noted with the depth of its name. -/
theorem note (h : Follows x y flags w w') (fresh : text ≠ y) (id : NodeId) :
    Follows x y flags (w.note id text)
      (w'.note id (spelled (Equiv.swap x y) (flags.has (depthOf text w.scopes)) text)) := by
  unfold Walk.note
  rw [w.depth?_eq, w'.depth?_eq, h.scopes.depthOf fresh]
  cases depthOf text w.scopes with
  | none => exact h
  | some depth => exact ⟨h.scopes, h.errors, congrArg (Locals.insert · id depth) h.locals⟩

/-- A word that is no name is spelled as it is everywhere. -/
theorem noteWord (h : Follows x y flags w w') (first : text ≠ x) (fresh : text ≠ y)
    (id : NodeId) : Follows x y flags (w.note id text) (w'.note id text) := by
  have noted := h.note fresh id
  rwa [spelled_of_ne first fresh] at noted

/-- An occurrence is spelled as the scope is that it refers to, so it has the same depth in both
walks. -/
theorem read (h : Follows x y flags w w') {o : Occurrence}
    (noted : table.depth? o.id = depthOf o.name.text w.scopes) (fresh : o.name.text ≠ y) :
    Follows x y flags (w.read o) (w'.read (o.respell (Equiv.swap x y) table flags)) := by
  rw [Occurrence.respell, noted]
  have innermost := h.scopes.innermost fresh
  have same : (w'.innermost? (spelled (Equiv.swap x y) (flags.has (depthOf o.name.text w.scopes))
      o.name.text) != some false) = (w.innermost? o.name.text != some false) :=
    congrArg (· != some false) innermost
  have required := h.require same o.name.line o.name.line o.name.text
    (spelled (Equiv.swap x y) (flags.has (depthOf o.name.text w.scopes)) o.name.text)
    .ownInitializer
  have noted := required.note fresh o.id
  rwa [scopes_require] at noted

section Pieces

-- in a mutual block a theorem may use the variables through the others only
set_option linter.unusedSectionVars false

variable (first : x ∉ reserved) (second : y ∉ reserved)
include first second

/-- `this` and `super` are noted as before. -/
theorem noteReserved (h : Follows x y flags w w') {word : String} (among : word ∈ reserved)
    (id : NodeId) : Follows x y flags (w.note id word) (w'.note id word) :=
  h.noteWord (fun same => first (same ▸ among)) (fun same => second (same ▸ among)) id

mutual

/-- The walk through an expression whose occurrences are respelled follows the one through the
expression. -/
theorem expression {w w' : Walk} {c : Context} (e : Expr)
    (sound : Sound table ⟨.expression e, c, w⟩) (fresh : y ∉ e.names)
    (h : Follows x y flags w w') : Follows x y flags (w.expression c e)
      (w'.expression c (e.respell (Equiv.swap x y) table flags)) := by
  cases e with
  | literal value => exact h
  | group inner => exact expression inner (sound.child .group) fresh h
  | unary op line operand => exact expression operand (sound.child .unary) fresh h
  | binary op line left right =>
    rw [Expr.names, List.mem_append, not_or] at fresh
    exact expression right (sound.child .binaryRight) fresh.2
      (expression left (sound.child .binaryLeft) fresh.1 h)
  | logical op left right =>
    rw [Expr.names, List.mem_append, not_or] at fresh
    exact expression right (sound.child .logicalRight) fresh.2
      (expression left (sound.child .logicalLeft) fresh.1 h)
  | «variable» o => exact h.read sound.variable.1 (List.ne_of_not_mem_cons fresh).symm
  | assign target value =>
    rw [Expr.names, List.mem_cons, not_or] at fresh
    -- the occurrence itself is noted after its value, in unchanged scopes
    have noted := (expression value (sound.child .assign) fresh.2 h).note (Ne.symm fresh.1)
      target.id
    rwa [scopes_expression, ← sound.assign] at noted
  | call callee line arguments =>
    rw [Expr.names, List.mem_append, not_or] at fresh
    exact expressions arguments (sound.child .arguments) fresh.2
      (expression callee (sound.child .callee) fresh.1 h)
  | get object name => exact expression object (sound.child .get) fresh h
  | set object name value =>
    rw [Expr.names, List.mem_append, not_or] at fresh
    exact expression object (sound.child .setObject) fresh.1
      (expression value (sound.child .setValue) fresh.2 h)
  | this id line =>
    -- outside of a class this would be an error, and the walk had none
    have accepted := sound.accepted
    simp only [Visit.after, Walk.expression, Expr.respell] at accepted ⊢
    split
    · next outside => simp [outside, error] at accepted
    · exact noteReserved first second h (by simp [reserved]) id
  | super id line method =>
    have accepted := sound.accepted
    simp only [Visit.after, Walk.expression, Expr.respell] at accepted ⊢
    split
    · next outside => simp [outside, error] at accepted
    · next plain => simp [plain, error] at accepted
    · exact noteReserved first second h (by simp [reserved]) id

theorem expressions {w w' : Walk} {c : Context} (es : List Expr)
    (sound : Sound table ⟨.expressions es, c, w⟩) (fresh : y ∉ Expr.namesOfAll es)
    (h : Follows x y flags w w') : Follows x y flags (w.expressions c es)
      (w'.expressions c (Expr.respellAll (Equiv.swap x y) table flags es)) := by
  cases es with
  | nil => exact h
  | cons e rest =>
    rw [Expr.namesOfAll, List.mem_append, not_or] at fresh
    exact expressions rest (sound.child .expressionsTail) fresh.2
      (expression e (sound.child .expressionsHead) fresh.1 h)

end

theorem expression? {c : Context} (e : Option Expr)
    (sound : ∀ e' ∈ e, Sound table ⟨.expression e', c, w⟩) (fresh : y ∉ Expr.namesOf? e)
    (h : Follows x y flags w w') : Follows x y flags (w.expression? c e)
      (w'.expression? c (e.map (Expr.respell (Equiv.swap x y) table flags))) := by
  cases e with
  | none => exact h
  | some e => exact expression first second e (sound e rfl) fresh h

/-- The superclass is another one than the class also in the new spelling, which no class
has. -/
theorem superclass {name : Name} {o : Occurrence} {c : Context}
    (sound : Sound table ⟨.superclass name o, c, w⟩) (fresh : name.text ≠ y)
    (fresh' : o.name.text ≠ y) (h : Follows x y flags w w') :
    Follows x y (false :: flags) (w.superclass name o)
      (w'.superclass name (o.respell (Equiv.swap x y) table flags)) := by
  obtain ⟨noted, other⟩ := sound.superclass
  -- a superclass that is respelled becomes y, which is not the name of the class either
  have other' : (o.respell (Equiv.swap x y) table flags).name.text ≠ name.text := by
    show spelled (Equiv.swap x y) _ o.name.text ≠ name.text
    by_cases named : o.name.text = x
    · cases flags.has (table.depth? o.id) with
      | false => exact other
      | true =>
        rw [named]
        show Equiv.swap x y x ≠ name.text
        rw [Equiv.swap_apply_left]
        exact Ne.symm fresh
    · rwa [spelled_of_ne named fresh']
  have required := h.require
    (show ((o.respell (Equiv.swap x y) table flags).name.text != name.text) =
      (o.name.text != name.text) by rw [bne_iff_ne.mpr other, bne_iff_ne.mpr other'])
    o.name.line o.name.line o.name.text (o.respell (Equiv.swap x y) table flags).name.text
    .inheritsItself
  have read := required.read (by rwa [scopes_require]) fresh'
  -- the scope opened for super is respelled on neither side
  have super : "super" ≠ y := fun same => second (same ▸ by simp [reserved])
  exact (read.enter false).mark super true

mutual

/-- The walk through a statement whose scopes are respelled follows the one through the
statement, if it keeps the titles of functions and classes and spares the scopes of others. -/
theorem statement {w w' : Walk} {flags : Flags} {c : Context} {scheme : Scheme} (s : Stmt)
    (sound : Sound table ⟨.statement s, c, w⟩) (h : Follows x y flags w w')
    (fresh : y ∉ s.names) (keeps : Keeps (Equiv.swap x y) (flags.headD false) s.titles)
    (spares : Spares (Equiv.swap x y) scheme s.openedAt) :
    Follows x y flags (w.statement c s)
      (w'.statement c (s.respell (Equiv.swap x y) table flags scheme)) := by
  cases s with
  | expression e => exact expression first second e (sound.child .expressionStmt) fresh h
  | print e => exact expression first second e (sound.child .print) fresh h
  | var name initializer =>
    rw [Stmt.names, List.mem_cons, not_or] at fresh
    have named := Ne.symm fresh.1
    -- the new name is declared before its initializer is walked and defined after it
    have inside := expression? first second initializer (c := c) (w := w.declare name)
      (fun e given => by obtain rfl := given; exact sound.child .varInitializer) fresh.2
      (h.declare named)
    exact inside.mark named true
  | block body =>
    exact (statements body (sound.child .block) (h.enter (scheme [])) fresh (spares [] _ rfl)
      fun place => spares (0 :: place)).leave
  -- the scheme is read at the place of each part, hence the number put before its places
  | branch condition yes no =>
    cases no with
    | none =>
      rw [Stmt.names, List.mem_append, not_or] at fresh
      have tested := expression first second condition (sound.child .branchCondition) fresh.1 h
      exact statement yes (sound.child .branchYes) tested fresh.2 keeps
        fun place => spares (0 :: place)
    | some no =>
      rw [Stmt.names, List.mem_append, List.mem_append, not_or, not_or] at fresh
      rw [Stmt.titles, Keeps, List.forall_mem_append] at keeps
      have tested := expression first second condition (sound.child .branchCondition) fresh.1 h
      have taken := statement yes (sound.child .branchYes) tested fresh.2.1 keeps.1
        fun place => spares (0 :: place)
      exact statement no (sound.child .branchNo) taken fresh.2.2 keeps.2
        fun place => spares (1 :: place)
  | loop condition body increment =>
    rw [Stmt.names, List.mem_append, List.mem_append, not_or, not_or] at fresh
    have tested := expression first second condition (sound.child .loopCondition) fresh.1 h
    have round := statement body (sound.child .loopBody) tested fresh.2.1 keeps
      fun place => spares (0 :: place)
    exact expression? first second increment
      (fun e given => by obtain rfl := given; exact sound.child .loopIncrement) fresh.2.2 round
  | function declaration =>
    -- the title is not y and is kept or respelled as the scope on top is
    have named : declaration.name.text ≠ y := by
      obtain ⟨name, parameters, body⟩ := declaration
      exact (List.ne_of_not_mem_cons fresh).symm
    have titled := h.title named (keeps _ (List.mem_singleton_self _))
    have inner := function declaration (sound.child .functionStmt) titled fresh spares
    obtain ⟨name, parameters, body⟩ := declaration
    exact inner
  | «return» line value =>
    cases value with
    | none => exact h.require rfl ..
    | some value =>
      exact expression first second value (sound.child .returnValue) fresh
        ((h.require rfl ..).require rfl ..)
  | «break» line => exact h.require rfl ..
  | «continue» line => exact h.require rfl ..
  | classDecl name parent ds =>
    have this : "this" ≠ y := fun same => second (same ▸ by simp [reserved])
    cases parent with
    | none =>
      rw [Stmt.names, List.mem_cons, not_or] at fresh
      have titled := h.title (Ne.symm fresh.1) (keeps _ (List.mem_singleton_self _))
      -- the scopes of this and super are the walk's own and are not respelled
      have inside := (titled.enter false).mark this true
      exact (methods ds (sound.child .classMethods) inside fresh.2 spares).leave
    | some parent =>
      rw [Stmt.names, List.mem_cons, List.mem_cons, not_or, not_or] at fresh
      have titled := h.title (Ne.symm fresh.1) (keeps _ (List.mem_singleton_self _))
      have opened := superclass first second (sound.child .classSuperclass) (Ne.symm fresh.1)
        (Ne.symm fresh.2.1) titled
      have inside := (opened.enter false).mark this true
      exact (methods ds (sound.child .subclassMethods) inside fresh.2.2 spares).leave.leave

/-- The same of statements in a row. -/
theorem statements {w w' : Walk} {flags : Flags} {c : Context} {scheme : Scheme} (ss : List Stmt)
    (sound : Sound table ⟨.statements ss, c, w⟩) (h : Follows x y flags w w')
    (fresh : y ∉ Stmt.namesOfAll ss)
    (keeps : Keeps (Equiv.swap x y) (flags.headD false) (Stmt.titlesOfAll ss))
    (spares : Spares (Equiv.swap x y) scheme (Stmt.openedAmong ss)) :
    Follows x y flags (w.statements c ss)
      (w'.statements c (Stmt.respellAll (Equiv.swap x y) table flags scheme ss)) := by
  cases ss with
  | nil => exact h
  | cons s rest =>
    rw [Stmt.namesOfAll, List.mem_append, not_or] at fresh
    rw [Stmt.titlesOfAll, List.flatMap_cons, Keeps, List.forall_mem_append] at keeps
    have head := statement s (sound.child .statementsHead) h fresh.1 keeps.1
      fun place => spares (0 :: place)
    exact statements rest (sound.child .statementsTail) head fresh.2 keeps.2
      fun place => spares (1 :: place)

/-- The same of a function, which opens a scope for its parameters and its body. -/
theorem function {w w' : Walk} {flags : Flags} {c : Context} {scheme : Scheme} (d : FunctionDecl)
    (sound : Sound table ⟨.function d, c, w⟩) (h : Follows x y flags w w')
    (fresh : y ∉ d.names) (spares : Spares (Equiv.swap x y) scheme d.openedAt) :
    Follows x y flags (w.function c d)
      (w'.function c (d.respell (Equiv.swap x y) table flags scheme)) := by
  obtain ⟨name, parameters, body⟩ := d
  rw [FunctionDecl.names, List.mem_cons, List.mem_append, not_or, not_or] at fresh
  have opened := (h.enter (scheme [])).parameters fresh.2.1
  exact (statements body (sound.child .functionBody) opened fresh.2.2 (spares [] _ rfl)
    fun place => spares (0 :: place)).leave

theorem methods {w w' : Walk} {flags : Flags} {c : Context} {scheme : Scheme}
    (ds : List FunctionDecl) (sound : Sound table ⟨.methods ds, c, w⟩) (h : Follows x y flags w w')
    (fresh : y ∉ FunctionDecl.namesOfAll ds)
    (spares : Spares (Equiv.swap x y) scheme (FunctionDecl.openedAmong ds)) :
    Follows x y flags (w.methods c ds)
      (w'.methods c (FunctionDecl.respellAll (Equiv.swap x y) table flags scheme ds)) := by
  cases ds with
  | nil => exact h
  | cons d rest =>
    rw [FunctionDecl.namesOfAll, List.mem_append, not_or] at fresh
    have head := function d (sound.child .methodsHead) h fresh.1 fun place => spares (0 :: place)
    have tail := methods rest (sound.child .methodsTail) head fresh.2
      fun place => spares (1 :: place)
    obtain ⟨name, parameters, body⟩ := d
    exact tail

end

end Pieces

end Follows

/-- A respelled program is accepted, with the same table. -/
theorem ofProgram_respell {x y : String} (first : x ∉ reserved) (second : y ∉ reserved)
    {table : Locals} {program : Program} {scheme : Scheme}
    (sound : Sound table (Visit.ofInput (.statements program)))
    (fresh : y ∉ Stmt.namesOfAll program)
    (spares : Spares (Equiv.swap x y) scheme (Stmt.openedAmong program)) :
    ofProgram (Stmt.respellAll (Equiv.swap x y) table [] scheme program) = ofProgram program := by
  have follows := Follows.statements first second program sound .start fresh (fun _ _ => rfl) spares
  have accepted : ofProgram program = .ok (start.statements .top program).locals :=
    conclude_iff.mpr ⟨sound.accepted, rfl⟩
  rw [accepted]
  exact conclude_iff.mpr ⟨follows.errors sound.accepted, follows.locals⟩

end ClassScript.Binding
