import ClassScript.Proofs.Binding.Walk
import ClassScript.Proofs.Syntax.Sites
import Mathlib.Algebra.Order.Group.Multiset
import Mathlib.Tactic.Abel

/-!
# What resolution reports

The rules about names and jumps, said of the places of a program without a walk
(`misuses`), and that resolution finds just what they forbid. A walk carries its
knowledge of what is around it in a context and in the states of names; `Fits` is the
relation between the two, and every piece adds to the errors of the walk what is wrong
at its places and the names that it declares again (`errors_statement`).
-/

namespace ClassScript.Binding

open Syntax Walk

/-! ## The rules -/

/-- The names of a row that were declared before, in the row or ahead of it. -/
def repeated (earlier : List String) : List Name → List Name
  | [] => []
  | name :: rest =>
    (if name.text ∈ earlier then [name] else []) ++ repeated (name.text :: earlier) rest

/-- An error where something must not be. -/
def forbid (wrong : Bool) (line : Nat) (lexeme : String) (cause : BindingCause) :
    List BindingError :=
  if wrong then [⟨line, lexeme, cause⟩] else []

def redeclaration (name : Name) : BindingError := ⟨name.line, name.text, .redeclared⟩

/-- What is wrong at a place. -/
def misusesOf (around : Surroundings) : Place → List BindingError
  | .read name => forbid (around.initializes name.text) name.line name.text .ownInitializer
  | .return line hasValue =>
    match around.innermostFunction? with
    | none => [⟨line, "return", .returnAtTop⟩]
    | some kind =>
      forbid (hasValue && kind == .method initializerName) line "return"
        .returnFromInitializer
  | .break line => forbid (!around.inLoop) line "break" .breakOutside
  | .continue line => forbid (!around.inLoop) line "continue" .continueOutside
  | .this line => forbid around.innermostClass?.isNone line "this" .thisOutside
  | .super line =>
    match around.innermostClass? with
    | none => [⟨line, "super", .superOutside⟩]
    | some kind => forbid (kind == .classBody false) line "super" .superWithoutSuperclass
  | .inherits className superclass =>
    forbid (superclass.text == className.text) superclass.line superclass.text .inheritsItself
  | .scope names => (repeated [] names).map redeclaration

/-- What is wrong at the places of a list. -/
def misusesAt (sites : List Site) : List BindingError :=
  sites.flatMap fun site => misusesOf site.around site.place

/-- What is wrong in a program: at each of its places what the place's rule forbids. -/
def misuses (program : Program) : List BindingError :=
  misusesAt (Stmt.sitesOfAll [] program)

example : misuses [.block [.var ⟨"a", 1⟩ none, .var ⟨"a", 2⟩ (some (.variable ⟨0, ⟨"a", 2⟩⟩))],
    .break 3] = [⟨2, "a", .redeclared⟩, ⟨2, "a", .ownInitializer⟩, ⟨3, "break", .breakOutside⟩] :=
  rfl

@[simp] theorem misusesAt_nil : misusesAt [] = [] := rfl

@[simp] theorem misusesAt_cons (site : Site) (rest : List Site) :
    misusesAt (site :: rest) = misusesOf site.around site.place ++ misusesAt rest := rfl

/-- The misuses of places in a row are those of the first ones and then those of the others. -/
@[simp] theorem misusesAt_append (first second : List Site) :
    misusesAt (first ++ second) = misusesAt first ++ misusesAt second :=
  List.flatMap_append

/-! ## The context of a place -/

/-- The kind of the innermost function. -/
def functionContext (around : Surroundings) : FunctionContext :=
  match around.innermostFunction? with
  | none => .none
  | some (.method name) => if name = initializerName then .initializer else .method
  | some _ => .function

/-- The kind of the innermost class. -/
def classContext (around : Surroundings) : ClassContext :=
  match around.innermostClass? with
  | none => .none
  | some (.classBody false) => .plain
  | some _ => .derived

/-- The context that a walk has where these constructs are around it. -/
def contextOf (around : Surroundings) : Context :=
  ⟨functionContext around, classContext around, around.inLoop⟩

section contextOf

variable (around : Surroundings)

theorem contextOf_block : contextOf (.block :: around) = contextOf around := rfl

theorem contextOf_initializer (name : String) :
    contextOf (.initializer name :: around) = contextOf around := rfl

theorem contextOf_loop :
    contextOf (.loop :: around) = { contextOf around with inLoop := true } := rfl

theorem contextOf_function :
    contextOf (.function :: around) = (contextOf around).inFunction .function := rfl

theorem contextOf_method (method : FunctionDecl) :
    contextOf (.method method.name.text :: around) =
      (contextOf around).inFunction (methodContext method) := rfl

theorem contextOf_class (hasSuperclass : Bool) :
    contextOf (.classBody hasSuperclass :: around) =
      { contextOf around with enclosing := if hasSuperclass then .derived else .plain } := by
  cases hasSuperclass <;> rfl

/-- The innermost function, if there is one, is a function. -/
theorem innermostFunction?_cases :
    around.innermostFunction? = none ∨ around.innermostFunction? = some .function ∨
      ∃ name, around.innermostFunction? = some (.method name) := by
  cases found : around.innermostFunction? with
  | none => exact .inl rfl
  | some kind =>
    have isFunction := List.find?_some found
    cases kind with
    | function => exact .inr (.inl rfl)
    | method name => exact .inr (.inr ⟨name, rfl⟩)
    | _ => cases isFunction

/-- The innermost construct that is a class is one with or without a superclass. -/
theorem innermostClass?_cases :
    around.innermostClass? = none ∨ around.innermostClass? = some (.classBody false) ∨
      around.innermostClass? = some (.classBody true) := by
  cases found : around.innermostClass? with
  | none => exact .inl rfl
  | some kind =>
    have isClass := List.find?_some found
    cases kind with
    | classBody hasSuperclass => cases hasSuperclass <;> simp
    | _ => cases isClass

end contextOf

/-! ## The scopes of a place -/

/-- The state of a name in the innermost scope. -/
def stateOf (text : String) (scopes : List Names) : Option Bool :=
  scopes.head?.bind fun names => names[text]?

theorem stateOf_enter (text : String) (scopes : List Names) :
    stateOf text (∅ :: scopes) = none := by
  simp [stateOf]

/-- Marking a name changes the state of that name alone, and none at top level. -/
theorem stateOf_marked (text : String) (isDefined : Bool) (other : String)
    (scopes : List Names) :
    stateOf other (marked text isDefined scopes) =
      if text = other ∧ scopes ≠ [] then some isDefined else stateOf other scopes := by
  cases scopes with
  | nil => simp [stateOf, marked]
  | cons names outer => simp [stateOf, marked, Std.ExtTreeMap.getElem?_insert]

/-- There is a local scope where there should be one, and the names that wait for their
initializer are those whose initializer is around. -/
structure Fits (around : Surroundings) (scopes : List Names) : Prop where
  isLocal : scopes ≠ [] ↔ around.isLocal = true
  waiting : ∀ text, stateOf text scopes = some false ↔ around.initializes text = true

/-- No initializer is around. -/
def Idle (around : Surroundings) : Prop := ∀ text, around.initializes text = false

/-- No initializer is being evaluated in a scope that has just been opened. -/
theorem Idle.enter {around : Surroundings} (idle : Idle around) (construct : Surrounding)
    (opens : construct.opensScope = true) : Idle (construct :: around) := by
  intro text
  cases construct with
  | initializer name => cases opens
  | _ => exact idle text

namespace Fits

variable {around : Surroundings} {scopes : List Names}

/-- At the start of a walk there are no scopes, and nothing is around. -/
theorem start : Fits [] [] := ⟨by simp [Surroundings.isLocal], fun text => by
  simp [stateOf, Surroundings.initializes]⟩

/-- The scopes still fit what is around when a name is defined in them, as no initializer refers
to it. -/
theorem marked (h : Fits around scopes) (idle : Idle around) (text : String) :
    Fits around (marked text true scopes) where
  isLocal := by
    rw [← h.isLocal, ← List.length_pos_iff, ← List.length_pos_iff, marked_length]
  waiting other := by
    rw [stateOf_marked, idle other]
    split
    · simp
    · simpa [idle other] using h.waiting other

theorem declared (h : Fits around scopes) (idle : Idle around) (texts : List String) :
    Fits around (declared texts scopes) := by
  induction texts generalizing scopes with
  | nil => exact h
  | cons text rest ih => exact ih (h.marked idle text)

/-- Inside a construct that opens a scope. -/
theorem enter (idle : Idle around) (construct : Surrounding)
    (opens : construct.opensScope = true) (scopes : List Names) :
    Fits (construct :: around) (∅ :: scopes) := by
  refine ⟨by simp [Surroundings.isLocal, opens], fun text => ?_⟩
  simp [stateOf_enter, idle.enter construct opens text]

/-- A scope more, inside a construct that opens one. -/
theorem enterAgain (idle : Idle around) (opens : around.isLocal = true) :
    Fits around (∅ :: scopes) :=
  ⟨by simp [opens], fun text => by simp [stateOf_enter, idle text]⟩

/-- A loop opens no scope. -/
theorem loop (h : Fits around scopes) (idle : Idle around) :
    Idle (.loop :: around) ∧ Fits (.loop :: around) scopes :=
  ⟨idle, h.isLocal, h.waiting⟩

/-- Inside the initializer of a name that is declared here. -/
theorem initializer (h : Fits around scopes) (idle : Idle around) (text : String) :
    Fits (.initializer text :: around) (Binding.marked text false scopes) where
  isLocal := by
    rw [← List.length_pos_iff, marked_length, List.length_pos_iff]
    exact h.isLocal
  waiting other := by
    have waiting := h.waiting other
    rw [idle other] at waiting
    rw [stateOf_marked, Surroundings.initializes, idle other]
    split
    · next here => simp [here.1, h.isLocal.mp here.2]
    · next elsewhere =>
      have : ¬ (text = other ∧ around.isLocal = true) := fun here =>
        elsewhere ⟨here.1, h.isLocal.mpr here.2⟩
      simpa [waiting] using this

end Fits

/-! ## What single steps add -/

/-- A requirement is an error if it does not hold. -/
theorem errors_require (w : Walk) (holds : Bool) (line : Nat) (lexeme : String)
    (cause : BindingCause) :
    (w.require holds line lexeme cause).errors =
      w.errors ++ forbid (!holds) line lexeme cause := by
  cases holds <;> simp [require, forbid, error]

/-- A read is wrong where the name's initializer is around. -/
theorem errors_read {around : Surroundings} {w : Walk} (fits : Fits around w.scopes)
    (occurrence : Occurrence) :
    (w.read occurrence).errors = w.errors ++ misusesOf around (.read occurrence.name) := by
  have state : (!(w.innermost? occurrence.name.text != some false)) =
      around.initializes occurrence.name.text := by
    rw [Bool.eq_iff_iff, ← fits.waiting]
    simp [innermost?, stateOf]
  rw [Walk.read, errors_note, errors_require, misusesOf, state]

/-- The errors for names that are declared one after the other. -/
def redeclared : List Names → List Name → List BindingError
  | _, [] => []
  | scopes, name :: rest =>
    (if (stateOf name.text scopes).isSome then [redeclaration name] else []) ++
      redeclared (marked name.text true scopes) rest

/-- Of names that are declared one after the other, the later ones are declared in a scope that
has the earlier ones. -/
theorem redeclared_append (scopes : List Names) (first second : List Name) :
    redeclared scopes (first ++ second) =
      redeclared scopes first ++ redeclared (declared (first.map Name.text) scopes) second := by
  induction first generalizing scopes with
  | nil => rfl
  | cons name rest ih =>
    simp only [List.cons_append, redeclared, ih, List.map_cons, declared_cons,
      List.append_assoc]

/-- Globals may be declared again. -/
theorem redeclared_global (names : List Name) : redeclared [] names = [] := by
  induction names with
  | nil => rfl
  | cons name rest ih => simpa [redeclared, stateOf, marked] using ih

/-- In a local scope the errors are for the names that are repeated. -/
theorem redeclared_local {top : Names} {earlier : List String} (outer : List Names)
    (same : ∀ text, top[text]?.isSome = true ↔ text ∈ earlier) (names : List Name) :
    redeclared (top :: outer) names = (repeated earlier names).map redeclaration := by
  induction names generalizing top earlier with
  | nil => rfl
  | cons name rest ih =>
    have here : (stateOf name.text (top :: outer)).isSome = true ↔ name.text ∈ earlier :=
      same name.text
    -- behind the first name, the scope has it in addition to the earlier ones
    have behind (text : String) :
        (top.insert name.text true)[text]?.isSome = true ↔ text ∈ name.text :: earlier := by
      rw [Std.ExtTreeMap.getElem?_insert, List.mem_cons, ← same text]
      by_cases this : name.text = text
      · simp [this]
      · simp [this, Ne.symm this]
    rw [redeclared, repeated, List.map_append, marked, ih behind]
    congr 1
    by_cases known : name.text ∈ earlier
    · simp [known, here.mpr known]
    · simp [known, mt here.mp known]

/-- A scope that is entered reports the names that are repeated in it. -/
theorem redeclared_enter (around : Surroundings) (scopes : List Names) (names : List Name) :
    redeclared (∅ :: scopes) names = misusesOf around (.scope names) :=
  redeclared_local scopes (fun text => by simp) names

/-- The error of a declaration is that its scope has the name. -/
theorem errors_declare (w : Walk) (name : Name) :
    (w.declare name).errors = w.errors ++ redeclared w.scopes [name] := by
  rw [declare, errors_require, errors_mark]
  show _ ++ forbid (!(stateOf name.text w.scopes).isNone) _ _ _ = _
  cases state : stateOf name.text w.scopes <;>
    simp [redeclared, state, forbid, redeclaration]

theorem errors_declareDefined (w : Walk) (name : Name) :
    (w.declareDefined name).errors = w.errors ++ redeclared w.scopes [name] := by
  rw [declareDefined, errors_define, errors_declare]

/-- The errors of parameters are those of declaring one after the other. -/
theorem errors_parameters (w : Walk) (names : List Name) :
    (names.foldl declareDefined w).errors = w.errors ++ redeclared w.scopes names := by
  induction names generalizing w with
  | nil => simp [redeclared]
  | cons name rest ih =>
    rw [List.foldl_cons, ih, errors_declareDefined, scopes_declareDefined, List.append_assoc]
    congr 1
    simp [redeclared]

/-- The errors of a superclass are that it is the class itself, and those of reading a variable.
-/
theorem errors_superclass {around : Surroundings} {w : Walk} (fits : Fits around w.scopes)
    (name : Name) (superclass : Occurrence) :
    (w.superclass name superclass).errors =
      w.errors ++ (misusesOf around (.inherits name superclass.name) ++
        misusesOf around (.read superclass.name)) := by
  have requirement : (!(superclass.name.text != name.text)) =
      (superclass.name.text == name.text) := by
    simp [bne]
  have fits' : Fits around (w.require (superclass.name.text != name.text) superclass.name.line
      superclass.name.text .inheritsItself).scopes := by
    rwa [scopes_require]
  rw [Walk.superclass, errors_define, errors_enter, errors_read fits',
    errors_require, List.append_assoc, requirement]
  rfl

/-- What a function context says about a `return`. -/
theorem errors_return (around : Surroundings) (w : Walk) (line : Nat) :
    (w.require ((contextOf around).function != .none) line "return" .returnAtTop).errors =
      w.errors ++ misusesOf around (.return line false) ∧
    ((w.require ((contextOf around).function != .none) line "return" .returnAtTop).require
        ((contextOf around).function != .initializer) line "return"
        .returnFromInitializer).errors =
      w.errors ++ misusesOf around (.return line true) := by
  simp only [errors_require, List.append_assoc, misusesOf, contextOf, functionContext]
  rcases innermostFunction?_cases around with top | function | ⟨name, method⟩
  · simp [top, forbid]
  · simp [function, forbid]
  · simp only [method]
    by_cases isInit : name = initializerName <;> simp [isInit, forbid]

/-- The error of `this` is that no class is around. -/
theorem errors_this {around : Surroundings} (w : Walk) (id : NodeId) (line : Nat) :
    (w.expression (contextOf around) (.this id line)).errors =
      w.errors ++ misusesOf around (.this line) := by
  simp only [Walk.expression, contextOf, classContext, misusesOf]
  rcases innermostClass?_cases around with none | plain | derived
  · simp [none, forbid, error]
  · simp [plain, forbid]
  · simp [derived, forbid]

/-- The error of `super` is that no class with a superclass is around. -/
theorem errors_super {around : Surroundings} (w : Walk) (id : NodeId) (line : Nat)
    (method : Name) :
    (w.expression (contextOf around) (.super id line method)).errors =
      w.errors ++ misusesOf around (.super line) := by
  simp only [Walk.expression, contextOf, classContext, misusesOf]
  rcases innermostClass?_cases around with none | plain | derived
  · simp [none, error]
  · simp [plain, forbid, error]
  · simp [derived, forbid]

/-! ## What pieces add

The errors of a piece come in the order of the walk, which reports a name where it is
declared; the places of the piece come scope by scope. So they are compared as
multisets. -/

/-- The errors of a walk, in any order. -/
def Walk.found (w : Walk) : Multiset BindingError := w.errors

theorem found_of_errors {before after : Walk} {new : List BindingError}
    (errors : after.errors = before.errors ++ new) :
    after.found = before.found + new := by
  rw [found, errors, found, Multiset.coe_add]

theorem coe_misusesAt_append (first second : List Site) :
    (misusesAt (first ++ second) : Multiset BindingError) =
      misusesAt first + misusesAt second := by
  rw [misusesAt_append, Multiset.coe_add]

mutual

/-- The errors that are found in an expression are the misuses at its places, in whatever order
the walk comes to them. -/
theorem found_expression {around : Surroundings} (e : Expr) (w : Walk)
    (fits : Fits around w.scopes) :
    (w.expression (contextOf around) e).found = w.found + misusesAt (e.sites around) := by
  cases e with
  | literal value => simp [Walk.expression, Expr.sites]
  | group inner => exact found_expression inner w fits
  | unary op line operand => exact found_expression operand w fits
  | binary op line left right =>
    rw [Walk.expression, found_expression right _ (by simpa), found_expression left w fits,
      Expr.sites, coe_misusesAt_append, add_assoc]
  | logical op left right =>
    rw [Walk.expression, found_expression right _ (by simpa), found_expression left w fits,
      Expr.sites, coe_misusesAt_append, add_assoc]
  | «variable» occurrence =>
    rw [Expr.sites, misusesAt_cons, misusesAt_nil, List.append_nil]
    exact found_of_errors (errors_read fits occurrence)
  | assign target value =>
    rw [Walk.expression, found, errors_note]
    exact found_expression value w fits
  | call callee line arguments =>
    rw [Walk.expression, found_expressions arguments _ (by simpa),
      found_expression callee w fits, Expr.sites, coe_misusesAt_append, add_assoc]
  | get object name => exact found_expression object w fits
  | set object name value =>
    -- the value is visited before the object
    rw [Walk.expression, found_expression object _ (by simpa), found_expression value w fits,
      Expr.sites, coe_misusesAt_append]
    abel
  | this id line =>
    rw [Expr.sites, misusesAt_cons, misusesAt_nil, List.append_nil]
    exact found_of_errors (errors_this w id line)
  | super id line method =>
    rw [Expr.sites, misusesAt_cons, misusesAt_nil, List.append_nil]
    exact found_of_errors (errors_super w id line method)

/-- The same of expressions in a row. -/
theorem found_expressions {around : Surroundings} (es : List Expr) (w : Walk)
    (fits : Fits around w.scopes) :
    (w.expressions (contextOf around) es).found =
      w.found + misusesAt (Expr.sitesOfAll around es) := by
  cases es with
  | nil => simp [Walk.expressions, Expr.sitesOfAll]
  | cons e rest =>
    rw [Walk.expressions, found_expressions rest _ (by simpa), found_expression e w fits,
      Expr.sitesOfAll, coe_misusesAt_append, add_assoc]

end

theorem found_expression? {around : Surroundings} (e : Option Expr) (w : Walk)
    (fits : Fits around w.scopes) :
    (w.expression? (contextOf around) e).found =
      w.found + misusesAt (Expr.sitesOf? around e) := by
  cases e with
  | none => simp [Walk.expression?, Expr.sitesOf?]
  | some e => exact found_expression e w fits

mutual

/-- The names that a statement declares, as texts. -/
theorem declarations_text (s : Stmt) : s.declarations.map Name.text = s.declares := by
  cases s with
  | branch condition yes no =>
    cases no with
    | none => exact declarations_text yes
    | some no =>
      rw [Stmt.declarations, Stmt.declares, List.map_append, declarations_text yes,
        declarations_text no]
  | loop condition body increment => exact declarations_text body
  | _ => rfl

end

section found

variable (w : Walk)

@[simp] theorem found_enter : w.enter.found = w.found := rfl

@[simp] theorem found_leave : w.leave.found = w.found := rfl

@[simp] theorem found_define (text : String) : (w.define text).found = w.found := by
  simp [found]

theorem found_declare (name : Name) :
    (w.declare name).found = w.found + redeclared w.scopes [name] :=
  found_of_errors (errors_declare w name)

theorem found_declareDefined (name : Name) :
    (w.declareDefined name).found = w.found + redeclared w.scopes [name] :=
  found_of_errors (errors_declareDefined w name)

theorem found_parameters (names : List Name) :
    (names.foldl declareDefined w).found = w.found + redeclared w.scopes names :=
  found_of_errors (errors_parameters w names)

/-- The errors of declarations one after the other, however they are ordered. -/
theorem found_redeclared_append (scopes : List Names) (first second : List Name) :
    (redeclared scopes (first ++ second) : Multiset BindingError) =
      redeclared scopes first + redeclared (declared (first.map Name.text) scopes) second := by
  rw [redeclared_append, Multiset.coe_add]

end found

mutual

/-- A statement adds the names that it declares again and what is wrong at its places. -/
theorem found_statement {around : Surroundings} (s : Stmt) (w : Walk) (idle : Idle around)
    (fits : Fits around w.scopes) :
    (w.statement (contextOf around) s).found =
      w.found + (redeclared w.scopes s.declarations + misusesAt (s.sites around)) := by
  cases s with
  | expression e =>
    simpa [redeclared, Stmt.declarations, Walk.statement, Stmt.sites] using
      found_expression e w fits
  | print e =>
    simpa [redeclared, Stmt.declarations, Walk.statement, Stmt.sites] using
      found_expression e w fits
  | var name initializer =>
    -- the initializer is read with the name declared and not yet defined
    have inside := fits.initializer idle name.text
    rw [Walk.statement, found_define, ← contextOf_initializer,
      found_expression? _ _ (by simpa), found_declare, add_assoc]
    rfl
  | block body =>
    -- the declarations of the block count as new in the empty scope it opens
    have fits' : Fits (.block :: around) w.enter.scopes := Fits.enter idle .block rfl w.scopes
    rw [Walk.statement, found_leave, ← contextOf_block,
      found_statements body w.enter (idle.enter .block rfl) fits', found_enter, scopes_enter,
      redeclared_enter around]
    simp [Stmt.sites, Stmt.declarations, redeclared]
  | branch condition yes no =>
    have fitsYes : Fits around (w.expression (contextOf around) condition).scopes := by
      simpa
    cases no with
    | none =>
      rw [Walk.statement, found_statement yes _ idle fitsYes,
        found_expression condition w fits, scopes_expression, Stmt.sites, Stmt.declarations,
        coe_misusesAt_append]
      abel
    | some no =>
      -- the else part is walked after whatever the other part declared
      have fitsNo := fitsYes.declared idle yes.declares
      rw [Walk.statement, found_statement no _ idle (by simpa [scopes_statement] using fitsNo),
        found_statement yes _ idle fitsYes, found_expression condition w fits,
        scopes_statement, scopes_expression, Stmt.sites, Stmt.declarations,
        coe_misusesAt_append, coe_misusesAt_append, found_redeclared_append,
        declarations_text]
      abel
  | loop condition body increment =>
    -- the increment is walked after the body, though it stands outside of it
    have fitsBody : Fits around (w.expression (contextOf around) condition).scopes := by
      simpa
    obtain ⟨idle', fits'⟩ := fitsBody.loop idle
    rw [Walk.statement, ← contextOf_loop,
      found_expression? _ _ (by simpa [scopes_statement] using fits.declared idle _),
      found_statement body _ idle' fits', found_expression condition w fits,
      scopes_expression, Stmt.sites, Stmt.declarations, coe_misusesAt_append,
      coe_misusesAt_append]
    abel
  | function declaration =>
    have idle' := idle.enter .function rfl
    rw [Walk.statement, ← contextOf_function, found_function declaration _ idle' rfl,
      found_declareDefined, add_assoc]
    rfl
  | «return» line value =>
    obtain ⟨bare, valued⟩ := errors_return around w line
    cases value with
    | none =>
      rw [Walk.statement, found_of_errors bare]
      simp [Stmt.sites, Stmt.declarations, redeclared, Expr.sitesOf?]
    | some value =>
      rw [Walk.statement, found_expression value _ (by simpa), found_of_errors valued]
      simp [Stmt.sites, Stmt.declarations, redeclared, Expr.sitesOf?, ← Multiset.coe_add,
        add_assoc]
  | «break» line =>
    rw [Walk.statement, found_of_errors (errors_require ..)]
    simp [Stmt.sites, Stmt.declarations, redeclared, misusesOf, contextOf]
  | «continue» line =>
    rw [Walk.statement, found_of_errors (errors_require ..)]
    simp [Stmt.sites, Stmt.declarations, redeclared, misusesOf, contextOf]
  | classDecl name superclass methods =>
    cases superclass with
    | none =>
      have idle' := idle.enter (.classBody false) rfl
      have context := contextOf_class around false
      simp only [Bool.false_eq_true, if_false] at context
      rw [Walk.statement, found_leave, ← context, found_methods methods _ idle', found_define,
        found_enter, found_declareDefined, add_assoc]
      rfl
    | some superclass =>
      have idle' := idle.enter (.classBody true) rfl
      have context := contextOf_class around true
      simp only [if_true] at context
      -- the superclass name is read right after the class name is defined
      have reads := errors_superclass (w := w.declareDefined name)
        (by simpa using fits.marked idle name.text) name superclass
      rw [Walk.statement, found_leave, found_leave, ← context,
        found_methods methods _ idle', found_define, found_enter, found_of_errors reads,
        found_declareDefined]
      simp [Stmt.sites, Stmt.declarations, ← Multiset.coe_add, add_assoc]

/-- In statements in a row, the errors of their declarations and the misuses at their places are
found. -/
theorem found_statements {around : Surroundings} (ss : List Stmt) (w : Walk)
    (idle : Idle around) (fits : Fits around w.scopes) :
    (w.statements (contextOf around) ss).found =
      w.found + (redeclared w.scopes (Stmt.declarationsOfAll ss) +
        misusesAt (Stmt.sitesOfAll around ss)) := by
  cases ss with
  | nil => simp [Walk.statements, Stmt.declarationsOfAll, redeclared, Stmt.sitesOfAll]
  | cons s rest =>
    have fits' := fits.declared idle s.declares
    rw [Walk.statements, found_statements rest _ idle (by simpa [scopes_statement]),
      found_statement s w idle fits, scopes_statement, Stmt.sitesOfAll,
      coe_misusesAt_append, Stmt.declarationsOfAll_cons, found_redeclared_append,
      declarations_text]
    abel

/-- A function adds what is wrong at its places. Its scope is one of them. -/
theorem found_function {around : Surroundings} (d : FunctionDecl) (w : Walk)
    (idle : Idle around) (inside : Surroundings.isLocal around = true) :
    (w.function (contextOf around) d).found = w.found + misusesAt (d.sites around) := by
  obtain ⟨name, parameters, body⟩ := d
  have fits : Fits around (parameters.foldl declareDefined w.enter).scopes := by
    rw [scopes_declareDefined_foldl]
    exact (Fits.enterAgain idle inside).declared idle _
  rw [Walk.function, found_leave, found_statements body _ idle fits, found_parameters,
    scopes_declareDefined_foldl, found_enter, scopes_enter, FunctionDecl.sites,
    misusesAt_cons, ← redeclared_enter around w.scopes, ← Multiset.coe_add,
    found_redeclared_append]
  abel

/-- Methods declare no names, so only the misuses at their places are found. -/
theorem found_methods {around : Surroundings} (ds : List FunctionDecl) (w : Walk)
    (idle : Idle around) :
    (w.methods (contextOf around) ds).found =
      w.found + misusesAt (FunctionDecl.sitesOfAll around ds) := by
  cases ds with
  | nil => simp [Walk.methods, FunctionDecl.sitesOfAll]
  | cons d rest =>
    have idle' := idle.enter (.method d.name.text) rfl
    rw [Walk.methods, found_methods rest _ idle, ← contextOf_method,
      found_function d w idle' rfl, FunctionDecl.sitesOfAll, coe_misusesAt_append, add_assoc]

end

/-- The errors of the walk over a program are what is wrong at the program's places. -/
theorem errors_program (program : Program) :
    (Walk.start.statements .top program).errors.Perm (misuses program) := by
  have found := found_statements program .start (fun _ => rfl) Fits.start
  rw [← Multiset.coe_eq_coe]
  calc ((Walk.start.statements .top program).errors : Multiset BindingError)
    _ = Walk.start.found + (redeclared [] (Stmt.declarationsOfAll program) +
        misusesAt (Stmt.sitesOfAll [] program)) := found
    _ = misuses program := by
      rw [redeclared_global]
      simp [Walk.found, Walk.start, misuses]

/-- Resolution succeeds where nothing is wrong, and otherwise reports everything that is
wrong, each misuse once. -/
theorem resolution_reports_misuses (program : Program) :
    ((∃ locals, ofProgram program = .ok locals) ↔ misuses program = []) ∧
      ∀ errors, ofProgram program = .error errors → errors.Perm (misuses program) := by
  have all := errors_program program
  constructor
  · constructor
    -- accepted means that the walk collected nothing, and what it collects is the list of misuses
    · rintro ⟨locals, accepted⟩
      have none : (Walk.start.statements .top program).errors = [] := (conclude_iff.mp accepted).1
      rw [none] at all
      exact all.nil_eq.symm
    · intro none
      rw [none] at all
      exact ⟨_, conclude_iff.mpr ⟨all.eq_nil, rfl⟩⟩
  · intro errors rejected
    unfold ofProgram conclude at rejected
    split at rejected
    · cases rejected
    · cases rejected
      exact all

end ClassScript.Binding
