import ClassScript.Binding.Resolution
import ClassScript.Proofs.Syntax.Plain

/-!
# What a walk changes

A walk over an expression leaves the scopes as they were, and one over a statement
adds the names that the statement declares to the innermost scope
(`scopes_statement`). Errors are only added, and the table changes only at the
occurrences of the piece that is walked over (`notes_statement`).
-/

namespace ClassScript.Binding

open Syntax

/-- The scopes with the state of a name set in the innermost one. -/
def marked (text : String) (isDefined : Bool) : List Names → List Names
  | [] => []
  | names :: outer => names.insert text isDefined :: outer

/-- The scopes with names defined in the innermost one. -/
def declared (texts : List String) (scopes : List Names) : List Names :=
  texts.foldl (fun scopes text => marked text true scopes) scopes

/-- Of two marks of a name, the second one counts. -/
theorem marked_marked (text : String) (first second : Bool) (scopes : List Names) :
    marked text second (marked text first scopes) = marked text second scopes := by
  cases scopes with
  | nil => rfl
  | cons names outer =>
    simp only [marked, List.cons.injEq, and_true]
    apply Std.ExtTreeMap.ext_getElem?
    intro other
    simp only [Std.ExtTreeMap.getElem?_insert]
    split <;> rfl

@[simp] theorem marked_tail (text : String) (isDefined : Bool) (scopes : List Names) :
    (marked text isDefined scopes).tail = scopes.tail := by
  cases scopes <;> rfl

@[simp] theorem marked_length (text : String) (isDefined : Bool) (scopes : List Names) :
    (marked text isDefined scopes).length = scopes.length := by
  cases scopes <;> rfl

@[simp] theorem declared_nil (scopes : List Names) : declared [] scopes = scopes := rfl

theorem declared_cons (text : String) (rest : List String) (scopes : List Names) :
    declared (text :: rest) scopes = declared rest (marked text true scopes) := rfl

theorem declared_append (first second : List String) (scopes : List Names) :
    declared (first ++ second) scopes = declared second (declared first scopes) :=
  List.foldl_append

@[simp] theorem declared_tail (texts : List String) (scopes : List Names) :
    (declared texts scopes).tail = scopes.tail := by
  induction texts generalizing scopes with
  | nil => rfl
  | cons text rest ih => rw [declared_cons, ih, marked_tail]

@[simp] theorem declared_length (texts : List String) (scopes : List Names) :
    (declared texts scopes).length = scopes.length := by
  induction texts generalizing scopes with
  | nil => rfl
  | cons text rest ih => rw [declared_cons, ih, marked_length]

/-- Names are declared in the innermost scope. -/
theorem declared_cons_scopes (texts : List String) (names : Names) (outer : List Names) :
    declared texts (names :: outer) =
      texts.foldl (fun names text => names.insert text true) names :: outer := by
  induction texts generalizing names with
  | nil => rfl
  | cons text rest ih => rw [declared_cons, marked, ih]; rfl

/-- The state of a name behind declarations. -/
theorem getElem?_foldl_insert (texts : List String) (names : Names) (name : String) :
    (texts.foldl (fun names text => names.insert text true) names)[name]? =
      if name ∈ texts then some true else names[name]? := by
  induction texts generalizing names with
  | nil => simp
  | cons text rest ih =>
    rw [List.foldl_cons, ih, Std.ExtTreeMap.getElem?_insert]
    by_cases later : name ∈ rest
    · simp [later]
    · by_cases here : text = name
      · simp [here]
      · have : name ≠ text := fun same => here same.symm
        simp [later, here, this]

namespace Walk

variable (w : Walk)

/-! ## Single steps -/

@[simp] theorem scopes_error (line : Nat) (lexeme : String) (cause : BindingCause) :
    (w.error line lexeme cause).scopes = w.scopes := rfl

@[simp] theorem locals_error (line : Nat) (lexeme : String) (cause : BindingCause) :
    (w.error line lexeme cause).locals = w.locals := rfl

@[simp] theorem scopes_require (holds : Bool) (line : Nat) (lexeme : String)
    (cause : BindingCause) : (w.require holds line lexeme cause).scopes = w.scopes := by
  unfold require
  split <;> rfl

@[simp] theorem locals_require (holds : Bool) (line : Nat) (lexeme : String)
    (cause : BindingCause) : (w.require holds line lexeme cause).locals = w.locals := by
  unfold require
  split <;> rfl

@[simp] theorem scopes_enter : w.enter.scopes = ∅ :: w.scopes := rfl

@[simp] theorem scopes_leave : w.leave.scopes = w.scopes.tail := rfl

@[simp] theorem locals_enter : w.enter.locals = w.locals := rfl

@[simp] theorem locals_leave : w.leave.locals = w.locals := rfl

@[simp] theorem errors_enter : w.enter.errors = w.errors := rfl

@[simp] theorem errors_leave : w.leave.errors = w.errors := rfl

@[simp] theorem scopes_mark (text : String) (isDefined : Bool) :
    (w.mark text isDefined).scopes = marked text isDefined w.scopes := by
  unfold mark marked
  split <;> rename_i shape <;> simp [shape]

@[simp] theorem locals_mark (text : String) (isDefined : Bool) :
    (w.mark text isDefined).locals = w.locals := by
  unfold mark
  split <;> rfl

@[simp] theorem errors_mark (text : String) (isDefined : Bool) :
    (w.mark text isDefined).errors = w.errors := by
  unfold mark
  split <;> rfl

@[simp] theorem scopes_declare (name : Name) :
    (w.declare name).scopes = marked name.text false w.scopes := by
  simp [declare]

@[simp] theorem locals_declare (name : Name) : (w.declare name).locals = w.locals := by
  simp [declare]

@[simp] theorem scopes_define (text : String) :
    (w.define text).scopes = marked text true w.scopes := by
  simp [define]

@[simp] theorem locals_define (text : String) : (w.define text).locals = w.locals := by
  simp [define]

@[simp] theorem errors_define (text : String) : (w.define text).errors = w.errors := by
  simp [define]

@[simp] theorem scopes_declareDefined (name : Name) :
    (w.declareDefined name).scopes = marked name.text true w.scopes := by
  simp [declareDefined, marked_marked]

@[simp] theorem locals_declareDefined (name : Name) :
    (w.declareDefined name).locals = w.locals := by
  simp [declareDefined]

@[simp] theorem scopes_note (id : NodeId) (text : String) :
    (w.note id text).scopes = w.scopes := by
  unfold note
  split <;> rfl

@[simp] theorem errors_note (id : NodeId) (text : String) :
    (w.note id text).errors = w.errors := by
  unfold note
  split <;> rfl

/-- An occurrence that the table does not have yet gets the depth of its name. -/
theorem depth?_note {id : NodeId} {text : String} (fresh : w.locals.depth? id = none) :
    (w.note id text).locals.depth? id = w.depth? text := by
  unfold note
  split
  · next depth found => simp [Locals.depth?_insert, found]
  · next missing => rw [fresh, missing]

/-- To note a depth changes nothing for other occurrences. -/
theorem depth?_note_of_ne {id other : NodeId} (text : String) (differ : other ≠ id) :
    (w.note id text).locals.depth? other = w.locals.depth? other := by
  unfold note
  split
  · simp [Locals.depth?_insert, differ.symm]
  · rfl

/-- A read gives its occurrence the depth of its name. -/
theorem depth?_read {occurrence : Occurrence}
    (fresh : w.locals.depth? occurrence.id = none) :
    (w.read occurrence).locals.depth? occurrence.id = w.depth? occurrence.name.text := by
  rw [read, depth?_note]
  · simp [depth?]
  · simpa using fresh

@[simp] theorem scopes_read (occurrence : Occurrence) :
    (w.read occurrence).scopes = w.scopes := by
  simp [read]

variable {w}

/-- Where no error was noted, the requirement held. -/
theorem require_accepted {holds : Bool} {line : Nat} {lexeme : String}
    {cause : BindingCause} (none : (w.require holds line lexeme cause).errors = []) :
    holds = true := by
  unfold require at none
  split at none
  · next h => exact h
  · simp [error] at none

/-- A variable that is read without an error is not about to be defined. -/
theorem read_accepted {occurrence : Occurrence} (none : (w.read occurrence).errors = []) :
    w.innermost? occurrence.name.text ≠ some false := by
  rw [read, errors_note] at none
  simpa using require_accepted none

/-- A name that is declared without an error is new in its scope. -/
theorem declare_accepted {name : Name} (none : (w.declare name).errors = []) :
    w.innermost? name.text = Option.none := by
  simpa using require_accepted none

variable (w)

/-! ## Scopes -/

mutual

/-- An expression leaves the scopes as they were. -/
@[simp] theorem scopes_expression (context : Context) (e : Expr) (w : Walk) :
    (w.expression context e).scopes = w.scopes := by
  cases e with
  | literal value => rfl
  | group inner => exact scopes_expression context inner w
  | unary op line operand => exact scopes_expression context operand w
  | binary op line left right =>
    rw [expression, scopes_expression, scopes_expression]
  | logical op left right =>
    rw [expression, scopes_expression, scopes_expression]
  | «variable» occurrence => exact w.scopes_read occurrence
  -- a note goes to the table and the errors leave the scopes as they are
  | assign target value => rw [expression, scopes_note, scopes_expression]
  | call callee line arguments =>
    rw [expression, scopes_expressions, scopes_expression]
  | get object name => exact scopes_expression context object w
  | set object name value => rw [expression, scopes_expression, scopes_expression]
  | this id line =>
    rw [expression]
    split <;> simp
  | super id line method =>
    rw [expression]
    split <;> simp

@[simp] theorem scopes_expressions (context : Context) (es : List Expr) (w : Walk) :
    (w.expressions context es).scopes = w.scopes := by
  cases es with
  | nil => rfl
  | cons e rest => rw [expressions, scopes_expressions, scopes_expression]

end

@[simp] theorem scopes_expression? (context : Context) (e : Option Expr) :
    (w.expression? context e).scopes = w.scopes := by
  cases e with
  | none => rfl
  | some e => exact scopes_expression context e w

@[simp] theorem scopes_superclass (name : Name) (superclass : Occurrence) :
    (w.superclass name superclass).scopes = marked "super" true (∅ :: w.scopes) := by
  simp [Walk.superclass]

theorem scopes_declareDefined_foldl (names : List Name) :
    (names.foldl declareDefined w).scopes = declared (names.map Name.text) w.scopes := by
  induction names generalizing w with
  | nil => rfl
  | cons name rest ih =>
    simp only [List.foldl_cons, List.map_cons, declared_cons, ih, scopes_declareDefined]

mutual

/-- A statement leaves the scopes with the names that it declares, and closes those that it
opens. -/
theorem scopes_statement (context : Context) (s : Stmt) (w : Walk) :
    (w.statement context s).scopes = declared s.declares w.scopes := by
  cases s with
  | expression e => exact scopes_expression context e w
  | print e => exact scopes_expression context e w
  | var name initializer =>
    simp [statement, Stmt.declares, declared_cons, marked_marked]
  | block body =>
    simp [statement, Stmt.declares, scopes_statements context body]
  | branch condition yes no =>
    cases no with
    | none => rw [statement, scopes_statement context yes, scopes_expression]; rfl
    | some no =>
      rw [statement, scopes_statement context no, scopes_statement context yes,
        scopes_expression, ← declared_append]
      rfl
  | loop condition body increment =>
    -- the increment is visited last and declares nothing
    rw [statement, scopes_expression?, scopes_statement _ body, scopes_expression]
    rfl
  | function declaration =>
    rw [statement, scopes_function _ declaration, scopes_declareDefined]
    rfl
  | «return» line value =>
    cases value <;> simp [statement, Stmt.declares]
  | «break» line => exact w.scopes_require ..
  | «continue» line => exact w.scopes_require ..
  | classDecl name superclass methods =>
    cases superclass <;>
      simp [statement, Stmt.declares, declared_cons, scopes_methods _ methods, marked]

/-- So do statements in a row, one after the other. -/
theorem scopes_statements (context : Context) (ss : List Stmt) (w : Walk) :
    (w.statements context ss).scopes = declared (Stmt.declaresAll ss) w.scopes := by
  cases ss with
  | nil => rfl
  | cons s rest =>
    rw [statements, scopes_statements context rest, scopes_statement context s,
      ← declared_append]
    rfl

/-- A function closes its scope, and its name is declared by the statement around it. -/
theorem scopes_function (context : Context) (d : FunctionDecl) (w : Walk) :
    (w.function context d).scopes = w.scopes := by
  obtain ⟨name, parameters, body⟩ := d
  simp [function, scopes_statements context body, scopes_declareDefined_foldl]

theorem scopes_methods (context : Context) (ds : List FunctionDecl) (w : Walk) :
    (w.methods context ds).scopes = w.scopes := by
  cases ds with
  | nil => rfl
  | cons d rest =>
    rw [methods, scopes_methods context rest, scopes_function _ d]

end

/-! ## Errors and the table -/

/-- `after` comes from `before` by noting errors and the given occurrences. -/
structure Notes (ids : List NodeId) (before after : Walk) : Prop where
  errors : before.errors <+: after.errors
  locals : ∀ id ∉ ids, after.locals.depth? id = before.locals.depth? id

namespace Notes

variable {ids more : List NodeId} {a b c : Walk}

theorem refl (a : Walk) : Notes [] a a := ⟨List.prefix_rfl, fun _ _ => rfl⟩

/-- What two walks note one after the other, they note together. -/
theorem trans (first : Notes ids a b) (second : Notes more b c) : Notes (ids ++ more) a c where
  errors := first.errors.trans second.errors
  locals id outside := by
    rw [List.mem_append, not_or] at outside
    rw [second.locals id outside.2, first.locals id outside.1]

/-- A step that changes neither the errors nor the table. -/
theorem quiet (errors : b.errors = a.errors) (locals : b.locals = a.locals) :
    Notes [] a b :=
  ⟨errors ▸ List.prefix_rfl, fun _ _ => by rw [locals]⟩

/-- A new scope is neither an error nor an occurrence. -/
theorem of_enter (h : Notes ids a.enter b) : Notes ids a b := ⟨h.errors, h.locals⟩

/-- What happens in a scope of its own. -/
theorem enclose (h : Notes ids a.enter b) : Notes ids a b.leave :=
  ⟨h.errors, h.locals⟩

/-- A walk that ends without errors was without them before. -/
theorem accepted (h : Notes ids a b) (none : b.errors = []) : a.errors = [] :=
  List.prefix_nil.mp (none ▸ h.errors)

end Notes

theorem notes_require (holds : Bool) (line : Nat) (lexeme : String) (cause : BindingCause) :
    Notes [] w (w.require holds line lexeme cause) := by
  unfold require
  split
  · exact .refl w
  · exact ⟨List.prefix_append .., fun _ _ => rfl⟩

theorem notes_error (line : Nat) (lexeme : String) (cause : BindingCause) :
    Notes [] w (w.error line lexeme cause) :=
  ⟨List.prefix_append .., fun _ _ => rfl⟩

theorem notes_note (id : NodeId) (text : String) : Notes [id] w (w.note id text) :=
  ⟨by simp, fun other outside => w.depth?_note_of_ne text (List.ne_of_not_mem_cons outside)⟩

theorem notes_declare (name : Name) : Notes [] w (w.declare name) :=
  ((Notes.quiet (by simp) (by simp) : Notes [] w (w.mark name.text false)).trans
    (notes_require ..))

theorem notes_define (text : String) : Notes [] w (w.define text) :=
  .quiet (by simp) (by simp)

theorem notes_declareDefined (name : Name) : Notes [] w (w.declareDefined name) :=
  (notes_declare w name).trans (notes_define ..)

theorem notes_read (occurrence : Occurrence) :
    Notes [occurrence.id] w (w.read occurrence) :=
  (notes_require ..).trans (notes_note ..)

mutual

/-- A walk through an expression notes depths for its occurrences only. -/
theorem notes_expression (context : Context) (e : Expr) (w : Walk) :
    Notes e.ids w (w.expression context e) := by
  cases e with
  | literal value => exact .refl w
  | group inner => exact notes_expression context inner w
  | unary op line operand => exact notes_expression context operand w
  | binary op line left right =>
    exact (notes_expression context left w).trans (notes_expression context right _)
  | logical op left right =>
    exact (notes_expression context left w).trans (notes_expression context right _)
  | «variable» occurrence => exact notes_read w occurrence
  | assign target value =>
    exact (notes_expression context value w).trans (notes_note ..)
  | call callee line arguments =>
    exact (notes_expression context callee w).trans (notes_expressions context arguments _)
  | get object name => exact notes_expression context object w
  | set object name value =>
    -- the value of a property write is walked before its object
    exact (notes_expression context value w).trans (notes_expression context object _)
  | this id line =>
    rw [expression]
    split
    · exact ⟨List.prefix_append .., fun _ _ => rfl⟩
    · exact notes_note w id "this"
  -- also a misplaced super is noted, after its error
  | super id line method =>
    rw [expression]
    split
    · exact (notes_error w ..).trans (notes_note _ id "super")
    · exact (notes_error w ..).trans (notes_note _ id "super")
    · exact notes_note w id "super"

theorem notes_expressions (context : Context) (es : List Expr) (w : Walk) :
    Notes (Expr.idsOfAll es) w (w.expressions context es) := by
  cases es with
  | nil => exact .refl w
  | cons e rest =>
    exact (notes_expression context e w).trans (notes_expressions context rest _)

end

theorem notes_expression? (context : Context) (e : Option Expr) :
    Notes (Expr.idsOf? e) w (w.expression? context e) := by
  cases e with
  | none => exact .refl w
  | some e => exact notes_expression context e w

theorem notes_superclass (name : Name) (superclass : Occurrence) :
    Notes [superclass.id] w (w.superclass name superclass) :=
  have named := (notes_require w (superclass.name.text != name.text) superclass.name.line
    superclass.name.text .inheritsItself).trans (notes_read _ superclass)
  ⟨by simpa [Walk.superclass] using named.errors,
    fun id outside => by simpa [Walk.superclass] using named.locals id outside⟩

theorem notes_declareDefined_foldl (names : List Name) :
    Notes [] w (names.foldl declareDefined w) := by
  induction names generalizing w with
  | nil => exact .refl w
  | cons name rest ih => exact (notes_declareDefined w name).trans (ih _)

mutual

/-- A walk through a statement notes depths for its occurrences only. -/
theorem notes_statement (context : Context) (s : Stmt) (w : Walk) :
    Notes s.ids w (w.statement context s) := by
  cases s with
  | expression e => exact notes_expression context e w
  | print e => exact notes_expression context e w
  | var name initializer =>
    have parts := ((notes_declare w name).trans (notes_expression? _ context initializer)).trans
      (notes_define _ name.text)
    rwa [List.append_nil] at parts
  | block body =>
    exact (notes_statements context body w.enter).enclose
  | branch condition yes no =>
    cases no with
    | none =>
      exact (notes_expression context condition w).trans (notes_statement context yes _)
    | some no =>
      exact (notes_expression context condition w).trans
        ((notes_statement context yes _).trans (notes_statement context no _))
  | loop condition body increment =>
    exact (notes_expression context condition w).trans
      ((notes_statement _ body _).trans (notes_expression? _ context increment))
  | function declaration =>
    exact (notes_declareDefined w declaration.name).trans (notes_function _ declaration _)
  | «return» line value =>
    cases value with
    | none => exact notes_require ..
    | some value =>
      exact ((notes_require ..).trans (notes_require ..)).trans
        (notes_expression context value _)
  | «break» line => exact notes_require ..
  | «continue» line => exact notes_require ..
  | classDecl name superclass methods =>
    cases superclass with
    | none =>
      exact (notes_declareDefined w name).trans
        ((notes_define _ "this").trans (notes_methods _ methods _)).enclose
    | some superclass =>
      -- two scopes are opened here, that of `super` around that of `this`
      let opened := (w.declareDefined name).superclass name superclass
      let inside : Context := { context with enclosing := .derived }
      have inner := ((notes_define opened.enter "this").trans
        (notes_methods inside methods _)).enclose
      have whole := (notes_declareDefined w name).trans
        ((notes_superclass _ name superclass).trans inner)
      -- leaving the outer one changes neither the errors nor the table
      exact ⟨whole.errors, whole.locals⟩

theorem notes_statements (context : Context) (ss : List Stmt) (w : Walk) :
    Notes (Stmt.idsOfAll ss) w (w.statements context ss) := by
  cases ss with
  | nil => exact .refl w
  | cons s rest =>
    exact (notes_statement context s w).trans (notes_statements context rest _)

theorem notes_function (context : Context) (d : FunctionDecl) (w : Walk) :
    Notes d.ids w (w.function context d) := by
  obtain ⟨name, parameters, body⟩ := d
  exact ((notes_declareDefined_foldl w.enter parameters).trans
    (notes_statements context body _)).enclose

theorem notes_methods (context : Context) (ds : List FunctionDecl) (w : Walk) :
    Notes (FunctionDecl.idsOfAll ds) w (w.methods context ds) := by
  cases ds with
  | nil => exact .refl w
  | cons d rest => exact (notes_function _ d w).trans (notes_methods context rest _)

end

/-- A row of statements is walked through part by part. -/
theorem statements_append (context : Context) (first second : List Stmt) (w : Walk) :
    w.statements context (first ++ second) =
      (w.statements context first).statements context second := by
  induction first generalizing w with
  | nil => rfl
  | cons s rest ih => exact ih (w.statement context s)

/-- A walk has a table if it found no error. -/
theorem conclude_iff {w : Walk} {locals : Locals} :
    w.conclude = .ok locals ↔ w.errors = [] ∧ w.locals = locals := by
  unfold conclude
  split
  · next none => simp [none]
  · next some => exact ⟨nofun, fun accepted => (some accepted.1).elim⟩

end Walk

end ClassScript.Binding
