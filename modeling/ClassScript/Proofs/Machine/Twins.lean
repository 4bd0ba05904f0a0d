import ClassScript.Machine.Evaluate
import ClassScript.Proofs.Machine.Frame
import ClassScript.Proofs.Machine.Respelled
import Mathlib.Data.List.Forall2

/-!
# Runs of respelled code

On twins, a program and its respelling go alike (`lockstep`): each step gives twins in a
world that has grown, or both stop with the same fault. There is one lemma for every step of
a run, and the induction is on the fuel, with one lemma for each function of the evaluator.
Faults may differ in the name that an internal one quotes.
-/

namespace ClassScript.Machine

open Syntax Object Binding Slots

/-- How computations end that go alike: with results that are related in a world that has
grown, or with the same fault, where internal faults all count as one. -/
inductive EndAlike {α β : Type} (σ : String → String) (table : Locals) (W : World)
    (current : ScopeId) (good : World → α → β → Prop) :
    EStateM.Result Stop State α → EStateM.Result Stop State β → Prop
  | ok {V : World} {a : α} {b : β} {m m' : State} (grows : W <+: V)
      (twins : Twins σ table V m m') (still : m.current = current) (holds : good V a b) :
      EndAlike σ table W current good (.ok a m) (.ok b m')
  | error {e e' : Stop} {m m' : State} (same : SameStop e e') (sink : m'.sink = m.sink) :
      EndAlike σ table W current good (.error e m) (.error e' m')

/-- On twins in the world, which stand in a scope with the flags, the computations go
alike. -/
def GoAlike {α β : Type} (σ : String → String) (table : Locals) (W : World) (flags : Flags)
    (x : Run α) (y : Run β) (good : World → α → β → Prop) : Prop :=
  ∀ m m', Twins σ table W m m' → W[m.current]? = some flags →
    EndAlike σ table W m.current good (x m) (y m')

variable {σ : String → String} {table : Locals} {V W : World} {flags : Flags}

namespace GoAlike

variable {α β α' β' : Type} {x : Run α} {y : Run β} {good : World → α → β → Prop}

/-- Values that correspond are given by runs that go alike. -/
theorem pure {a : α} {b : β} (holds : good W a b) :
    GoAlike σ table W flags (Pure.pure a) (Pure.pure b) good :=
  fun _ _ twins _ => .ok List.prefix_rfl twins rfl holds

/-- Runs go alike one after the other, where the second ones start in a larger world. -/
theorem bind {f : α → Run α'} {g : β → Run β'} {good' : World → α' → β' → Prop}
    (first : GoAlike σ table W flags x y good)
    (rest : ∀ V a b, W <+: V → good V a b → GoAlike σ table V flags (f a) (g b) good') :
    GoAlike σ table W flags (x >>= f) (y >>= g) good' := by
  intro m m' twins here
  have alike := first m m' twins here
  simp only [Bind.bind, EStateM.bind]
  generalize x m = r, y m' = r' at alike
  cases alike with
  | error same sink => exact .error same sink
  | @ok V a b n n' grows twins still holds =>
    -- the computation is back in its scope, which the larger world spells as before
    have alike := rest V a b grows holds n n' twins (still ▸ prefix_getElem? grows here)
    dsimp only
    generalize f a n = r, g b n' = r' at alike
    cases alike with
    | error same sink => exact .error same sink
    | ok grows' twins still' holds =>
      exact .ok (grows.trans grows') twins (still'.trans still) holds

/-- Two internal faults count as alike, since their texts tell of names. -/
theorem stop {fault fault' : Fault} (same : fault = fault' ∨ IsInternal fault ∧ IsInternal fault') :
    GoAlike σ table W flags (stop fault : Run α) (Machine.stop fault' : Run β) good :=
  fun _ _ twins _ => .error same twins.sink

theorem outOfFuel :
    GoAlike σ table W flags (throw .outOfFuel : Run α) (throw .outOfFuel : Run β) good :=
  fun _ _ twins _ => .error trivial twins.sink

/-- In another scope, on both sides. -/
theorem within {scope : ScopeId} {inner : Flags} (there : W[scope]? = some inner)
    (h : GoAlike σ table W inner x y good) :
    GoAlike σ table W flags (within scope x) (within scope y) good := by
  intro m m' twins here
  have alike := h { m with current := scope } { m' with current := scope }
    (twins.setCurrent scope) there
  simp only [Machine.within, twins.current]
  generalize x { m with current := scope } = r, y { m' with current := scope } = r' at alike
  cases alike with
  | error same sink => exact .error same sink
  | @ok V a b n n' grows twins' still holds =>
    exact .ok grows (twins'.setCurrent m.current) rfl holds

/-- A step that reads a result off the machine. -/
theorem lift {r : State → Except Fault α} {r' : State → Except Fault β}
    (same : ∀ m m', Twins σ table W m m' → W[m.current]? = some flags →
      SameExcept (good W) (r m) (r' m')) :
    GoAlike σ table W flags (fun m => liftExcept (r m) m) (fun m => liftExcept (r' m) m) good := by
  intro m m' twins here
  have alike := same m m' twins here
  simp only [liftExcept]
  generalize r m = a, r' m' = b at alike
  cases alike with
  | ok holds => exact .ok List.prefix_rfl twins rfl holds
  | error same => exact .error same twins.sink

end GoAlike

/-- Data is its own twin, and faults that operators give are the same. -/
theorem alike_data {result : Except Fault Value} (data : GivesData result) :
    GoAlike σ table W flags (liftExcept result) (liftExcept result) fun V => Twin σ table V := by
  refine .lift fun m m' twins here => ?_
  cases result with
  | ok v => exact .ok (.data data)
  | error fault => exact .error (.inl rfl)

/-! ## Variables -/

/-- A variable is spelled on the other side as the scope spells it that it is found in. -/
theorem alike_readVariable (id : NodeId) (name : Name) :
    GoAlike σ table W flags (readVariable id name)
      (readVariable id (name.respell σ (flags.has (table.depth? id)))) fun V => Twin σ table V := by
  refine .lift fun m m' twins here => ?_
  rw [twins.locals, twins.locals', twins.current]
  cases table.depth? id with
  | some hops => exact twins.scopes.getAt here hops name.text
  | none =>
    rw [twins.globals]
    exact twins.scopes.get name.text name.line

/-- `this` is spelled as it is everywhere. -/
theorem alike_readThis (proper : Spelling σ) (id : NodeId) (line : Nat) :
    GoAlike σ table W flags (readVariable id ⟨"this", line⟩) (readVariable id ⟨"this", line⟩)
      fun V => Twin σ table V := by
  have read : GoAlike σ table W flags _ _ _ := alike_readVariable id ⟨"this", line⟩
  have same : Name.respell σ (flags.has (table.depth? id)) ⟨"this", line⟩ = ⟨"this", line⟩ :=
    congrArg (Name.mk · line) (proper.spelled_reserved _ (by simp [reserved]))
  rwa [same] at read

/-- Both sides write to the same scope, the one that the occurrence refers to. -/
theorem same_writeTarget {m m' : State} (twins : Twins σ table W m m')
    (here : W[m.current]? = some flags) (target : Occurrence) :
    SameExcept (fun owner owner' => owner' = owner ∧ ∃ inner, W[owner]? = some inner ∧
        inner.headD false = flags.has (table.depth? target.id))
      (writeTarget m target) (writeTarget m' (target.respell σ table flags)) := by
  simp only [writeTarget, twins.locals, twins.locals', twins.current, Occurrence.respell]
  cases table.depth? target.id with
  | some hops => exact twins.scopes.targetAt here hops target.name.text
  | none =>
    rw [twins.globals]
    exact twins.scopes.target target.name.text target.name.line

/-- An assignment writes twins to the same scope, under the spelling of that scope. -/
theorem alike_writeVariable (proper : Spelling σ) (target : Occurrence) {v w : Value}
    (twin : Twin σ table W v w) :
    GoAlike σ table W flags (writeVariable target v)
      (writeVariable (target.respell σ table flags) w) fun _ _ _ => True := by
  intro m m' twins here
  have same := same_writeTarget twins here target
  simp only [writeVariable]
  generalize writeTarget m target = r, writeTarget m' (target.respell σ table flags) = r' at same
  cases same with
  | error same => exact .error same twins.sink
  | ok holds =>
    obtain ⟨rfl, inner, there, flag⟩ := holds
    -- the owner spells the name as the table says of the occurrence
    have written := twins.define proper rfl there target.name.text twin
    rw [flag] at written
    exact .ok List.prefix_rfl written rfl trivial

/-- A definition is spelled as the current scope is. -/
theorem alike_define (proper : Spelling σ) (name : String) {v w : Value}
    (twin : Twin σ table W v w) :
    GoAlike σ table W flags (define name v) (define (spelled σ (flags.headD false) name) w)
      fun _ _ _ => True := by
  intro m m' twins here
  exact .ok List.prefix_rfl (twins.define proper twins.current here name twin) rfl trivial

/-! ## Functions, objects and scopes -/

theorem alike_functionValue {c d : Closure} (twin : TwinClosure σ table W [] c d) :
    GoAlike σ table W flags (fun m => .ok (m.newFunction c).1 (m.newFunction c).2)
      (fun m => .ok (m.newFunction d).1 (m.newFunction d).2) fun V => Twin σ table V := by
  intro m m' twins here
  refine .ok List.prefix_rfl twins.takeId rfl ?_
  show Twin σ table W (.function m.nextId c) (.function m'.nextId d)
  rw [twins.nextId]
  exact .function m.nextId twin

/-- A function keeps the scope that it was made in, so its body is respelled as that scope says.
-/
theorem alike_newFunction {scheme : Scheme} {d : FunctionDecl}
    (spares : Spares σ scheme d.openedAt) :
    GoAlike σ table W flags (newFunction d) (newFunction (d.respell σ table flags scheme))
      fun V => Twin σ table V := by
  intro m m' twins here
  have twin : TwinClosure σ table W [] ⟨d, m.current, false⟩
      ⟨d.respell σ table flags scheme, m'.current, false⟩ :=
    ⟨twins.current, rfl, flags, here, scheme, rfl, spares⟩
  exact alike_functionValue twin m m' twins here

theorem alike_newObject {c d : ObjectClass} (twin : TwinClass σ table W c d) :
    GoAlike σ table W flags (newObject c) (newObject d)
      fun V o o' => Twin σ table V (.object o) (.object o') := by
  intro m m' twins here
  refine .ok List.prefix_rfl (twins.newObject c d) rfl ?_
  show Twin σ table W (.object ⟨m.objects.size, c⟩) (.object ⟨m'.objects.size, d⟩)
  rw [twins.objects]
  exact .object m.objects.size twin

/-- A method is bound to an object in a scope more, which spells `this` as it is. -/
theorem alike_bindMethod (proper : Spelling σ) {c d : Closure}
    (method : TwinClosure σ table W [false] c d) {o o' : Instance}
    (object : Twin σ table W (.object o) (.object o')) :
    GoAlike σ table W flags (bindMethod c o) (bindMethod d o')
      fun V => TwinClosure σ table V [] := by
  intro m m' twins here
  obtain ⟨outer, there, respells⟩ := method.declaration
  have grows : W <+: W ++ [false :: outer] := List.prefix_append ..
  have new := twins.newest (false :: outer)
  have bound := (twins.push method.scope there false).define proper twins.place new "this"
    (object.mono grows)
  exact .ok grows bound rfl ⟨twins.place, method.kind, false :: outer, new, respells⟩

/-- A method is bound in a new scope that is not respelled, as it has `this` only. -/
theorem alike_methodValue (proper : Spelling σ) {c d : Closure}
    (method : TwinClosure σ table W [false] c d) {o o' : Instance}
    (object : Twin σ table W (.object o) (.object o')) :
    GoAlike σ table W flags (methodValue c o) (methodValue d o') fun V => Twin σ table V :=
  (alike_bindMethod proper method object).bind fun _ _ _ _ bound => alike_functionValue bound

/-- Fields and methods keep their names, so the same ones are found. -/
theorem alike_readProperty (proper : Spelling σ) {v w : Value} (twin : Twin σ table W v w)
    (name : Name) :
    GoAlike σ table W flags (readProperty v name) (readProperty w name)
      fun V => Twin σ table V := by
  cases twin with
  | @object id c d of =>
    intro m m' twins here
    have field : Option.Rel (Twin σ table W) (m.field? ⟨id, c⟩ name.text)
        (m'.field? ⟨id, d⟩ name.text) := twins.fields id name.text
    simp only [readProperty]
    -- twins have the same fields, and their classes the same methods
    rcases rel_cases field with ⟨missing, missing'⟩ | ⟨v, w, found, found', twin⟩
    · simp only [missing, missing']
      rcases rel_cases (of.methods name.text) with ⟨none, none'⟩ | ⟨_, _, some, some', method⟩
      · simp only [none, none']
        exact .error (.inl rfl) twins.sink
      · simp only [some, some']
        exact alike_methodValue proper method (.object id of) m m' twins here
    · simp only [found, found']
      exact .ok List.prefix_rfl twins rfl twin
  | @data v data => cases v <;> first | exact data.elim | exact .stop (.inl rfl)
  | _ => exact .stop (.inl rfl)

theorem alike_writeField {o o' : Instance} (object : Twin σ table W (.object o) (.object o'))
    (name : String) {v w : Value} (twin : Twin σ table W v w) :
    GoAlike σ table W flags (writeField o name v) (writeField o' name w) fun _ _ _ => True := by
  intro m m' twins here
  cases object with
  | object id of =>
    exact .ok List.prefix_rfl (twins.setField _ _ rfl name twin) rfl trivial
  | data data => exact data.elim

/-- A method of a superclass is looked up from scopes that are never respelled, those of `this`
and `super`. -/
theorem alike_readSuper (proper : Spelling σ) (id : NodeId) (method : Name) :
    GoAlike σ table W flags (readSuper id method) (readSuper id method)
      fun V => Twin σ table V := by
  intro m m' twins here
  have found (hops : Nat) (word : String) (special : word ∈ reserved) :
      SameExcept (Twin σ table W) (m.scopes.getAt hops m.current word)
        (m'.scopes.getAt hops m.current word) := by
    have read := twins.scopes.getAt here hops word
    rwa [proper.spelled_reserved _ special] at read
  simp only [readSuper, twins.locals, twins.locals', twins.current]
  cases table.depth? id with
  | none => exact .error (.inl rfl) twins.sink
  | some hops =>
    have super := found hops "super" (by simp [reserved])
    dsimp only
    generalize m.scopes.getAt hops m.current "super" = r,
      m'.scopes.getAt hops m.current "super" = r' at super
    cases super with
    | error same => exact .error same twins.sink
    | @ok v w twin =>
      cases twin with
      | cls of =>
        cases hops with
        | zero => exact .error (.inl rfl) twins.sink
        | succ inner =>
          -- `this` is bound in the scope just inside that of `super`
          have this := found inner "this" (by simp [reserved])
          dsimp only
          generalize m.scopes.getAt inner m.current "this" = r,
            m'.scopes.getAt inner m.current "this" = r' at this
          cases this with
          | error same => exact .error same twins.sink
          | @ok v w twin =>
            cases twin with
            | object id cls =>
              dsimp only
              rcases rel_cases (of.methods method.text) with
                ⟨none, none'⟩ | ⟨_, _, some, some', found⟩
              · simp only [none, none']
                exact .error (.inl rfl) twins.sink
              · simp only [some, some']
                exact alike_methodValue proper found (.object id cls) m m' twins here
            | data data =>
              cases v <;> first | exact data.elim | exact .error (.inl rfl) twins.sink
            | _ => exact .error (.inl rfl) twins.sink
      | data data => cases v <;> first | exact data.elim | exact .error (.inl rfl) twins.sink
      | _ => exact .error (.inl rfl) twins.sink

theorem alike_print {v w : Value} (twin : Twin σ table W v w) :
    GoAlike σ table W flags (print v) (print w) fun _ _ _ => True := by
  intro m m' twins here
  simp only [print, twin.looks.display, twins.sink]
  split
  · exact .ok List.prefix_rfl (twins.setSink _) rfl trivial
  · exact .error (.inl rfl) rfl

/-- Host functions see values as they look, and twins look alike. -/
theorem alike_callHost (f : HostRef) (vs ws : List Value) (line : Nat) :
    GoAlike σ table W flags (callHost f vs line) (callHost f ws line)
      fun V => Twin σ table V := by
  intro m m' twins here
  have same : m'.hosts[f.id]? = m.hosts[f.id]? := congrArg (·[f.id]?) twins.hosts
  cases found : m.hosts[f.id]? with
  | none =>
    simp only [callHost, same, found]
    exact .error (.inl rfl) twins.sink
  | some action =>
    obtain rfl := twins.clocks action (Array.mem_of_getElem? found)
    simp only [callHost, same, found, twins.clock]
    exact .ok List.prefix_rfl (twins.setClock _) rfl (.data trivial)

theorem alike_innerScope (isRespelled : Bool) :
    GoAlike σ table W flags innerScope innerScope
      fun V scope scope' => scope' = scope ∧ V[scope]? = some (isRespelled :: flags) := by
  intro m m' twins here
  exact .ok (List.prefix_append ..) (twins.push twins.current here isRespelled) rfl
    ⟨twins.place, twins.newest _⟩

/-- Parameters are bound one by one on both sides. -/
theorem Twins.bindAll (proper : Spelling σ) {m m' : State} (twins : Twins σ table W m m')
    {id id' : ScopeId} (same : id' = id) (there : W[id]? = some flags) (names : List Name)
    {vs ws : List Value} (row : List.Forall₂ (Twin σ table W) vs ws) :
    Twins σ table W (bindAll id (names.zip vs) m)
      (bindAll id' ((names.map (Name.respell σ (flags.headD false))).zip ws) m') := by
  induction names generalizing vs ws m m' with
  | nil => exact twins
  | cons name rest ih =>
    cases row with
    | nil => exact twins
    | cons twin row => exact ih (twins.define proper same there name.text twin) row

/-- The scope of a call is respelled if that of the declaration is, for the parameters as for
the body. -/
theorem alike_callScope (proper : Spelling σ) {c d : Closure} (scope : d.scope = c.scope)
    {outer : Flags} {scheme : Scheme} (there : W[c.scope]? = some outer)
    (declaration : d.declaration = c.declaration.respell σ table outer scheme)
    {vs ws : List Value} (row : List.Forall₂ (Twin σ table W) vs ws) :
    GoAlike σ table W flags (callScope c vs) (callScope d ws)
      fun V scope scope' => scope' = scope ∧ V[scope]? = some (scheme [] :: outer) := by
  intro m m' twins here
  obtain ⟨_, ran, grows⟩ := makesScope_callScope c vs m
  rw [callScope_eq] at ran
  have still := grows.current
  rw [← (EStateM.Result.ok.inj ran).2] at still
  have bound := (twins.push scope there (scheme [])).bindAll proper twins.place
    (twins.newest _) c.declaration.parameters (row.imp fun _ _ twin =>
      Twin.mono (List.prefix_append ..) twin)
  rw [callScope_eq, callScope_eq, declaration, FunctionDecl.respell_parameters]
  exact .ok (List.prefix_append ..) bound still ⟨twins.place, twins.newest _⟩

/-! ## Classes -/

/-- The name of a class is written to where it was bound before. -/
theorem declareClass_eq {m : State} (inside : m.current < m.scopes.size) (name : Name)
    (parent : Option ObjectClass) (ds : List FunctionDecl) :
    declareClass name parent ds m = (do
      define name.text .nil
      let scope ← classScope parent
      let cls ← newClass name.text parent (methodTable scope ds)
      define name.text (.cls cls)) m := by
  let named := m.define m.current name.text .nil
  -- an assignment that finds the name in this scope binds it there again
  have bound : (named.scopes.own? m.current name.text).isSome := by
    simp [named, State.define, Scopes.own?_define, inside]
  cases parent with
  | none => exact assign_eq_define (m := { named with nextId := m.nextId + 1 }) bound _
  | some c =>
    let opened := (named.pushScope (some m.current)).2.define named.scopes.size "super" (.cls c)
    have grows : named.scopes.Extends opened.scopes := (Scopes.Extends.push _ _).trans (.define ..)
    exact assign_eq_define (m := { opened with nextId := m.nextId + 1 })
      (grows.bound _ _ bound) _

/-- A class with a superclass opens a scope for `super`, which is not respelled. -/
theorem alike_classScope (proper : Spelling σ) {parent parent' : Option ObjectClass}
    (above : Option.Rel (TwinClass σ table W) parent parent') :
    GoAlike σ table W flags (classScope parent) (classScope parent')
      fun V scope scope' => scope' = scope ∧
        V[scope]? = some (if parent.isSome then false :: flags else flags) := by
  intro m m' twins here
  cases above with
  | none => exact .ok List.prefix_rfl twins rfl ⟨twins.current, here⟩
  | some twin =>
    have bound := (twins.push twins.current here false).define proper twins.place
      (twins.newest _) "super" (.cls (twin.mono (List.prefix_append ..)))
    exact .ok (List.prefix_append ..) bound rfl ⟨twins.place, twins.newest _⟩

theorem alike_newClass (name : String) {parent parent' : Option ObjectClass}
    (above : Option.Rel (TwinClass σ table W) parent parent')
    {methods methods' : Std.ExtTreeMap String Closure} (own : ∀ name : String,
      Option.Rel (TwinClosure σ table W [false]) methods[name]? methods'[name]?) :
    GoAlike σ table W flags (newClass name parent methods) (newClass name parent' methods')
      fun V => TwinClass σ table V := by
  intro m m' twins here
  refine .ok List.prefix_rfl twins.takeId rfl ?_
  show TwinClass σ table W ⟨m.nextId, name, parent, methods⟩ ⟨m'.nextId, name, parent', methods'⟩
  rw [twins.nextId]
  exact .of_methods above own

/-- A class keeps its name, and its methods are made in a scope that is not respelled. -/
theorem alike_declareClass (proper : Spelling σ) {name : Name}
    (kept : spelled σ (flags.headD false) name.text = name.text)
    {parent parent' : Option ObjectClass}
    (above : Option.Rel (TwinClass σ table W) parent parent') {scheme : Scheme}
    {ds : List FunctionDecl} (spares : Spares σ scheme (FunctionDecl.openedAmong ds)) :
    GoAlike σ table W flags (declareClass name parent ds)
      (declareClass name parent' (FunctionDecl.respellAll σ table
        (false :: if parent.isSome then false :: flags else flags) scheme ds))
      fun _ _ _ => True := by
  intro m m' twins here
  have inside : m.current < m.scopes.size :=
    twins.scopes.size ▸ (List.getElem?_eq_some_iff.mp here).1
  have inside' : m'.current < m'.scopes.size := twins.current ▸ twins.place ▸ inside
  rw [declareClass_eq inside, declareClass_eq inside']
  -- the name is bound twice, to nil and then to the class, and the respelling keeps it
  have nothing : Twin σ table W .nil .nil := .data trivial
  have named : GoAlike σ table W flags _ _ _ := alike_define proper name.text nothing
  rw [kept] at named
  refine named.bind (fun V _ _ grows _ => ?_) m m' twins here
  have above' : Option.Rel (TwinClass σ table V) parent parent' :=
    rel_imp (fun _ _ twin => twin.mono grows) above
  refine (alike_classScope proper above').bind fun V' scope scope' grows' ⟨same, there⟩ => ?_
  subst same
  have above'' : Option.Rel (TwinClass σ table V') parent parent' :=
    rel_imp (fun _ _ twin => twin.mono grows') above'
  refine (alike_newClass name.text above'' (rel_methodTable there spares)).bind
    fun U cls cls' _ twin => ?_
  have written : GoAlike σ table U flags _ _ _ := alike_define proper name.text (.cls twin)
  rwa [kept] at written

theorem alike_asSuperclass {v w : Value} (twin : Twin σ table W v w) (line : Nat) :
    GoAlike σ table W flags (asSuperclass v line) (asSuperclass w line)
      fun V => TwinClass σ table V := by
  cases twin with
  | cls of => exact .pure of
  | @data v data => cases v <;> first | exact data.elim | exact .stop (.inl rfl)
  | _ => exact .stop (.inl rfl)

/-! ## Calls -/

/-- Twins have the same arity. -/
theorem alike_checkCall {v w : Value} (twin : Twin σ table W v w) {vs ws : List Value}
    (row : List.Forall₂ (Twin σ table W) vs ws) (line : Nat) :
    GoAlike σ table W flags (checkCall v vs line) (checkCall w ws line) fun _ _ _ => True := by
  simp only [checkCall, twin.looks.arity?, row.length_eq]
  split
  · exact .stop (.inl rfl)
  · split
    · exact .pure trivial
    · exact .stop (.inl rfl)

theorem alike_boundObject (proper : Spelling σ) {c d : Closure}
    (twin : TwinClosure σ table W [] c d) :
    GoAlike σ table W flags (boundObject c) (boundObject d) fun V => Twin σ table V := by
  refine .lift fun m m' twins here => ?_
  obtain ⟨outer, there, -⟩ := twin.declaration
  have read := twins.scopes.getAt there 0 "this"
  rw [proper.spelled_reserved _ (by simp [reserved])] at read
  rw [twin.scope]
  exact read

/-- An initializer gives its own object on both sides. -/
theorem alike_callResult (proper : Spelling σ) {c d : Closure}
    (twin : TwinClosure σ table W [] c d) {a b : Completion}
    (ended : TwinCompletion σ table W a b) :
    GoAlike σ table W flags (callResult c a) (callResult d b) fun V => Twin σ table V := by
  simp only [callResult, twin.kind, twin.name]
  split
  · exact alike_boundObject proper twin
  · cases ended with
    | returned twin => exact .pure twin
    | normal => exact .pure (.data trivial)
    | broke | continued => exact .stop (.inl rfl)

/-! ## Runs -/

/-- With this fuel, respelled code goes as the code does, wherever its scopes are spelled
as the world says. -/
structure Lockstep (σ : String → String) (table : Locals) (fuel : Nat) : Prop where
  evaluate {W : World} {flags : Flags} (e : Expr) :
    GoAlike σ table W flags (evaluate fuel e) (evaluate fuel (e.respell σ table flags))
      fun V => Twin σ table V
  evaluateAll {W : World} {flags : Flags} (es : List Expr) :
    GoAlike σ table W flags (evaluateAll fuel es)
      (evaluateAll fuel (Expr.respellAll σ table flags es)) fun V => List.Forall₂ (Twin σ table V)
  call {W : World} {flags : Flags} {v w : Value} {vs ws : List Value}
    (twin : Twin σ table W v w) (row : List.Forall₂ (Twin σ table W) vs ws) (line : Nat) :
    GoAlike σ table W flags (call fuel v vs line) (call fuel w ws line) fun V => Twin σ table V
  invoke {W : World} {flags : Flags} {c d : Closure} {vs ws : List Value}
    (twin : TwinClosure σ table W [] c d) (row : List.Forall₂ (Twin σ table W) vs ws) :
    GoAlike σ table W flags (invoke fuel c vs) (invoke fuel d ws) fun V => Twin σ table V
  execute {W : World} {flags : Flags} {scheme : Scheme} (s : Stmt)
    (keeps : Keeps σ (flags.headD false) s.titles) (spares : Spares σ scheme s.openedAt) :
    GoAlike σ table W flags (execute fuel s) (execute fuel (s.respell σ table flags scheme))
      fun V => TwinCompletion σ table V
  evaluate? {W : World} {flags : Flags} (e : Option Expr) :
    GoAlike σ table W flags (evaluate? fuel e)
      (evaluate? fuel (e.map (Expr.respell σ table flags))) fun V => Twin σ table V
  executeAll {W : World} {flags : Flags} {scheme : Scheme} (ss : List Stmt)
    (keeps : Keeps σ (flags.headD false) (Stmt.titlesOfAll ss))
    (spares : Spares σ scheme (Stmt.openedAmong ss)) :
    GoAlike σ table W flags (executeAll fuel ss)
      (executeAll fuel (Stmt.respellAll σ table flags scheme ss))
      fun V => TwinCompletion σ table V
  executeLoop {W : World} {flags : Flags} {scheme : Scheme} (condition : Expr) (body : Stmt)
    (increment : Option Expr) (keeps : Keeps σ (flags.headD false) body.titles)
    (spares : Spares σ scheme body.openedAt) :
    GoAlike σ table W flags (executeLoop fuel condition body increment)
      (executeLoop fuel (condition.respell σ table flags) (body.respell σ table flags scheme)
        (increment.map (Expr.respell σ table flags)))
      fun V => TwinCompletion σ table V

/-- What a function's body needs, where the function has it. -/
theorem spares_body {scheme : Scheme} {d : FunctionDecl} (h : Spares σ scheme d.openedAt) :
    Keeps σ (scheme []) (Stmt.titlesOfAll d.body) ∧
      Spares σ (scheme.part 0) (Stmt.openedAmong d.body) := by
  obtain ⟨name, parameters, body⟩ := d
  exact ⟨h [] _ rfl, fun place => h (0 :: place)⟩

namespace Lockstep

/-- Without fuel, both sides run out of it at once. -/
theorem zero : Lockstep σ table 0 where
  evaluate _ := .outOfFuel
  evaluateAll _ := .outOfFuel
  call _ _ _ := .outOfFuel
  invoke _ _ := .outOfFuel
  execute _ _ _ := .outOfFuel
  evaluate? _ := .outOfFuel
  executeAll _ _ _ := .outOfFuel
  executeLoop _ _ _ _ _ := .outOfFuel

section Succ

variable {fuel : Nat} (proper : Spelling σ) (ih : Lockstep σ table fuel)
include ih

theorem evaluateAll_succ (es : List Expr) :
    GoAlike σ table W flags (Machine.evaluateAll (fuel + 1) es)
      (Machine.evaluateAll (fuel + 1) (Expr.respellAll σ table flags es))
      fun V => List.Forall₂ (Twin σ table V) := by
  cases es with
  | nil => exact .pure .nil
  | cons e rest =>
    refine (ih.evaluate e).bind fun _ v w _ twin => ?_
    refine (ih.evaluateAll rest).bind fun _ vs ws grows row => ?_
    exact .pure (.cons (twin.mono grows) row)

theorem evaluate?_succ (e : Option Expr) :
    GoAlike σ table W flags (Machine.evaluate? (fuel + 1) e)
      (Machine.evaluate? (fuel + 1) (e.map (Expr.respell σ table flags)))
      fun V => Twin σ table V := by
  cases e with
  | none => exact .pure (.data trivial)
  | some e => exact ih.evaluate e

include proper

/-- Evaluation goes alike if all runs with less fuel do. -/
theorem evaluate_succ (e : Expr) :
    GoAlike σ table W flags (Machine.evaluate (fuel + 1) e)
      (Machine.evaluate (fuel + 1) (e.respell σ table flags)) fun V => Twin σ table V := by
  cases e with
  | literal value => exact .pure (.data (isData_ofLiteral value))
  | group inner => exact ih.evaluate inner
  | unary op line operand =>
    refine (ih.evaluate operand).bind fun _ v w _ twin => ?_
    rw [twin.looks.applyUnary]
    exact alike_data (givesData_applyUnary op line v)
  | binary op line left right =>
    refine (ih.evaluate left).bind fun _ v w _ twin => ?_
    refine (ih.evaluate right).bind fun _ v' w' grows twin' => ?_
    rw [(twin.mono grows).looks.applyBinary twin'.looks]
    exact alike_data (givesData_applyBinary op line v v')
  | logical op left right =>
    refine (ih.evaluate left).bind fun _ v w _ twin => ?_
    rw [twin.looks.decides]
    split
    · exact .pure twin
    · exact ih.evaluate right
  | «variable» o => exact alike_readVariable o.id o.name
  | assign target value =>
    refine (ih.evaluate value).bind fun _ v w _ twin => ?_
    exact (alike_writeVariable proper target twin).bind fun _ _ _ grows _ =>
      .pure (twin.mono grows)
  | call callee line arguments =>
    refine (ih.evaluate callee).bind fun _ f g _ twin => ?_
    refine (ih.evaluateAll arguments).bind fun _ vs ws grows row => ?_
    refine (alike_checkCall (twin.mono grows) row line).bind fun _ _ _ grows' _ => ?_
    exact ih.call (twin.mono (grows.trans grows')) (row.imp fun _ _ twin => twin.mono grows') line
  | get object name =>
    exact (ih.evaluate object).bind fun _ _ _ _ twin => alike_readProperty proper twin name
  | set object name value =>
    simp only [Machine.evaluate, Expr.respell]
    refine (ih.evaluate object).bind fun _ o o' _ twin => ?_
    -- what is no object is refused on both sides before the value is evaluated
    cases twin with
    | object id of =>
      refine (ih.evaluate value).bind fun _ v w grows twin => ?_
      refine (alike_writeField (.object id (of.mono grows)) name.text twin).bind
        fun _ _ _ grows' _ => ?_
      exact .pure (twin.mono grows')
    | data data => cases o <;> first | exact data.elim | exact .stop (.inl rfl)
    | _ => exact .stop (.inl rfl)
  | this id line => exact alike_readThis proper id line
  | super id line method => exact alike_readSuper proper id method

/-- A call goes alike if all runs with less fuel do. -/
theorem call_succ {v w : Value} {vs ws : List Value} (twin : Twin σ table W v w)
    (row : List.Forall₂ (Twin σ table W) vs ws) (line : Nat) :
    GoAlike σ table W flags (Machine.call (fuel + 1) v vs line)
      (Machine.call (fuel + 1) w ws line) fun V => Twin σ table V := by
  cases twin with
  | host f => exact alike_callHost f vs ws line
  | function id twin => exact ih.invoke twin row
  | @cls c d of =>
    simp only [Machine.call]
    refine (alike_newObject of).bind fun _ o o' grows made => ?_
    rcases rel_cases (of.methods initializerName) with ⟨none, none'⟩ | ⟨_, _, some, some', method⟩
    · simp only [none, none']
      exact .pure made
    · simp only [some, some']
      refine (alike_bindMethod proper (method.mono grows) made).bind
        fun _ bound bound' grows' twin => ?_
      -- the arguments were evaluated before the object and the scope of `this` were made
      have row' := row.imp fun _ _ twin => Twin.mono (grows.trans grows') twin
      exact (ih.invoke twin row').bind fun _ _ _ grows'' _ =>
        .pure (made.mono (grows'.trans grows''))
  | @data v data => cases v <;> first | exact data.elim | exact .stop (.inl rfl)
  | object id of => exact .stop (.inl rfl)

theorem invoke_succ {c d : Closure} {vs ws : List Value} (twin : TwinClosure σ table W [] c d)
    (row : List.Forall₂ (Twin σ table W) vs ws) :
    GoAlike σ table W flags (Machine.invoke (fuel + 1) c vs) (Machine.invoke (fuel + 1) d ws)
      fun V => Twin σ table V := by
  obtain ⟨outer, there, scheme, declaration, spares⟩ := twin.declaration
  refine (alike_callScope proper twin.scope there declaration row).bind
    fun V scope _ grows ⟨same, new⟩ => ?_
  subst same
  -- the scope of the call spells its names as the scheme says
  obtain ⟨keeps, inner⟩ := spares_body spares
  have body : GoAlike σ table V (scheme [] :: outer) _ _ _ :=
    ih.executeAll c.declaration.body keeps inner
  rw [declaration, FunctionDecl.respell_body]
  refine (body.within new).bind fun _ a b grows' ended => ?_
  exact alike_callResult proper (twin.mono (grows.trans grows')) ended

/-- Execution goes alike if all runs with less fuel do, and the titles of functions and classes
keep their spelling. -/
theorem execute_succ {scheme : Scheme} (s : Stmt) (keeps : Keeps σ (flags.headD false) s.titles)
    (spares : Spares σ scheme s.openedAt) :
    GoAlike σ table W flags (Machine.execute (fuel + 1) s)
      (Machine.execute (fuel + 1) (s.respell σ table flags scheme))
      fun V => TwinCompletion σ table V := by
  cases s with
  | expression e => exact (ih.evaluate e).bind fun _ _ _ _ _ => .pure .normal
  | print e =>
    refine (ih.evaluate e).bind fun _ _ _ _ twin => ?_
    exact (alike_print twin).bind fun _ _ _ _ _ => .pure .normal
  | var name initializer =>
    refine (ih.evaluate? initializer).bind fun _ _ _ _ twin => ?_
    exact (alike_define proper name.text twin).bind fun _ _ _ _ _ => .pure .normal
  | block body =>
    refine (alike_innerScope (scheme [])).bind fun V scope _ _ ⟨same, new⟩ => ?_
    subst same
    have inner : GoAlike σ table V (scheme [] :: flags) _ _ _ :=
      ih.executeAll body (spares [] _ rfl) fun place => spares (0 :: place)
    exact inner.within new
  | branch condition yes no =>
    cases no with
    | none =>
      refine (ih.evaluate condition).bind fun _ v w _ twin => ?_
      rw [twin.looks.isTruthy]
      split
      · exact ih.execute yes keeps fun place => spares (0 :: place)
      · exact .pure .normal
    | some no =>
      -- a declaration in an arm is made in the scope around the statement
      rw [Stmt.titles, Keeps, List.forall_mem_append] at keeps
      refine (ih.evaluate condition).bind fun _ v w _ twin => ?_
      rw [twin.looks.isTruthy]
      split
      · exact ih.execute yes keeps.1 fun place => spares (0 :: place)
      · exact ih.execute no keeps.2 fun place => spares (1 :: place)
  | loop condition body increment =>
    exact ih.executeLoop condition body increment keeps fun place => spares (0 :: place)
  | function d =>
    have kept : spelled σ (flags.headD false) d.name.text = d.name.text :=
      keeps _ (List.mem_singleton_self _)
    simp only [Machine.execute, Stmt.respell, FunctionDecl.respell_name]
    refine (alike_newFunction spares).bind fun V _ _ _ twin => ?_
    have named : GoAlike σ table V flags _ _ _ := alike_define proper d.name.text twin
    rw [kept] at named
    exact named.bind fun _ _ _ _ _ => .pure .normal
  | «return» line value =>
    exact (ih.evaluate? value).bind fun _ _ _ _ twin => .pure (.returned twin)
  | «break» line => exact .pure .broke
  | «continue» line => exact .pure .continued
  | classDecl name parent ds =>
    have kept : spelled σ (flags.headD false) name.text = name.text :=
      keeps _ (List.mem_singleton_self _)
    cases parent with
    | none =>
      exact (alike_declareClass proper kept .none spares).bind fun _ _ _ _ _ => .pure .normal
    | some parent =>
      refine (ih.evaluate (.variable parent)).bind fun _ _ _ _ twin => ?_
      refine (alike_asSuperclass twin parent.name.line).bind fun _ _ _ _ above => ?_
      exact (alike_declareClass proper kept (.some above) spares).bind
        fun _ _ _ _ _ => .pure .normal

omit proper

theorem executeAll_succ {scheme : Scheme} (ss : List Stmt)
    (keeps : Keeps σ (flags.headD false) (Stmt.titlesOfAll ss))
    (spares : Spares σ scheme (Stmt.openedAmong ss)) :
    GoAlike σ table W flags (Machine.executeAll (fuel + 1) ss)
      (Machine.executeAll (fuel + 1) (Stmt.respellAll σ table flags scheme ss))
      fun V => TwinCompletion σ table V := by
  cases ss with
  | nil => exact .pure .normal
  | cons s rest =>
    rw [Stmt.titlesOfAll, List.flatMap_cons, Keeps, List.forall_mem_append] at keeps
    have head : GoAlike σ table W flags _ _ _ :=
      ih.execute s keeps.1 fun place => spares (0 :: place)
    refine head.bind fun _ a b _ ended => ?_
    cases ended with
    -- the scheme of the rest is read one place further
    | normal => exact ih.executeAll rest keeps.2 fun place => spares (1 :: place)
    | returned twin => exact .pure (.returned twin)
    | broke => exact .pure .broke
    | continued => exact .pure .continued

theorem executeLoop_succ {scheme : Scheme} (condition : Expr) (body : Stmt)
    (increment : Option Expr) (keeps : Keeps σ (flags.headD false) body.titles)
    (spares : Spares σ scheme body.openedAt) :
    GoAlike σ table W flags (Machine.executeLoop (fuel + 1) condition body increment)
      (Machine.executeLoop (fuel + 1) (condition.respell σ table flags)
        (body.respell σ table flags scheme) (increment.map (Expr.respell σ table flags)))
      fun V => TwinCompletion σ table V := by
  refine (ih.evaluate condition).bind fun _ v w _ twin => ?_
  -- twins look alike, so both runs take the same turn
  rw [twin.looks.isTruthy]
  split
  · refine (ih.execute body keeps spares).bind fun _ a b _ ended => ?_
    cases ended with
    | normal | continued =>
      exact (ih.evaluate? increment).bind fun _ _ _ _ _ =>
        ih.executeLoop condition body increment keeps spares
    | broke => exact .pure .normal
    | returned twin => exact .pure (.returned twin)
  · exact .pure .normal

end Succ

end Lockstep

/-- Runs of respelled code go as runs of the code do. -/
theorem lockstep (proper : Spelling σ) (fuel : Nat) : Lockstep σ table fuel := by
  induction fuel with
  | zero => exact .zero
  | succ fuel ih =>
    exact ⟨ih.evaluate_succ proper, ih.evaluateAll_succ, ih.call_succ proper,
      ih.invoke_succ proper, ih.execute_succ proper, ih.evaluate?_succ, ih.executeAll_succ,
      ih.executeLoop_succ⟩

/-- Programs run among the globals, which are spelled as they are. -/
theorem alike_runStatements (proper : Spelling σ) (fuel : Nat) {scheme : Scheme}
    (ss : List Stmt) (spares : Spares σ scheme (Stmt.openedAmong ss)) :
    GoAlike σ table W [] (runStatements fuel ss)
      (runStatements fuel (Stmt.respellAll σ table [] scheme ss)) fun _ _ _ => True := by
  induction ss generalizing W scheme with
  | nil => exact .pure trivial
  | cons s rest ih =>
    have head : GoAlike σ table W [] _ _ _ :=
      (lockstep proper fuel).execute s (fun _ _ => rfl) fun place => spares (0 :: place)
    refine head.bind fun _ a b _ ended => ?_
    cases ended with
    | normal => exact ih fun place => spares (1 :: place)
    | _ => exact .stop (.inr ⟨⟨_, rfl⟩, ⟨_, rfl⟩⟩)

end ClassScript.Machine
