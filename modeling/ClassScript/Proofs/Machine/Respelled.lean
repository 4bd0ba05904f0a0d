import ClassScript.Proofs.Machine.Heap
import ClassScript.Proofs.Slots.Steps
import ClassScript.Proofs.Syntax.Respelled
import Mathlib.Data.List.Forall2

/-!
# Machines with respelled scopes

Two machines that run a program and its respelling have the same scopes in the same
places, but some of them bind their names under another spelling. A world says which ones:
it has, for every scope, whether it and the scopes around it are respelled. Values are
twins if they look the same and their functions are respelled as the world says of the
scopes that they were declared in (`Twin`); machines are twins if scopes and objects hold
twins (`Twins`). Worlds only grow, and twins stay twins then.
-/

namespace ClassScript.Machine

open Syntax Object Binding Slots

/-- For every scope of a machine, which of it and the scopes around it are respelled,
innermost first. -/
abbrev World := List Flags

/-- A spelling for every name, which is its own for `this` and `super`. -/
structure Spelling (σ : String → String) : Prop where
  injective : Function.Injective σ
  reserved : ∀ text ∈ reserved, σ text = text

theorem headD_drop (flags : Flags) (hops : Nat) :
    (flags.drop hops).headD false = flags.has (some hops) := by
  rw [List.headD_eq_head?_getD, List.head?_drop]
  rfl

section Spelled

variable {σ : String → String} (proper : Spelling σ)
include proper

/-- Names that differ are spelled differently, in a scope that is respelled as in one that is
not. -/
theorem Spelling.spelled_inj (isRespelled : Bool) {text other : String} :
    spelled σ isRespelled text = spelled σ isRespelled other ↔ text = other := by
  cases isRespelled with
  | false => exact Iff.rfl
  | true => exact proper.injective.eq_iff

/-- The names of receivers are never respelled. -/
theorem Spelling.spelled_reserved (isRespelled : Bool) {text : String}
    (special : text ∈ Syntax.reserved) : spelled σ isRespelled text = text := by
  cases isRespelled with
  | false => rfl
  | true => exact proper.reserved text special

end Spelled

/-! ## Values -/

section Values

variable (σ : String → String) (table : Locals) (W : World)

/-- A declaration and its respelling, among scopes with the flags. -/
def Respells (flags : Flags) (d d' : FunctionDecl) : Prop :=
  ∃ scheme, d' = d.respell σ table flags scheme ∧ Spares σ scheme d.openedAt

/-- A function and its respelling. A method has the scope of `this` around it, inside the
scope that the closure has. -/
structure TwinClosure (inner : Flags) (c d : Closure) : Prop where
  scope : d.scope = c.scope
  kind : d.isInitializer = c.isInitializer
  declaration : ∃ flags, W[c.scope]? = some flags ∧
    Respells σ table (inner ++ flags) c.declaration d.declaration

structure TwinClass (c d : ObjectClass) : Prop where
  id : d.id = c.id
  name : d.name = c.name
  methods : ∀ name, Option.Rel (TwinClosure σ table W [false]) (c.method? name) (d.method? name)

/-- The same value, with code respelled. -/
inductive Twin : Value → Value → Prop
  | data {v : Value} (data : IsData v) : Twin v v
  | host (f : HostRef) : Twin (.host f) (.host f)
  | function (id : ObjectId) {c d : Closure} (twin : TwinClosure σ table W [] c d) :
      Twin (.function id c) (.function id d)
  | cls {c d : ObjectClass} (twin : TwinClass σ table W c d) : Twin (.cls c) (.cls d)
  | object (id : ObjectId) {c d : ObjectClass} (twin : TwinClass σ table W c d) :
      Twin (.object ⟨id, c⟩) (.object ⟨id, d⟩)

/-- The same way to end. -/
inductive TwinCompletion : Completion → Completion → Prop
  | normal : TwinCompletion .normal .normal
  | broke : TwinCompletion .broke .broke
  | continued : TwinCompletion .continued .continued
  | returned {v w : Value} (twin : Twin σ table W v w) :
      TwinCompletion (.returned v) (.returned w)

end Values

variable {σ : String → String} {table : Locals} {V W : World}

section Looks

theorem FunctionDecl.respell_name (flags : Flags) (scheme : Scheme) (d : FunctionDecl) :
    (d.respell σ table flags scheme).name = d.name := by
  cases d; rfl

theorem FunctionDecl.respell_parameters (flags : Flags) (scheme : Scheme) (d : FunctionDecl) :
    (d.respell σ table flags scheme).parameters =
      d.parameters.map (Name.respell σ (scheme [])) := by
  cases d; rfl

/-- The body of a function stands in a new scope, respelled or not as the scheme says. -/
theorem FunctionDecl.respell_body (flags : Flags) (scheme : Scheme) (d : FunctionDecl) :
    (d.respell σ table flags scheme).body =
      Stmt.respellAll σ table (scheme [] :: flags) (scheme.part 0) d.body := by
  cases d; rfl

/-- A function keeps its name. -/
theorem Respells.name {flags : Flags} {d d' : FunctionDecl} (h : Respells σ table flags d d') :
    d'.name = d.name := by
  obtain ⟨scheme, rfl, -⟩ := h
  exact FunctionDecl.respell_name flags scheme d

theorem Respells.parameters {flags : Flags} {d d' : FunctionDecl}
    (h : Respells σ table flags d d') : d'.parameters.length = d.parameters.length := by
  obtain ⟨scheme, rfl, -⟩ := h
  rw [FunctionDecl.respell_parameters, List.length_map]

namespace TwinClosure

variable {inner : Flags} {c d : Closure}

theorem name (h : TwinClosure σ table W inner c d) : d.name = c.name := by
  obtain ⟨flags, -, same⟩ := h.declaration
  exact congrArg Name.text same.name

theorem arity (h : TwinClosure σ table W inner c d) : d.arity = c.arity := by
  obtain ⟨flags, -, same⟩ := h.declaration
  exact same.parameters

end TwinClosure

/-- Twins of a class take the same number of arguments. -/
theorem TwinClass.arity {c d : ObjectClass} (h : TwinClass σ table W c d) :
    d.arity = c.arity := by
  unfold ObjectClass.arity
  rcases rel_cases (h.methods initializerName) with ⟨here, there⟩ | ⟨_, _, here, there, twin⟩
  · rw [here, there]
  · rw [here, there]
    exact twin.arity

/-- Twins look alike. -/
theorem Twin.looks {v w : Value} (h : Twin σ table W v w) : Looks v w := by
  cases h with
  | data data => exact .data data
  | host f => exact .host f
  | function id twin => exact .function id twin.name twin.arity
  | cls twin => exact .cls twin.id twin.name twin.arity
  | object id twin => exact .object id twin.name

end Looks

/-! ## Methods -/

/-- A search that looks at what corresponds finds what corresponds. -/
theorem rel_find? {α β : Type} {R : α → β → Prop} {p : α → Bool} {q : β → Bool}
    (same : ∀ a b, R a b → p a = q b) {as : List α} {bs : List β} (row : List.Forall₂ R as bs) :
    Option.Rel R (as.find? p) (bs.find? q) := by
  induction row with
  | nil => exact .none
  | @cons a b as bs here rest ih =>
    rw [List.find?_cons, List.find?_cons, same a b here]
    cases q b with
    | true => exact .some here
    | false => exact ih

/-- The methods of a class are respelled one by one. -/
theorem respellAll_row {flags : Flags} {scheme : Scheme} {ds : List FunctionDecl}
    (spares : Spares σ scheme (FunctionDecl.openedAmong ds)) :
    List.Forall₂ (Respells σ table flags) ds
      (FunctionDecl.respellAll σ table flags scheme ds) := by
  induction ds generalizing scheme with
  | nil => exact .nil
  | cons d rest ih =>
    exact .cons ⟨scheme.part 0, rfl, fun place => spares (0 :: place)⟩
      (ih fun place => spares (1 :: place))

/-- Methods that are declared in one scope on both sides. -/
theorem rel_methodTable {scope : ScopeId} {flags : Flags} (here : W[scope]? = some flags)
    {scheme : Scheme} {ds : List FunctionDecl}
    (spares : Spares σ scheme (FunctionDecl.openedAmong ds)) (name : String) :
    Option.Rel (TwinClosure σ table W [false]) (methodTable scope ds)[name]?
      (methodTable scope (FunctionDecl.respellAll σ table (false :: flags) scheme ds))[name]? := by
  -- the table has the last declaration of a name
  have row : List.Forall₂ (Respells σ table (false :: flags)) ds.reverse
      (FunctionDecl.respellAll σ table (false :: flags) scheme ds).reverse :=
    List.rel_reverse (respellAll_row spares)
  have last : Option.Rel (Respells σ table (false :: flags))
      (ds.reverse.find? fun d => d.name.text == name)
      ((FunctionDecl.respellAll σ table (false :: flags) scheme ds).reverse.find?
        fun d => d.name.text == name) :=
    rel_find? (fun d d' same => congrArg (·.text == name) same.name.symm) row
  rw [getElem?_methodTable, getElem?_methodTable]
  rcases rel_cases last with ⟨missing, missing'⟩ | ⟨d, d', found, found', same⟩
  · rw [missing, missing']
    exact .none
  · rw [found, found']
    exact .some ⟨rfl, congrArg (·.text == initializerName) same.name, flags, here, same⟩

/-- A class has its own methods before those that it inherits. -/
theorem TwinClass.of_methods {id : ObjectId} {name : String} {parent parent' : Option ObjectClass}
    (above : Option.Rel (TwinClass σ table W) parent parent')
    {methods methods' : Std.ExtTreeMap String Closure} (own : ∀ name : String,
      Option.Rel (TwinClosure σ table W [false]) methods[name]? methods'[name]?) :
    TwinClass σ table W ⟨id, name, parent, methods⟩ ⟨id, name, parent', methods'⟩ where
  id := rfl
  name := rfl
  methods text := rel_method? (own text) (rel_imp (fun _ _ twin => twin.methods text) above)

/-! ## Growing worlds -/

section Growing

variable (grows : W <+: V)
include grows

/-- Twins stay twins in a larger world. -/
theorem TwinClosure.mono {inner : Flags} {c d : Closure} (h : TwinClosure σ table W inner c d) :
    TwinClosure σ table V inner c d where
  scope := h.scope
  kind := h.kind
  declaration := by
    obtain ⟨flags, here, rest⟩ := h.declaration
    exact ⟨flags, prefix_getElem? grows here, rest⟩

theorem TwinClass.mono {c d : ObjectClass} (h : TwinClass σ table W c d) :
    TwinClass σ table V c d where
  id := h.id
  name := h.name
  methods name := rel_imp (fun _ _ twin => twin.mono grows) (h.methods name)

/-- Values that are twins stay so in a larger world. -/
theorem Twin.mono {v w : Value} (h : Twin σ table W v w) : Twin σ table V v w := by
  cases h with
  | data data => exact .data data
  | host f => exact .host f
  | function id twin => exact .function id (twin.mono grows)
  | cls twin => exact .cls (twin.mono grows)
  | object id twin => exact .object id (twin.mono grows)

theorem rel_twin_mono {x y : Option Value} (h : Option.Rel (Twin σ table W) x y) :
    Option.Rel (Twin σ table V) x y :=
  rel_imp (fun _ _ twin => twin.mono grows) h

end Growing

/-! ## Scopes -/

/-- The same result, or the same fault, where internal faults all count as one. -/
inductive SameExcept {α β : Type} (good : α → β → Prop) : Except Fault α → Except Fault β → Prop
  | ok {a : α} {b : β} (holds : good a b) : SameExcept good (.ok a) (.ok b)
  | error {fault fault' : Fault} (same : fault = fault' ∨ IsInternal fault ∧ IsInternal fault') :
      SameExcept good (.error fault) (.error fault')

/-- The same scopes in a world, where each binds its names as it spells them. -/
structure TwinScopes (σ : String → String) (table : Locals) (W : World) (globals : ScopeId)
    (s s' : Scopes) : Prop where
  size : s.size = W.length
  size' : s'.size = W.length
  parents : ∀ id, s'.parent? id = s.parent? id
  chain : ∀ id up flags, s.parent? id = some up → W[id]? = some flags → W[up]? = some flags.tail
  top : W[globals]? = some []
  root : s.parent? globals = none
  own : ∀ id flags name, W[id]? = some flags → Option.Rel (Twin σ table W) (s.own? id name)
    (s'.own? id (spelled σ (flags.headD false) name))

namespace TwinScopes

variable {globals id : ScopeId} {s s' : Scopes} {flags : Flags}

theorem inside (h : TwinScopes σ table W globals s s') : globals < s.size :=
  h.size ▸ (List.getElem?_eq_some_iff.mp h.top).1

/-- The scopes of both sides have the same parents. -/
theorem ancestor? (h : TwinScopes σ table W globals s s') (hops : Nat) (id : ScopeId) :
    s'.ancestor? hops id = s.ancestor? hops id := by
  induction hops generalizing id with
  | zero => rfl
  | succ hops ih =>
    simp only [Scopes.ancestor?, h.parents]
    cases s.parent? id with
    | none => rfl
    | some up => exact ih up

/-- Scopes further out have fewer scopes around them. -/
theorem above (h : TwinScopes σ table W globals s s') {hops : Nat} {up : ScopeId}
    (found : s.ancestor? hops id = some up) (here : W[id]? = some flags) :
    W[up]? = some (flags.drop hops) := by
  induction hops generalizing id flags with
  | zero =>
    obtain rfl := Option.some.inj found
    exact here
  | succ hops ih =>
    rw [Scopes.ancestor?] at found
    split at found
    · next parent direct =>
      rw [← List.drop_tail]
      exact ih found (h.chain _ _ _ direct here)
    · cases found

/-- A name is in a scope if it is in its twin, under the spelling of that scope. -/
theorem contains (h : TwinScopes σ table W globals s s') (here : W[id]? = some flags)
    (name : String) :
    s'.contains id (spelled σ (flags.headD false) name) = s.contains id name := by
  rcases rel_cases (h.own id flags name here) with ⟨unbound, unbound'⟩ | ⟨_, _, bound, bound', -⟩
  · rw [Scopes.contains, Scopes.contains, unbound, unbound']
  · rw [Scopes.contains, Scopes.contains, bound, bound']
    rfl

/-- A name is bound on both sides, as its scope spells it. -/
theorem define (proper : Spelling σ) (h : TwinScopes σ table W globals s s')
    (here : W[id]? = some flags) (name : String) {v w : Value} (twin : Twin σ table W v w) :
    TwinScopes σ table W globals (s.define id name v)
      (s'.define id (spelled σ (flags.headD false) name) w) where
  size := by rw [Scopes.size_define, h.size]
  size' := by rw [Scopes.size_define, h.size']
  parents other := by rw [Scopes.parent?_define, Scopes.parent?_define, h.parents]
  chain other up flags' above := h.chain other up flags' (by rwa [Scopes.parent?_define] at above)
  top := h.top
  root := by rw [Scopes.parent?_define, h.root]
  own other flags' text there := by
    rw [Scopes.own?_define, Scopes.own?_define]
    by_cases same : id = other
    · subst same
      obtain rfl : flags = flags' := Option.some.inj (here.symm.trans there)
      -- spelling is injective on one level: the same name is hit on both sides
      simp only [proper.spelled_inj, h.size, h.size']
      split
      · exact .some twin
      · exact h.own id flags text here
    · rw [if_neg fun both => same both.1, if_neg fun both => same both.1]
      exact h.own other flags' text there

/-- A scope more on both sides, inside another one. -/
theorem push (h : TwinScopes σ table W globals s s') {up : ScopeId} (here : W[up]? = some flags)
    (isRespelled : Bool) :
    TwinScopes σ table (W ++ [isRespelled :: flags]) globals (s.push (some up)).2
      (s'.push (some up)).2 := by
  have grows : W <+: W ++ [isRespelled :: flags] := List.prefix_append ..
  refine ⟨?_, ?_, fun id => ?_, fun id parent flags' above there => ?_,
    prefix_getElem? grows h.top, ?_, fun id flags' name there => ?_⟩
  · rw [Scopes.size_push, h.size, List.length_append]
    rfl
  · rw [Scopes.size_push, h.size', List.length_append]
    rfl
  · rw [Scopes.parent?_push, Scopes.parent?_push, h.parents, h.size, h.size']
  · -- the chain goes from the new scope to the one around it, or stays among the old ones
    rw [Scopes.parent?_push, h.size] at above
    split at above
    · next last =>
      subst last
      obtain rfl := Option.some.inj above
      rw [List.getElem?_concat_length] at there
      obtain rfl := Option.some.inj there
      exact prefix_getElem? grows here
    · have old : id < W.length := h.size ▸ Scopes.lt_size_of_parent? above
      rw [List.getElem?_append_left old] at there
      exact prefix_getElem? grows (h.chain _ _ _ above there)
  · rw [Scopes.parent?_push, if_neg (Nat.ne_of_lt h.inside), h.root]
  · rw [Scopes.own?_push, Scopes.own?_push]
    rcases Nat.lt_or_ge id W.length with old | new
    · rw [List.getElem?_append_left old] at there
      exact rel_twin_mono grows (h.own id flags' name there)
    · -- no names are bound in the new scope
      have absent (scopes : Scopes) (size : scopes.size = W.length) (text : String) :
          scopes.own? id text = none := by
        cases found : scopes.own? id text with
        | none => rfl
        | some value => exact absurd (size ▸ Scopes.lt_size_of_own? found) (Nat.not_lt.mpr new)
      rw [absent s h.size, absent s' h.size']
      exact .none

/-- The globals are spelled as they are. -/
theorem ownGlobal (h : TwinScopes σ table W globals s s') (name : String) :
    Option.Rel (Twin σ table W) (s.own? globals name) (s'.own? globals name) :=
  h.own globals [] name h.top

/-- Behind the globals there is no scope. -/
theorem owner_eq (h : TwinScopes σ table W globals s s') {name : String} {owner : ScopeId}
    (found : s.owner? globals name = some owner) : globals = owner := by
  rw [Scopes.owner?_of_parentless h.inside h.root] at found
  split at found
  · exact Option.some.inj found
  · cases found

theorem owner?_globals (h : TwinScopes σ table W globals s s') (name : String) :
    s'.owner? globals name = s.owner? globals name := by
  have inside' : globals < s'.size := h.size'.trans h.size.symm ▸ h.inside
  rw [Scopes.owner?_of_parentless h.inside h.root,
    Scopes.owner?_of_parentless inside' ((h.parents globals).trans h.root)]
  have same : s'.contains globals name = s.contains globals name := h.contains h.top name
  rw [same]

/-- The name is read where the table leads to, as that scope spells it. -/
theorem getAt (h : TwinScopes σ table W globals s s') (here : W[id]? = some flags) (hops : Nat)
    (name : String) :
    SameExcept (Twin σ table W) (s.getAt hops id name)
      (s'.getAt hops id (spelled σ (flags.has (some hops)) name)) := by
  simp only [Scopes.getAt, Scopes.ancestor, h.ancestor?]
  cases found : s.ancestor? hops id with
  | none => exact .error (.inl rfl)
  | some up =>
    have own := h.own up _ name (h.above found here)
    rw [headD_drop] at own
    rcases rel_cases own with ⟨unbound, unbound'⟩ | ⟨_, _, bound, bound', twin⟩
    · simp only [unbound, unbound']
      exact .error (.inr ⟨⟨_, rfl⟩, ⟨_, rfl⟩⟩)
    · simp only [bound, bound']
      exact .ok twin

/-- Globals are never respelled, so a name is found in both or in neither. -/
theorem get (h : TwinScopes σ table W globals s s') (name : String) (line : Nat) :
    SameExcept (Twin σ table W) (s.get globals name line) (s'.get globals name line) := by
  simp only [Scopes.get, h.owner?_globals]
  cases found : s.owner? globals name with
  | none => exact .error (.inl rfl)
  | some owner =>
    obtain rfl := h.owner_eq found
    rcases rel_cases (h.ownGlobal name) with ⟨unbound, unbound'⟩ | ⟨_, _, bound, bound', twin⟩
    · simp only [Option.bind_some, unbound, unbound']
      exact .error (.inl rfl)
    · simp only [Option.bind_some, bound, bound']
      exact .ok twin

/-- An assignment by hops is for the same scope on both sides, which spells as it says. -/
theorem targetAt (h : TwinScopes σ table W globals s s') (here : W[id]? = some flags)
    (hops : Nat) (name : String) :
    SameExcept (fun owner owner' => owner' = owner ∧
        ∃ inner, W[owner]? = some inner ∧ inner.headD false = flags.has (some hops))
      (s.targetAt hops id name) (s'.targetAt hops id (spelled σ (flags.has (some hops)) name)) := by
  simp only [Scopes.targetAt, Scopes.ancestor, h.ancestor?]
  cases found : s.ancestor? hops id with
  | none => exact .error (.inl rfl)
  | some up =>
    have there := h.above found here
    have same := h.contains there name
    rw [headD_drop] at same
    simp only [same]
    split
    · exact .ok ⟨rfl, _, there, headD_drop flags hops⟩
    · exact .error (.inr ⟨⟨_, rfl⟩, ⟨_, rfl⟩⟩)

theorem target (h : TwinScopes σ table W globals s s') (name : String) (line : Nat) :
    SameExcept (fun owner owner' => owner' = owner ∧
        ∃ inner, W[owner]? = some inner ∧ inner.headD false = false)
      (s.target globals name line) (s'.target globals name line) := by
  simp only [Scopes.target, h.owner?_globals]
  cases found : s.owner? globals name with
  | none => exact .error (.inl rfl)
  | some owner =>
    obtain rfl := h.owner_eq found
    exact .ok ⟨rfl, [], h.top, rfl⟩

end TwinScopes

/-! ## Machines -/

/-- Machines of which the second one runs respelled code. -/
structure Twins (σ : String → String) (table : Locals) (W : World) (m m' : State) : Prop where
  scopes : TwinScopes σ table W m.globals m.scopes m'.scopes
  objects : m'.objects.size = m.objects.size
  fields : ∀ id name, Option.Rel (Twin σ table W) (fieldAt? m.objects id name)
    (fieldAt? m'.objects id name)
  rest : { m' with scopes := m.scopes, objects := m.objects } = m
  locals : m.locals = table
  clocks : ∀ action ∈ m.hosts, action = .clock

namespace Twins

variable {m m' : State} {id : ScopeId} {flags : Flags}

theorem nextId (h : Twins σ table W m m') : m'.nextId = m.nextId :=
  (congrArg State.nextId h.rest :)

theorem hosts (h : Twins σ table W m m') : m'.hosts = m.hosts := (congrArg State.hosts h.rest :)

theorem globals (h : Twins σ table W m m') : m'.globals = m.globals :=
  (congrArg State.globals h.rest :)

theorem current (h : Twins σ table W m m') : m'.current = m.current :=
  (congrArg State.current h.rest :)

theorem locals' (h : Twins σ table W m m') : m'.locals = table :=
  (congrArg State.locals h.rest :).trans h.locals

theorem clock (h : Twins σ table W m m') : m'.clock = m.clock := (congrArg State.clock h.rest :)

theorem sink (h : Twins σ table W m m') : m'.sink = m.sink := (congrArg State.sink h.rest :)

/-- The next scope has the same place on both sides. -/
theorem place (h : Twins σ table W m m') : m'.scopes.size = m.scopes.size :=
  h.scopes.size'.trans h.scopes.size.symm

theorem define (proper : Spelling σ) (h : Twins σ table W m m') {id' : ScopeId}
    (same : id' = id) (here : W[id]? = some flags) (name : String) {v w : Value}
    (twin : Twin σ table W v w) :
    Twins σ table W (m.define id name v)
      (m'.define id' (spelled σ (flags.headD false) name) w) := by
  subst same
  exact { h with
    scopes := h.scopes.define proper here name twin
    rest := congrArg (fun m : State => m.define id' name v) h.rest }

theorem push (h : Twins σ table W m m') {up up' : ScopeId} (same : up' = up)
    (here : W[up]? = some flags) (isRespelled : Bool) :
    Twins σ table (W ++ [isRespelled :: flags]) (m.pushScope (some up)).2
      (m'.pushScope (some up')).2 := by
  subst same
  exact { h with
    scopes := h.scopes.push here isRespelled
    fields := fun id name => rel_twin_mono (List.prefix_append ..) (h.fields id name)
    rest := congrArg (fun m : State => (m.pushScope (some up')).2) h.rest }

/-- What the world has for the next scope. -/
theorem newest (h : Twins σ table W m m') (flags : Flags) :
    (W ++ [flags])[m.scopes.size]? = some flags := by
  rw [h.scopes.size, List.getElem?_concat_length]

theorem newObject (h : Twins σ table W m m') (c d : ObjectClass) :
    Twins σ table W (m.newObject c).2 (m'.newObject d).2 :=
  { h with
    objects := by simp [State.newObject, h.objects]
    fields := rel_newFields h.objects h.fields
    rest := congrArg (fun n : State => { n with objects := m.objects.push ∅ }) h.rest }

/-- Fields keep their names. -/
theorem setField (h : Twins σ table W m m') (o o' : Instance) (same : o'.id = o.id) (name : String)
    {v w : Value} (twin : Twin σ table W v w) :
    Twins σ table W (m.setField o name v) (m'.setField o' name w) :=
  { h with
    objects := by simp [State.setField, h.objects]
    fields := by
      simp only [State.setField, same]
      exact rel_setFields h.objects h.fields o.id name twin
    rest := congrArg (fun m : State => m.setField o name v) h.rest }

theorem takeId (h : Twins σ table W m m') :
    Twins σ table W { m with nextId := m.nextId + 1 } { m' with nextId := m'.nextId + 1 } :=
  { h with rest := congrArg (fun m : State => { m with nextId := m.nextId + 1 }) h.rest }

theorem setClock (h : Twins σ table W m m') (clock : Clock) :
    Twins σ table W { m with clock } { m' with clock } :=
  { h with rest := congrArg (fun m : State => { m with clock }) h.rest }

theorem setSink (h : Twins σ table W m m') (sink : Sink) :
    Twins σ table W { m with sink } { m' with sink } :=
  { h with rest := congrArg (fun m : State => { m with sink }) h.rest }

theorem setCurrent (h : Twins σ table W m m') (current : ScopeId) :
    Twins σ table W { m with current } { m' with current } :=
  { h with rest := congrArg (fun m : State => { m with current }) h.rest }

end Twins

end ClassScript.Machine
