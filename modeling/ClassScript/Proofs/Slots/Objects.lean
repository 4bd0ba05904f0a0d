import ClassScript.Proofs.Slots.Places

/-!
# Functions and objects on both sides

Functions are made where their visit is, and methods are bound in a new scope that has
`this`. With these, objects, properties, the clock and the output are read and changed
alike on both sides.
-/

namespace ClassScript.Slots

open Syntax Parsing Object Binding Machine

variable {inputs : List Input} {base : Nat} {names : List String} {p q : Pair}
  {levels : List Names} {scope : ScopeId} {map : Map}

/-! ## Scopes of one name -/

/-- A scope more inside a scope, which binds one name, and the map of it captured. -/
def enclosed (p : Pair) (outer : ScopeId) (map : Map) (name : String) (v w : Value) : Pair where
  homes := p.homes ++ [(p.machine.scopes.size, name)]
  machine := (p.machine.pushScope (some outer)).2.define p.machine.scopes.size name v
  store := ((p.store.bindLocal map name w).2.capture (p.store.bindLocal map name w).1).2

section Enclosed

variable (related : Related inputs p) (tracks : Tracks p levels scope map) (name : String)
  {v w : Value}

/-- A scope of one name is new, so nothing that was there is changed. -/
theorem to_enclosed (size : base ≤ p.machine.scopes.size) :
    To base names p (enclosed p scope map name v w) where
  homes := List.prefix_append ..
  maps := (Widens.capture ⟨p.homes, p.machine, (p.store.bindLocal map name w).2⟩ _).maps
  scopes := (Scopes.Extends.push p.machine.scopes _).trans (.define ..)
  globals := rfl
  fresh home among := by
    rcases List.mem_append.mp among with old | last
    · exact .inl old
    · rw [List.mem_singleton] at last
      rw [last]
      exact .inr (.inl size)
  current := rfl
  isLocal := rfl
  map _ _ := rfl

include related

/-- A scope of one name binds it to the same value on both sides. -/
theorem related_enclosed (same : Same inputs p v w) :
    Related inputs (enclosed p scope map name v w) := by
  have pushed := related.pushScope (some scope)
  have widens : Widens p { p with machine := (p.machine.pushScope (some scope)).2 } :=
    .of_scopes (.push p.machine.scopes _) rfl rfl rfl
  have inside : p.machine.scopes.size < (p.machine.pushScope (some scope)).2.scopes.size := by
    simp [State.pushScope]
  have homeless : (p.machine.scopes.size, name) ∉ p.homes :=
    fun among => Nat.lt_irrefl _ (related.inner _ among).2
  have bound := pushed.bindLocal (Nat.ne_of_gt related.rooted.inside) inside homeless
    (same.mono widens) map
  exact bound.capture _

include tracks

/-- The map of a scope of one name tracks the walk with that scope in front. -/
theorem tracks_enclosed :
    Tracks (enclosed p scope map name v w) (marked name true (∅ :: levels))
      p.machine.scopes.size (p.store.bindLocal map name w).1 := by
  have stands := (Stands.pushScope related tracks).bindLocal related.size (by simp) name v w
  exact stands.tracks.mono (.capture ..)

end Enclosed

theorem maps_enclosed (p : Pair) (scope : ScopeId) (map : Map) (name : String) (v w : Value) :
    (enclosed p scope map name v w).store.maps[p.store.maps.size]? =
      some (p.store.bindLocal map name w).1 := by
  show (p.store.maps.push _)[p.store.maps.size]? = _
  exact Array.getElem?_push_size ..

/-! ## Functions -/

section Functions

variable (related : Related inputs p)
include related

/-- The next identity is taken on both sides. -/
theorem Related.takeId : Related inputs
    ⟨p.homes, { p.machine with nextId := p.machine.nextId + 1 },
      { p.store with nextId := p.store.nextId + 1 }⟩ := by
  refine related.quiet (.of_scopes (.refl _) rfl rfl rfl) rfl rfl rfl rfl rfl rfl rfl
    rfl ?_
  simp only [Store.rest, Slots.rest, related.nextId, related.hosts, related.clock, related.sink]

/-- A value for the same function. -/
theorem sim_functionValue {c d : Closure} (same : SameClosure inputs p c d) :
    Sim inputs base names p (fun m => .ok (m.newFunction c).1 (m.newFunction c).2)
      (fun σ => .ok (σ.newFunction d).1 (σ.newFunction d).2) fun q => Same inputs q := by
  let after : Pair := ⟨p.homes, (p.machine.newFunction c).2, (p.store.newFunction d).2⟩
  have widens : Widens p after := .of_scopes (.refl _) rfl rfl rfl
  refine .of_ok (q := after) rfl rfl (.still widens rfl rfl rfl rfl) related.takeId ?_
  show Same inputs after (.function p.machine.nextId c) (.function p.store.nextId d)
  rw [related.nextId]
  exact .function _ (same.mono widens)

/-- A function that is declared where its visit is. -/
theorem sim_newFunction {d : FunctionDecl} {v : Visit} (seen : Seen inputs v)
    (node : v.node = .function d)
    (tracks : Tracks p v.walk.scopes p.machine.current p.store.map) :
    Sim inputs base names p (Machine.newFunction d) (newFunction d)
      fun q => Same inputs q := by
  let captured : Pair := { p with store := (p.store.capture p.store.map).2 }
  have widens : Widens p captured := .capture p p.store.map
  have same : SameClosure inputs captured ⟨d, p.machine.current, false⟩
      ⟨d, p.store.maps.size, false⟩ := by
    refine ⟨rfl, rfl, v, p.store.map, seen, node, ?_, tracks.mono widens, nofun⟩
    show (p.store.maps.push _)[p.store.maps.size]? = _
    exact Array.getElem?_push_size ..
  let capture : Run Nat := fun σ => .ok (σ.capture σ.map).1 (σ.capture σ.map).2
  show Sim inputs base names p _ (capture >>= fun place σ =>
    .ok (σ.newFunction ⟨d, place, false⟩).1 (σ.newFunction ⟨d, place, false⟩).2) _
  exact .right (q := captured) rfl rfl (.still widens rfl rfl rfl rfl) (related.capture _)
    (sim_functionValue (related.capture _) same)

/-- A method is bound to an object in a scope of its own, which has `this`. -/
theorem sim_bindMethod {c d : Closure} {o o' : Instance} (method : SameMethod inputs p c d)
    (object : Same inputs p (.object o) (.object o')) (size : base ≤ p.machine.scopes.size) :
    Sim inputs base names p (Machine.bindMethod c o) (bindMethod d o')
      fun q bound bound' => bound.declaration = c.declaration ∧
        SameClosure inputs q bound bound' := by
  obtain ⟨v, outer, map, seen, node, shape, found, tracks⟩ := method.visit
  have captured : p.store.captured d = map := by rw [Store.captured, found]; rfl
  have left : Machine.bindMethod c o p.machine = .ok { c with scope := p.machine.scopes.size }
      (enclosed p c.scope map "this" (.object o) (.object o')).machine := rfl
  have right : bindMethod d o' p.store = .ok { d with scope := p.store.maps.size }
      (enclosed p c.scope map "this" (.object o) (.object o')).store := by
    rw [← captured]
    rfl
  refine .of_ok left right (to_enclosed _ size) (related_enclosed related _ object)
    ⟨rfl, method.declaration, method.kind, v, _, seen, node, maps_enclosed .., ?_, fun _ => ?_⟩
  · rw [shape]
    exact tracks_enclosed related tracks "this"
  · rw [shape]
    exact depthOf_marked_self "this" true (by simp)

/-- A method read off an object is bound to it on both sides. -/
theorem sim_methodValue {c d : Closure} {o o' : Instance} (method : SameMethod inputs p c d)
    (object : Same inputs p (.object o) (.object o')) (size : base ≤ p.machine.scopes.size) :
    Sim inputs base names p (Machine.methodValue c o) (methodValue d o')
      fun q => Same inputs q := by
  exact (sim_bindMethod related method object size).bind
    fun q a b _ related same => sim_functionValue related same.2

end Functions

/-! ## Objects -/

section Objects

variable (related : Related inputs p)
include related

/-- A new object has the same identity on both sides, and no fields. -/
theorem sim_newObject {c d : ObjectClass} (same : SameClass inputs p c d) :
    Sim inputs base names p (Machine.newObject c) (newObject d)
      fun q o o' => o.cls = c ∧ o'.cls = d ∧ Same inputs q (.object o) (.object o') := by
  let after : Pair := ⟨p.homes, (p.machine.newObject c).2, (p.store.newObject d).2⟩
  have widens : Widens p after := .of_scopes (.refl _) rfl rfl rfl
  refine .of_ok (q := after) rfl rfl (.still widens rfl rfl rfl rfl) related.newObject
    ⟨rfl, rfl, ?_⟩
  show Same inputs after (.object ⟨p.machine.objects.size, c⟩) (.object ⟨p.store.objects.size, d⟩)
  rw [related.objects]
  exact .object _ (same.mono widens)

/-- A property is read alike: the same field, or the same method bound to the object. -/
theorem sim_readProperty {v w : Value} (same : Same inputs p v w) (name : Name)
    (size : base ≤ p.machine.scopes.size) :
    Sim inputs base names p (Machine.readProperty v name) (readProperty w name)
      fun q => Same inputs q := by
  cases same with
  | @object id c d cls =>
    rcases rel_cases (related.fields id name.text) with ⟨unset, unset'⟩ | ⟨v, w, set, set', same⟩
    -- no field of the name, so the class decides
    · have unset : p.machine.field? ⟨id, c⟩ name.text = none := unset
      have unset' : p.store.field? ⟨id, d⟩ name.text = none := unset'
      rcases rel_cases (cls.methods name.text) with
        ⟨missing, missing'⟩ | ⟨m, m', found, found', method⟩
      · refine .fault (f := .undefinedProperty name.text name.line) related ?_ ?_ (.refl _)
        · simp only [Machine.readProperty, unset, missing]
        · simp only [readProperty, unset', missing']
      · refine (sim_methodValue related method (.object id cls) size).congr ?_ ?_
        · simp only [Machine.readProperty, unset, found]
        · simp only [readProperty, unset', found']
    -- a field hides a method of the same name
    · have set : p.machine.field? ⟨id, c⟩ name.text = some v := set
      have set' : p.store.field? ⟨id, d⟩ name.text = some w := set'
      refine .of_ok (q := p) (a := v) (b := w) ?_ ?_ (.refl ..) related same
      · simp only [Machine.readProperty, set]
      · simp only [readProperty, set']
  | @data v data =>
    cases v <;> first
      | exact data.elim
      | exact .fault (f := .noProperties name.line) related rfl rfl (.refl _)
  | _ => exact .fault (f := .noProperties name.line) related rfl rfl (.refl _)

/-- A write to a field is seen alike on both sides. -/
theorem sim_writeField {o o' : Instance} (object : Same inputs p (.object o) (.object o'))
    (name : String) {v w : Value} (same : Same inputs p v w) :
    Sim inputs base names p (Machine.writeField o name v) (writeField o' name w)
      fun _ _ _ => True := by
  cases object with
  | data data => exact data.elim
  | @object id c d cls =>
    let after : Pair :=
      ⟨p.homes, p.machine.setField ⟨id, c⟩ name v, p.store.setField ⟨id, d⟩ name w⟩
    have widens : Widens p after := .of_scopes (.refl _) rfl rfl rfl
    exact .of_ok (q := after) rfl rfl (.still widens rfl rfl rfl rfl)
      (related.setField id name same) trivial

/-- `super` where resolution found it, with `this` in the scope next to it. -/
theorem sim_readSuper (tracks : Tracks p levels p.machine.current p.store.map) {id : NodeId}
    (method : Name) {depth : Nat} (noted : p.machine.locals.depth? id = some (depth + 1))
    (this : depthOf "this" levels = some depth)
    (super : depthOf "super" levels = some (depth + 1))
    (size : base ≤ p.machine.scopes.size) :
    Sim inputs base names p (Machine.readSuper id method) (readSuper method)
      fun q => Same inputs q := by
  obtain ⟨home, slot, above, mapped, housed⟩ := tracks.locals _ _ this
  obtain ⟨home', slot', above', mapped', housed'⟩ := tracks.locals _ _ super
  have otherObject : ∀ name hops, InternalFault.thisNotObject = .missing name hops →
      name ∈ reserved := by
    rintro _ _ ⟨⟩
  have otherClass : ∀ name hops, InternalFault.superNotClass = .missing name hops →
      name ∈ reserved := by
    rintro _ _ ⟨⟩
  -- what is not a class and an object cannot be there, so any fault will do
  have stuck (cause : InternalFault)
      (special : ∀ name hops, cause = .missing name hops → name ∈ reserved)
      (left : Machine.readSuper id method p.machine = .error (.fault (.internal cause)) p.machine)
      (right : readSuper method p.store =
        .error (.fault (.internal .unresolvedSuper)) p.store) :
      Sim inputs base names p (Machine.readSuper id method) (readSuper method)
        fun q => Same inputs q :=
    .fault related left right (.internal _ special)
  rcases rel_cases (related.slots slot' _ housed') with
    ⟨bound', held'⟩ | ⟨v', w', bound', held', same'⟩
  · refine stuck (.missing "super" (depth + 1)) ?_ ?_ ?_
    · rintro _ _ ⟨⟩
      simp [reserved]
    · simp only [Machine.readSuper, noted, Scopes.getAt_of_missing above' bound']
    · simp only [readSuper, mapped', Option.bind_some, held']
  · have superclass := Scopes.getAt_of_found above' bound'
    cases same' with
    | @cls c d cls =>
      rcases rel_cases (related.slots slot _ housed) with
        ⟨bound, held⟩ | ⟨v, w, bound, held, same⟩
      · refine stuck (.missing "this" depth) ?_ ?_ ?_
        · rintro _ _ ⟨⟩
          simp [reserved]
        · simp only [Machine.readSuper, noted, superclass, Scopes.getAt_of_missing above bound]
        · simp only [readSuper, mapped', mapped, Option.bind_some, held', held]
      · have receiver := Scopes.getAt_of_found above bound
        cases same with
        | @object object a b of =>
          rcases rel_cases (cls.methods method.text) with
            ⟨missing, missing'⟩ | ⟨m, m', found, found', same⟩
          · refine .fault (f := .undefinedProperty method.text method.line) related ?_ ?_
              (.refl _)
            · simp only [Machine.readSuper, noted, superclass, receiver, missing]
            · simp only [readSuper, mapped', mapped, Option.bind_some, held', held, missing']
          · refine (sim_methodValue related same (.object object of) size).congr ?_ ?_
            · simp only [Machine.readSuper, noted, superclass, receiver, found]
            · simp only [readSuper, mapped', mapped, Option.bind_some, held', held, found']
        | data data =>
          cases v <;> first
            | exact data.elim
            | exact stuck .thisNotObject otherObject
                (by simp only [Machine.readSuper, noted, superclass, receiver])
                (by simp only [readSuper, mapped', mapped, Option.bind_some, held', held])
        | _ =>
          exact stuck .thisNotObject otherObject
            (by simp only [Machine.readSuper, noted, superclass, receiver])
            (by simp only [readSuper, mapped', mapped, Option.bind_some, held', held])
    | data data =>
      cases v' <;> first
        | exact data.elim
        | exact stuck .superNotClass otherClass
            (by simp only [Machine.readSuper, noted, superclass])
            (by simp only [readSuper, mapped', Option.bind_some, held'])
    | _ =>
      exact stuck .superNotClass otherClass
        (by simp only [Machine.readSuper, noted, superclass])
        (by simp only [readSuper, mapped', Option.bind_some, held'])

/-- Values that are the same are printed as the same line, or miss the sink alike. -/
theorem sim_print {v w : Value} (same : Same inputs p v w) :
    Sim inputs base names p (Machine.print v) (print w) fun _ _ _ => True := by
  let written := p.machine.sink.write (v.display ++ "\n").toUTF8
  let after : Pair :=
    ⟨p.homes, { p.machine with sink := written.2 }, { p.store with sink := written.2 }⟩
  have left : Machine.print v p.machine =
      if written.1 then .ok () after.machine else .error (.fault .output) after.machine := rfl
  have right : print w p.store =
      if written.1 then .ok () after.store else .error (.fault .output) after.store := by
    simp only [print, same.looks.display, related.sink, after, written]
  cases fits : written.1 with
  | true =>
    rw [fits, if_pos rfl] at left right
    have widens : Widens p after := .of_scopes (.refl _) rfl rfl rfl
    refine .of_ok left right (.still widens rfl rfl rfl rfl)
      (related.quiet widens rfl rfl rfl rfl rfl rfl rfl rfl ?_) trivial
    simp only [Store.rest, Slots.rest, after, related.nextId, related.hosts, related.clock]
  | false =>
    rw [fits, if_neg nofun] at left right
    exact .of_error left right (.fault (.refl _)) rfl

/-- The host has no function but the clock. -/
theorem sim_callHost (f : HostRef) (vs ws : List Value) (line : Nat) :
    Sim inputs base names p (Machine.callHost f vs line) (callHost f ws line)
      fun q => Same inputs q := by
  cases found : p.machine.hosts[f.id]? with
  | none =>
    refine .fault (f := .notCallable line) related ?_ ?_ (.refl _)
    · simp only [Machine.callHost, found]
    · simp only [callHost, related.hosts, found]
  | some action =>
    -- the clock is the only host function there is
    have clock : action = .clock := related.clocks action (Array.mem_of_getElem? found)
    subst clock
    let taken := p.machine.clock.taken
    let clock : Clock := { p.machine.clock with taken := taken + 1 }
    let after : Pair := ⟨p.homes, { p.machine with clock }, { p.store with clock }⟩
    have left : Machine.callHost f vs line p.machine =
        .ok (.number (p.machine.clock.readings taken)) after.machine := by
      simp only [Machine.callHost, found, after, clock, taken]
    have right : callHost f ws line p.store =
        .ok (.number (p.machine.clock.readings taken)) after.store := by
      simp only [callHost, related.hosts, found, related.clock, after, clock, taken]
    have widens : Widens p after := .of_scopes (.refl _) rfl rfl rfl
    refine .of_ok left right (.still widens rfl rfl rfl rfl)
      (related.quiet widens rfl rfl rfl rfl rfl rfl rfl rfl ?_) (.data trivial)
    simp only [Store.rest, Slots.rest, after, related.nextId, related.hosts, related.sink]

/-- A call is refused on both sides or on neither. -/
theorem sim_checkCall {v w : Value} (same : Same inputs p v w) {vs ws : List Value}
    (length : ws.length = vs.length) (line : Nat) :
    Sim inputs base names p (Machine.checkCall v vs line) (checkCall w ws line)
      fun _ _ _ => ∃ arity, v.arity? = some arity ∧ vs.length = arity := by
  unfold Machine.checkCall checkCall
  rw [same.looks.arity?, length]
  cases found : v.arity? with
  | none => exact .fault (f := .notCallable line) related rfl rfl (.refl _)
  | some expected =>
    dsimp only
    by_cases enough : vs.length = expected
    · rw [if_pos enough, if_pos enough]
      exact .pure related ⟨expected, rfl, enough⟩
    · rw [if_neg enough, if_neg enough]
      exact .fault related rfl rfl (.refl _)

theorem sim_asSuperclass {v w : Value} (same : Same inputs p v w) (line : Nat) :
    Sim inputs base names p (Machine.asSuperclass v line) (asSuperclass w line)
      fun q => SameClass inputs q := by
  cases same with
  | cls same => exact .pure related same
  | @data v data =>
    cases v <;> first
      | exact data.elim
      | exact .fault (f := .notAClass line) related rfl rfl (.refl _)
  | _ => exact .fault (f := .notAClass line) related rfl rfl (.refl _)

end Objects

end ClassScript.Slots
