import ClassScript.Proofs.Machine.Frame
import ClassScript.Proofs.Slots.Objects

/-!
# Blocks, calls and classes on both sides

Every scope that the machine opens has a map on the other side: that of a block is the
map in force, that of a call is the function's own with a slot for each parameter, and
that of a class has a slot for `super`. They stand where the walk was that visited the
piece which is run in them.
-/

namespace ClassScript.Slots

open Syntax Parsing Object Binding Machine

variable {inputs : List Input} {base : Nat} {names : List String} {p q : Pair}
  {levels : List Names} {scope : ScopeId} {map : Map}

/-! ## Blocks -/

theorem to_pushScope (parent : Option ScopeId) :
    To base names p { p with machine := (p.machine.pushScope parent).2 } :=
  .still (.of_scopes (.push p.machine.scopes _) rfl rfl rfl) rfl rfl rfl rfl

/-- A new scope has the map in force. -/
theorem sim_innerScope (related : Related inputs p)
    (tracks : Tracks p levels p.machine.current p.store.map)
    (size : base ≤ p.machine.scopes.size) :
    Sim inputs base names p innerScope mapInForce fun q scope map =>
      Stands q (∅ :: levels) scope map ∧ base ≤ scope := by
  let after : Pair := { p with machine := (p.machine.pushScope (some p.machine.current)).2 }
  exact .of_ok (q := after) (a := p.machine.scopes.size) (b := p.store.map) rfl rfl
    (to_pushScope _) (related.pushScope _) ⟨.pushScope related tracks, size⟩

/-! ## Calls -/

/-- The parameters of a call get the same values, one after another. The walk that
declares them finds no name twice. -/
theorem bind_parameters {vs ws : List Value} (row : SameRow inputs p vs ws)
    (related : Related inputs p) (parameters : List Name)
    (enough : vs.length = parameters.length) {w : Walk}
    (accepted : (parameters.foldl Walk.declareDefined w).errors = [])
    (stands : Stands p w.scopes scope map) (inner : w.scopes ≠ []) (new : base ≤ scope) :
    ∃ q, q.machine = bindAll scope (parameters.zip vs) p.machine ∧
      q.store = (bindLocals (parameters.zip ws) map p.store).2 ∧
      To base names p q ∧ Related inputs q ∧
      Stands q (parameters.foldl Walk.declareDefined w).scopes scope
        (bindLocals (parameters.zip ws) map p.store).1 := by
  induction parameters generalizing p vs ws w map with
  | nil =>
    exact ⟨p, by simp [bindAll], by simp [bindLocals], .refl .., related,
      by simpa [bindLocals] using stands⟩
  | cons parameter rest ih =>
    cases row with
    | nil => simp at enough
    | @cons v v' vs ws first others =>
      simp only [List.length_cons, Nat.add_right_cancel_iff] at enough
      rw [List.foldl_cons] at accepted
      have declared : (w.declare parameter).errors = [] := by
        have before := (Walk.notes_declareDefined_foldl (w.declareDefined parameter)
          rest).accepted accepted
        simpa [Walk.declareDefined] using before
      -- no parameter is named twice, so the slot of each one is a new home
      have homeless : (scope, parameter.text) ∉ p.homes :=
        fun among => depthOf_ne_zero declared (stands.tight _ among)
      let next : Pair := ⟨p.homes ++ [(scope, parameter.text)],
        p.machine.define scope parameter.text v, (p.store.bindLocal map parameter.text v').2⟩
      have bound : Related inputs next := related.bindLocal
        (stands.tracks.inner related.rooted inner) (stands.tracks.inside related.rooted)
        homeless first map
      have onto : To base names p next := by
        refine ⟨⟨List.prefix_append .., fun _ _ h => h, .define p.machine.scopes _ _ _, rfl⟩,
          fun home among => ?_, rfl, rfl, fun _ _ => rfl⟩
        rcases List.mem_append.mp among with old | last
        · exact .inl old
        · rw [List.mem_singleton] at last
          rw [last]
          exact .inr (.inl new)
      have stands' : Stands next (w.declareDefined parameter).scopes scope
          (p.store.bindLocal map parameter.text v').1 := by
        rw [Walk.scopes_declareDefined]
        exact stands.bindLocal related.size inner parameter.text v v'
      have inner' : (w.declareDefined parameter).scopes ≠ [] := by
        rw [Walk.scopes_declareDefined, ← List.length_pos_iff, marked_length]
        exact List.length_pos_iff.mpr inner
      obtain ⟨q, machine, store, to', related', stands''⟩ :=
        ih (others.mono onto.toWidens) bound enough accepted stands' inner'
      exact ⟨q, machine, store, onto.trans to', related', stands''⟩

/-- The scope and the map of a call stand where the function's body was visited. -/
theorem sim_callScope (related : Related inputs p) {c d : Closure}
    (same : SameClosure inputs p c d) {vs ws : List Value} (row : SameRow inputs p vs ws)
    (enough : vs.length = c.arity) (size : base ≤ p.machine.scopes.size) :
    Sim inputs base names p (callScope c vs) (callMap d ws) fun q scope map =>
      ∃ body, Seen inputs body ∧ body.node = .statements c.declaration.body ∧
        body.walk.scopes ≠ [] ∧ Stands q body.walk.scopes scope map ∧ base ≤ scope := by
  obtain ⟨⟨name, parameters, statements⟩, outer, isInitializer⟩ := c
  obtain ⟨⟨node, context, w⟩, map, seen, rfl, found, tracks, -⟩ := same.visit
  have captured : p.store.captured d = map := by rw [Store.captured, found]; rfl
  let body : Visit :=
    ⟨.statements statements, context, parameters.foldl Walk.declareDefined w.enter⟩
  have seen' : Seen inputs body := seen.child .functionBody
  have accepted := body.notes.accepted (related.sound body seen').accepted
  -- the machine opens the scope of the call; the store has only its captured map
  let opened : Pair := { p with machine := (p.machine.pushScope (some outer)).2 }
  have onto : To base names p opened := to_pushScope _
  obtain ⟨q, machine, store, bound, related', stands⟩ :=
    bind_parameters (row.mono onto.toWidens) (related.pushScope _) parameters enough accepted
      (.pushScope related tracks) (by simp) size
  have left : callScope ⟨⟨name, parameters, statements⟩, outer, isInitializer⟩ vs p.machine =
      .ok p.machine.scopes.size q.machine := by
    rw [callScope_eq, machine]
  have right : callMap d ws p.store =
      .ok (bindLocals (parameters.zip ws) map p.store).1 q.store := by
    rw [callMap_eq, same.declaration, captured, store]
  refine .of_ok left right (onto.trans bound) related' ⟨body, seen', rfl, ?_, stands, size⟩
  rw [Walk.scopes_declareDefined_foldl, ← List.length_pos_iff, declared_length,
    Walk.scopes_enter]
  exact Nat.succ_pos _

/-- The object that an initializer was bound to. -/
theorem sim_boundObject (related : Related inputs p) {c d : Closure}
    (same : SameClosure inputs p c d) (isInitializer : c.isInitializer = true) :
    Sim inputs base names p (Machine.boundObject c) (boundObject d) fun q => Same inputs q := by
  obtain ⟨v, map, -, -, found, tracks, bound⟩ := same.visit
  have captured : p.store.captured d = map := by rw [Store.captured, found]; rfl
  obtain ⟨home, slot, above, mapped, housed⟩ := tracks.locals _ _ (bound isInitializer)
  rcases rel_cases (related.slots slot _ housed) with ⟨bound, held⟩ | ⟨v, w, bound, held, same⟩
  · refine .fault (f := .internal (.missing "this" 0)) (g := empty "this") related ?_ ?_
      (.missing "this" 0)
    · simp only [Machine.boundObject, Scopes.getAt_of_missing above bound]
      rfl
    · simp only [boundObject, captured, mapped, Option.bind_some, held]
  · refine .of_ok (q := p) (a := v) (b := w) ?_ ?_ (.refl ..) related same
    · simp only [Machine.boundObject, Scopes.getAt_of_found above bound]
      rfl
    · simp only [boundObject, captured, mapped, Option.bind_some, held]

/-- What a call gives whose body has ended alike. -/
theorem sim_callResult (related : Related inputs p) {c d : Closure}
    (same : SameClosure inputs p c d) {completion completion' : Completion}
    (ended : SameCompletion inputs p completion completion') :
    Sim inputs base names p (Machine.callResult c completion) (callResult d completion')
      fun q => Same inputs q := by
  unfold Machine.callResult callResult
  rw [same.kind]
  by_cases isInitializer : c.isInitializer = true
  · rw [if_pos isInitializer, if_pos isInitializer]
    exact sim_boundObject related same isInitializer
  · rw [if_neg isInitializer, if_neg isInitializer]
    cases ended with
    | normal => exact .pure related (.data trivial)
    | returned same => exact .pure related same
    | broke => exact .fault related rfl rfl (.internal _ nofun)
    | continued => exact .fault related rfl rfl (.internal _ nofun)

/-! ## Classes -/

/-- The scope of a class's methods, which has `super` if there is a superclass. -/
theorem sim_classScope (related : Related inputs p)
    (tracks : Tracks p levels p.machine.current p.store.map) {parent parent' : Option ObjectClass}
    (same : Option.Rel (SameClass inputs p) parent parent')
    (size : base ≤ p.machine.scopes.size) :
    Sim inputs base names p (Machine.classScope parent) (classMap parent') fun q scope place =>
      ∃ map, q.store.maps[place]? = some map ∧
        Tracks q (superScopes parent levels) scope map ∧
        Option.Rel (SameClass inputs q) parent parent' := by
  cases same with
  -- without a superclass the methods close over the scope in force
  | none =>
    let after : Pair := { p with store := (p.store.capture p.store.map).2 }
    have widens : Widens p after := .capture p p.store.map
    refine .of_ok (q := after) (a := p.machine.current) (b := p.store.maps.size) rfl rfl
      (.still widens rfl rfl rfl rfl) (related.capture _)
      ⟨p.store.map, ?_, tracks.mono widens, .none⟩
    show (p.store.maps.push _)[p.store.maps.size]? = _
    exact Array.getElem?_push_size ..
  | @some c d same =>
    have onto :
        To base names p (enclosed p p.machine.current p.store.map "super" (.cls c) (.cls d)) :=
      to_enclosed "super" size
    refine .of_ok (a := p.machine.scopes.size) (b := p.store.maps.size) rfl rfl onto
      (related_enclosed related "super" (.cls same))
      ⟨_, maps_enclosed .., tracks_enclosed related tracks "super", .some (same.mono onto.toWidens)⟩

section Methods

variable {c : Context} {w : Walk} {place : Nat}
  (scopes : w.scopes = marked "this" true (∅ :: levels))
  (found : p.store.maps[place]? = some map) (tracks : Tracks p levels scope map)
include scopes found tracks

/-- The methods of a class are the same ones on both sides. -/
theorem same_methodTable {ds : List FunctionDecl} (seen : Seen inputs ⟨.methods ds, c, w⟩)
    (name : String) :
    Option.Rel (SameMethod inputs p) (methodTable scope ds)[name]?
      (methodTable place ds)[name]? := by
  rw [getElem?_methodTable, getElem?_methodTable]
  cases last : ds.reverse.find? fun d => d.name.text == name with
  | none => exact .none
  | some d =>
    have among : d ∈ ds := List.mem_reverse.mp (List.mem_of_find?_eq_some last)
    obtain ⟨c', w', visited, same⟩ := seen_method seen among
    exact .some ⟨rfl, rfl, _, levels, map, visited, rfl, same.trans scopes, found, tracks⟩

/-- A new class has the same name, superclass and methods on both sides. -/
theorem sim_newClass (related : Related inputs p) (name : String)
    {parent parent' : Option ObjectClass}
    (inherited : Option.Rel (SameClass inputs p) parent parent') {ds : List FunctionDecl}
    (seen : Seen inputs ⟨.methods ds, c, w⟩) :
    Sim inputs base names p (Machine.newClass name parent (methodTable scope ds))
      (newClass name parent' (methodTable place ds)) fun q => SameClass inputs q := by
  let after : Pair := ⟨p.homes, { p.machine with nextId := p.machine.nextId + 1 },
    { p.store with nextId := p.store.nextId + 1 }⟩
  have widens : Widens p after := .of_scopes (.refl _) rfl rfl rfl
  have methods (text : String) : Option.Rel (SameMethod inputs p)
      (ObjectClass.method? text ⟨p.machine.nextId, name, parent, methodTable scope ds⟩)
      (ObjectClass.method? text ⟨p.store.nextId, name, parent', methodTable place ds⟩) :=
    rel_method? (same_methodTable scopes found tracks seen text)
      (rel_imp (fun _ _ same => same.methods text) inherited)
  exact .of_ok (q := after) rfl rfl (.still widens rfl rfl rfl rfl) related.takeId
    ⟨related.nextId, rfl, fun text => rel_imp (fun _ _ same => SameMethod.mono widens same)
      (methods text)⟩

end Methods

/-- Filling a slot a second time leaves nothing of the first. -/
theorem setIfInBounds_push (slots : Array (Option Value)) (slot : Nat)
    (first second content : Option Value) :
    ((slots.setIfInBounds slot first).push content).setIfInBounds slot second =
      (slots.push content).setIfInBounds slot second := by
  apply Array.ext_getElem?
  intro place
  simp only [Array.getElem?_setIfInBounds, Array.size_push, Array.size_setIfInBounds,
    Array.getElem?_push]
  by_cases here : slot = place
  · simp only [if_pos here]
  · simp only [if_neg here]

theorem insert_insert (globals : Std.ExtTreeMap String Value) (name : String)
    (first second : Value) :
    (globals.insert name first).insert name second = globals.insert name second := by
  apply Std.ExtTreeMap.ext_getElem?
  intro other
  simp only [Std.ExtTreeMap.getElem?_insert]
  split <;> rfl

/-- A class needs no value for its name before it is made. -/
theorem fill_makeClass (slot : Option Nat) (name : Name) (parent : Option ObjectClass)
    (ds : List FunctionDecl) (value : Value) :
    (fill slot name.text value >>= fun _ => makeClass slot name parent ds) =
      makeClass slot name parent ds := by
  funext σ
  -- the class fills the slot again, so a value put there first is lost
  cases slot with
  | none =>
    cases parent with
    | none =>
      show EStateM.Result.ok () _ = EStateM.Result.ok () _
      simp only [insert_insert]
    | some c =>
      show EStateM.Result.ok () _ = EStateM.Result.ok () _
      simp only [insert_insert]
  | some slot =>
    cases parent with
    | none =>
      show EStateM.Result.ok () _ = EStateM.Result.ok () _
      simp only [Store.fill, Array.setIfInBounds_setIfInBounds]
    | some c =>
      show EStateM.Result.ok () _ = EStateM.Result.ok () _
      simp only [Store.fill, setIfInBounds_push, Array.size_setIfInBounds]

/-- Making a class whose name is declared and bound to nothing else. -/
theorem sim_makeClass (related : Related inputs p) {name : Name} {slot : Option Nat}
    (declared : IsSlot p name.text slot)
    (tracks : Tracks p levels p.machine.current p.store.map)
    {parent parent' : Option ObjectClass}
    (inherited : Option.Rel (SameClass inputs p) parent parent') {ds : List FunctionDecl}
    {c : Context} {w : Walk} (seen : Seen inputs ⟨.methods ds, c, w⟩)
    (scopes : w.scopes = marked "this" true (∅ :: superScopes parent levels))
    (size : base ≤ p.machine.scopes.size) :
    Sim inputs base [] p (declareClass name parent ds) (makeClass slot name parent' ds)
      fun q _ _ => IsSlot q name.text slot := by
  have nothing : Same inputs p .nil .nil := .data trivial
  -- the machine defines the name as nil before the methods close over it
  rw [← fill_makeClass slot name parent' ds .nil]
  refine (sim_fill related declared nothing).bind fun p₁ _ _ to₁ related₁ ⟨declared₁, bound⟩ => ?_
  have inherited₁ := rel_imp (fun _ _ same => SameClass.mono to₁.toWidens same) inherited
  have size₁ := Nat.le_trans size to₁.scopes.size
  refine (sim_classScope related₁ (tracks.still to₁) inherited₁ size₁).bind
    fun p₂ scope place to₂ related₂ ⟨map, found, tracks₂, inherited₂⟩ => ?_
  apply (sim_newClass scopes found tracks₂ related₂ name.text inherited₂ seen).bind
  intro p₃ cls cls' to₃ related₃ same
  have onto : To base [] p₁ p₃ := to₂.trans to₃
  have bound₃ : (p₃.machine.scopes.own? p₃.machine.current name.text).isSome := by
    rw [onto.current]
    exact onto.scopes.bound _ _ bound
  exact ((sim_fill related₃ (declared₁.mono onto (by simp)) (.cls same)).congr
    (assign_eq_define bound₃ _) rfl).imp fun _ _ _ _ _ named => named.1

end ClassScript.Slots
