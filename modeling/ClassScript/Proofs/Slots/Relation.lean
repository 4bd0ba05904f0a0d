import ClassScript.Proofs.Machine.Safe
import ClassScript.Proofs.Slots.Semantics

/-!
# Scopes and slots side by side

A machine with scopes and a store with slots that run the same program. Every slot has
a home: the scope and the name of the machine's binding that it stands for. A map
tracks the scopes of a walk if it sends each name to the slot whose home is the name's
binding at the depth that resolution noted (`Tracks`). Values are the same if they
look the same to programs and their functions captured such maps; machine and store
are related if homes and slots hold the same values (`Related`). All of this stays so
while scopes, homes and maps are only added (`Widens`).
-/

namespace ClassScript.Slots

open Syntax Parsing Object Binding Machine

/-- The scope and the name of a local variable. -/
abbrev Home := ScopeId × String

/-- A machine and a store, with the homes of the store's slots. -/
structure Pair where
  homes : List Home
  machine : Machine.State
  store : Store

/-- What was there is there in the second pair. -/
structure Widens (p q : Pair) : Prop where
  homes : p.homes <+: q.homes
  maps : ∀ (place : Nat) (map : Map), p.store.maps[place]? = some map →
    q.store.maps[place]? = some map
  scopes : p.machine.scopes.Extends q.machine.scopes
  globals : q.machine.globals = p.machine.globals

theorem rel_imp {α β : Type} {R S : α → β → Prop} (imp : ∀ a b, R a b → S a b) {x : Option α}
    {y : Option β} (h : Option.Rel R x y) : Option.Rel S x y := by
  cases h with
  | none => exact .none
  | some related => exact .some (imp _ _ related)

/-- Related options are both empty, or hold what is related. -/
theorem rel_cases {α β : Type} {R : α → β → Prop} {x : Option α} {y : Option β}
    (h : Option.Rel R x y) : x = none ∧ y = none ∨ ∃ a b, x = some a ∧ y = some b ∧ R a b := by
  cases h with
  | none => exact .inl ⟨rfl, rfl⟩
  | some related => exact .inr ⟨_, _, rfl, rfl, related⟩

/-- A method is the class's own one or else inherited, on both sides. -/
theorem rel_method? {R : Closure → Closure → Prop} {id id' : ObjectId} {name name' text : String}
    {parent parent' : Option ObjectClass} {methods methods' : Std.ExtTreeMap String Closure}
    (own : Option.Rel R methods[text]? methods'[text]?)
    (inherited : Option.Rel (fun c d => Option.Rel R (c.method? text) (d.method? text))
      parent parent') :
    Option.Rel R (ObjectClass.method? text ⟨id, name, parent, methods⟩)
      (ObjectClass.method? text ⟨id', name', parent', methods'⟩) := by
  cases inherited with
  | none => exact own
  | some above =>
    simp only [ObjectClass.method?]
    rcases rel_cases own with ⟨missing, missing'⟩ | ⟨m, m', here, here', same⟩
    · rw [missing, missing']
      exact above
    · rw [here, here']
      exact .some same

theorem prefix_getElem? {α : Type} {xs ys : List α} (h : xs <+: ys) {i : Nat} {a : α}
    (found : xs[i]? = some a) : ys[i]? = some a := by
  obtain ⟨more, rfl⟩ := h
  rw [List.getElem?_append_left (List.getElem?_eq_some_iff.mp found).1]
  exact found

namespace Widens

variable {p q r : Pair}

theorem refl (p : Pair) : Widens p p := ⟨List.prefix_rfl, fun _ _ h => h, .refl _, rfl⟩

theorem trans (first : Widens p q) (second : Widens q r) : Widens p r where
  homes := first.homes.trans second.homes
  maps place map h := second.maps place map (first.maps place map h)
  scopes := first.scopes.trans second.scopes
  globals := second.globals.trans first.globals

/-- More scopes, and the same homes and maps. -/
theorem of_scopes (scopes : p.machine.scopes.Extends q.machine.scopes) (homes : q.homes = p.homes)
    (maps : q.store.maps = p.store.maps) (globals : q.machine.globals = p.machine.globals) :
    Widens p q where
  homes := by simp only [homes, List.prefix_rfl]
  maps place map found := by
    rw [maps]
    exact found
  scopes := scopes
  globals := globals

/-- A home more, with its slot. -/
theorem allocate (p : Pair) (home : Home) (content : Option Value) :
    Widens p ⟨p.homes ++ [home], p.machine, (p.store.allocate content).2⟩ where
  homes := List.prefix_append ..
  maps _ _ found := found
  scopes := .refl _
  globals := rfl

end Widens

/-! ## Maps -/

/-- From a scope of the machine on, a map says what resolution saw: the chain has as
many scopes below the globals as the walk, and the map has the names of the walk, each
with the slot of its nearest binding. -/
structure Tracks (p : Pair) (levels : List Names) (scope : ScopeId) (map : Map) : Prop where
  chain : p.machine.scopes.ancestor? levels.length scope = some p.machine.globals
  locals : ∀ (name : String) (depth : Nat), depthOf name levels = some depth →
    ∃ home slot, p.machine.scopes.ancestor? depth scope = some home ∧
      map[name]? = some slot ∧ p.homes[slot]? = some (home, name)
  others : ∀ name : String, depthOf name levels = none → map[name]? = none

namespace Tracks

variable {p q : Pair} {levels : List Names} {scope : ScopeId} {map : Map}

theorem mono (h : Tracks p levels scope map) (widens : Widens p q) :
    Tracks q levels scope map where
  chain := by
    rw [widens.globals]
    exact widens.scopes.ancestor? h.chain
  locals name depth found := by
    obtain ⟨home, slot, above, mapped, housed⟩ := h.locals name depth found
    exact ⟨home, slot, widens.scopes.ancestor? above, mapped,
      prefix_getElem? widens.homes housed⟩
  others := h.others

/-- Only the number of scopes and the depths of names count. -/
theorem congr {levels' : List Names} (h : Tracks p levels scope map)
    (length : levels'.length = levels.length)
    (depths : ∀ name, depthOf name levels' = depthOf name levels) :
    Tracks p levels' scope map where
  chain := by rw [length]; exact h.chain
  locals name depth found := h.locals name depth (depths name ▸ found)
  others name outside := h.others name (depths name ▸ outside)

/-- A name more in the innermost scope of the walk. -/
theorem mark {map' : Map} {name : String} {slot : Nat} {state : Bool}
    (h : Tracks p levels scope map) (inner : levels ≠ [])
    (mapped : map'[name]? = some slot) (housed : p.homes[slot]? = some (scope, name))
    (others : ∀ other, other ≠ name → map'[other]? = map[other]?) :
    Tracks p (marked name state levels) scope map' where
  chain := by rw [marked_length]; exact h.chain
  locals other depth found := by
    by_cases same : other = name
    · subst same
      rw [depthOf_marked_self other state inner] at found
      cases found
      exact ⟨scope, slot, rfl, mapped, housed⟩
    · rw [depthOf_marked (Ne.symm same)] at found
      obtain ⟨home, slot', above, mapped', housed'⟩ := h.locals other depth found
      exact ⟨home, slot', above, (others other same).trans mapped', housed'⟩
  others other outside := by
    by_cases same : other = name
    · subst same
      rw [depthOf_marked_self other state inner] at outside
      cases outside
    · rw [depthOf_marked (Ne.symm same)] at outside
      exact (others other same).trans (h.others other outside)

/-- A scope more, which has no names yet. -/
theorem enter {inner : ScopeId} (h : Tracks p levels scope map)
    (up : p.machine.scopes.parent? inner = some scope) :
    Tracks p (∅ :: levels) inner map where
  chain := by
    simp only [List.length_cons, Scopes.ancestor?, up]
    exact h.chain
  locals name depth found := by
    rw [depthOf_enter, Option.map_eq_some_iff] at found
    obtain ⟨depth, found, rfl⟩ := found
    obtain ⟨home, slot, above, rest⟩ := h.locals name depth found
    refine ⟨home, slot, ?_, rest⟩
    simp only [Scopes.ancestor?, up]
    exact above
  others name outside := by
    rw [depthOf_enter, Option.map_eq_none_iff] at outside
    exact h.others name outside

end Tracks

/-! ## Values -/

section Values

variable (inputs : List Input) (p : Pair)

/-- The same function: its declaration was visited in scopes that its captured map
tracks. An initializer has its object in the innermost of them. -/
structure SameClosure (c d : Closure) : Prop where
  declaration : d.declaration = c.declaration
  kind : d.isInitializer = c.isInitializer
  visit : ∃ v map, Seen inputs v ∧ v.node = .function c.declaration ∧
    p.store.maps[d.scope]? = some map ∧ Tracks p v.walk.scopes c.scope map ∧
      (c.isInitializer = true → depthOf "this" v.walk.scopes = some 0)

/-- The same method, which was visited in one scope more, that of `this`. -/
structure SameMethod (c d : Closure) : Prop where
  declaration : d.declaration = c.declaration
  kind : d.isInitializer = c.isInitializer
  visit : ∃ v outer map, Seen inputs v ∧ v.node = .function c.declaration ∧
    v.walk.scopes = marked "this" true (∅ :: outer) ∧
      p.store.maps[d.scope]? = some map ∧ Tracks p outer c.scope map

structure SameClass (c d : ObjectClass) : Prop where
  id : d.id = c.id
  name : d.name = c.name
  methods : ∀ name, Option.Rel (SameMethod inputs p) (c.method? name) (d.method? name)

/-- The same value to a program. -/
inductive Same : Value → Value → Prop
  | data {v : Value} (data : IsData v) : Same v v
  | host (f : HostRef) : Same (.host f) (.host f)
  | function (id : ObjectId) {c d : Closure} (same : SameClosure inputs p c d) :
      Same (.function id c) (.function id d)
  | cls {c d : ObjectClass} (same : SameClass inputs p c d) : Same (.cls c) (.cls d)
  | object (id : ObjectId) {c d : ObjectClass} (same : SameClass inputs p c d) :
      Same (.object ⟨id, c⟩) (.object ⟨id, d⟩)

/-- The same values in a row. -/
inductive SameRow : List Value → List Value → Prop
  | nil : SameRow [] []
  | cons {v w vs ws} (first : Same inputs p v w) (rest : SameRow vs ws) :
      SameRow (v :: vs) (w :: ws)

/-- The same way to end. -/
inductive SameCompletion : Completion → Completion → Prop
  | normal : SameCompletion .normal .normal
  | broke : SameCompletion .broke .broke
  | continued : SameCompletion .continued .continued
  | returned {v w : Value} (same : Same inputs p v w) :
      SameCompletion (.returned v) (.returned w)

end Values

section Widening

variable {inputs : List Input} {p q : Pair} (widens : Widens p q)
include widens

theorem SameClosure.mono {c d : Closure} (h : SameClosure inputs p c d) :
    SameClosure inputs q c d where
  declaration := h.declaration
  kind := h.kind
  visit := by
    obtain ⟨v, map, seen, node, captured, tracks, bound⟩ := h.visit
    exact ⟨v, map, seen, node, widens.maps _ _ captured, tracks.mono widens, bound⟩

theorem SameMethod.mono {c d : Closure} (h : SameMethod inputs p c d) :
    SameMethod inputs q c d where
  declaration := h.declaration
  kind := h.kind
  visit := by
    obtain ⟨v, outer, map, seen, node, shape, captured, tracks⟩ := h.visit
    exact ⟨v, outer, map, seen, node, shape, widens.maps _ _ captured, tracks.mono widens⟩

theorem SameClass.mono {c d : ObjectClass} (h : SameClass inputs p c d) :
    SameClass inputs q c d where
  id := h.id
  name := h.name
  methods name := rel_imp (fun _ _ same => same.mono widens) (h.methods name)

theorem Same.mono {v w : Value} (h : Same inputs p v w) : Same inputs q v w := by
  cases h with
  | data data => exact .data data
  | host f => exact .host f
  | function id same => exact .function id (same.mono widens)
  | cls same => exact .cls (same.mono widens)
  | object id same => exact .object id (same.mono widens)

/-- What is held on both sides, or on neither, stays so. -/
theorem Widens.rel {x y : Option Value} (h : Option.Rel (Same inputs p) x y) :
    Option.Rel (Same inputs q) x y :=
  rel_imp (fun _ _ same => same.mono widens) h

theorem SameRow.mono {vs ws : List Value} (h : SameRow inputs p vs ws) :
    SameRow inputs q vs ws := by
  induction h with
  | nil => exact .nil
  | cons first _ ih => exact .cons (first.mono widens) ih

theorem SameCompletion.mono {c d : Completion} (h : SameCompletion inputs p c d) :
    SameCompletion inputs q c d := by
  cases h with
  | normal => exact .normal
  | broke => exact .broke
  | continued => exact .continued
  | returned same => exact .returned (same.mono widens)

end Widening

end ClassScript.Slots
