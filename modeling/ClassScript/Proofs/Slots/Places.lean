import ClassScript.Proofs.Slots.Steps

/-!
# Places

A scope and a map stand where a walk was if the map tracks the walk's scopes and the
scope is the home of no other names than the walk has there (`Stands`). The current
scope and the map in force do so at every piece of a program that is run (`Place`).
There a name is read, written, declared and given its value alike on both sides.
-/

namespace ClassScript.Slots

open Syntax Parsing Object Binding Machine

/-- A scope and a map stand where a walk was. -/
structure Stands (p : Pair) (levels : List Names) (scope : ScopeId) (map : Map) : Prop where
  tracks : Tracks p levels scope map
  tight : ∀ name, (scope, name) ∈ p.homes → depthOf name levels = some 0

/-- The pair stands where a walk was. Declarations are local inside the walk's first
scope. -/
structure Place (p : Pair) (levels : List Names) : Prop where
  stands : Stands p levels p.machine.current p.store.map
  isLocal : p.store.isLocal = decide (0 < levels.length)

variable {inputs : List Input} {p q : Pair} {levels : List Names} {scope : ScopeId} {map : Map}

/-! ## Places and what a run changes -/

namespace Tracks

theorem outer (h : Tracks p [] scope map) : scope = p.machine.globals :=
  Option.some.inj h.chain

/-- Inside a walk's first scope there is a parent. -/
theorem parent (h : Tracks p levels scope map) (inner : levels ≠ []) :
    (p.machine.scopes.parent? scope).isSome := by
  have chain := h.chain
  cases levels with
  | nil => exact absurd rfl inner
  | cons top outer =>
    simp only [List.length_cons, Scopes.ancestor?] at chain
    cases up : p.machine.scopes.parent? scope with
    | none => rw [up] at chain; cases chain
    | some parent => rfl

/-- Inside a block, the current scope is not that of the globals. -/
theorem inner (h : Tracks p levels scope map) (rooted : Rooted p.machine)
    (inner : levels ≠ []) : scope ≠ p.machine.globals := by
  rintro rfl
  have up := h.parent inner
  rw [rooted.root] at up
  cases up

theorem inside (h : Tracks p levels scope map) (rooted : Rooted p.machine) :
    scope < p.machine.scopes.size := by
  by_cases top : levels = []
  · subst top
    rw [h.outer]
    exact rooted.inside
  · obtain ⟨parent, up⟩ := Option.isSome_iff_exists.mp (h.parent top)
    exact Scopes.lt_size_of_parent? up

/-- Only what the map says of names counts. -/
theorem remap {map' : Map} (h : Tracks p levels scope map)
    (same : ∀ name : String, map'[name]? = map[name]?) : Tracks p levels scope map' where
  chain := h.chain
  locals name depth found := by
    rw [same]
    exact h.locals name depth found
  others name outside := (same name).trans (h.others name outside)

/-- Where no name is declared, the map in force still tracks the walk. -/
theorem still {base : Nat} (h : Tracks p levels p.machine.current p.store.map)
    (onto : To base [] p q) : Tracks q levels q.machine.current q.store.map := by
  rw [onto.current]
  exact (h.mono onto.toWidens).remap fun name => onto.map name (by simp)

end Tracks

/-- Only the number of scopes and the depths of names count. -/
theorem Stands.congr {levels' : List Names} (h : Stands p levels scope map)
    (length : levels'.length = levels.length)
    (depths : ∀ name, depthOf name levels' = depthOf name levels) :
    Stands p levels' scope map where
  tracks := h.tracks.congr length depths
  tight name among := (depths name).trans (h.tight name among)

/-- A name more, with an empty slot of its own. -/
theorem Stands.allocate (h : Stands p levels scope map) (size : p.homes.length = p.store.slots.size)
    (inner : levels ≠ []) (name : String) (state : Bool) :
    Stands ⟨p.homes ++ [(scope, name)], p.machine, (p.store.allocate none).2⟩
      (marked name state levels) scope (map.insert name (p.store.allocate none).1) where
  tracks := by
    have widens := Widens.allocate p (scope, name) none
    have mapped : (map.insert name (p.store.allocate none).1)[name]? =
        some (p.store.allocate none).1 := by simp
    refine (h.tracks.mono widens).mark inner mapped ?_ fun other differ => ?_
    · show (p.homes ++ [(scope, name)])[p.store.slots.size]? = _
      rw [← size]
      exact List.getElem?_concat_length ..
    · rw [Std.ExtTreeMap.getElem?_insert, if_neg (by simpa using Ne.symm differ)]
  tight other among := by
    -- the name itself is bound in the first scope, and the others are where they were
    by_cases same : name = other
    · subst same
      exact depthOf_marked_self name state inner
    · rw [depthOf_marked same]
      rcases List.mem_append.mp among with old | last
      · exact h.tight other old
      · simp only [List.mem_singleton, Prod.mk.injEq, true_and] at last
        exact absurd last.symm same

/-- A name more, with a slot that is filled at once. -/
theorem Stands.bindLocal (h : Stands p levels scope map)
    (size : p.homes.length = p.store.slots.size) (inner : levels ≠ []) (name : String)
    (v w : Value) :
    Stands ⟨p.homes ++ [(scope, name)], p.machine.define scope name v,
      (p.store.bindLocal map name w).2⟩ (marked name true levels) scope
      (p.store.bindLocal map name w).1 where
  tracks := by
    refine (h.allocate size inner name true).tracks.mono
      (.of_scopes ?_ rfl rfl rfl)
    exact .define p.machine.scopes scope name v
  tight := (h.allocate size inner name true).tight

/-- A new scope, which is the home of no name. -/
theorem Stands.pushScope (related : Related inputs p) (tracks : Tracks p levels scope map) :
    Stands { p with machine := (p.machine.pushScope (some scope)).2 } (∅ :: levels)
      p.machine.scopes.size map where
  tracks := by
    have widens : Widens p { p with machine := (p.machine.pushScope (some scope)).2 } :=
      .of_scopes (.push p.machine.scopes _) rfl rfl rfl
    exact (tracks.mono widens).enter (Scopes.parent?_push_self ..)
  tight name among := absurd (related.inner _ among).2 (Nat.lt_irrefl _)

/-- What stands somewhere still stands there when another scope is current. -/
theorem Stands.goto (h : Stands p levels scope map) (current : ScopeId) (force : Map)
    (isLocal : Bool) :
    Stands ⟨p.homes, { p.machine with current },
      { p.store with map := force, isLocal }⟩ levels scope map :=
  ⟨h.tracks.mono (.of_scopes (.refl _) rfl rfl rfl), h.tight⟩

namespace Place

/-- A place depends on the walk by the number of its scopes and the depths of its names only. -/
theorem congr {levels' : List Names} (h : Place p levels)
    (length : levels'.length = levels.length)
    (depths : ∀ name, depthOf name levels' = depthOf name levels) : Place p levels' where
  stands := h.stands.congr length depths
  isLocal := by
    rw [length]
    exact h.isLocal

/-- A run that adds no home in the current scope. -/
theorem still {base : Nat} (h : Place p levels) (onto : To base [] p q)
    (below : p.machine.current < base) : Place q levels where
  stands := by
    refine ⟨h.stands.tracks.still onto, fun name among => ?_⟩
    rw [onto.current] at among
    rcases onto.fresh _ among with old | new | ⟨-, none⟩
    · exact h.stands.tight name old
    · exact absurd new (Nat.not_le_of_lt below)
    · cases none
  isLocal := onto.isLocal.trans h.isLocal

end Place

/-! ## Slots of declared names -/

/-- The slot of a name that is declared in the current scope. A global has none. -/
inductive IsSlot (p : Pair) (name : String) : Option Nat → Prop
  | local {slot : Nat} (mapped : p.store.map[name]? = some slot)
      (housed : p.homes[slot]? = some (p.machine.current, name)) : IsSlot p name (some slot)
  | global (unmapped : p.store.map[name]? = none)
      (outer : p.machine.current = p.machine.globals) : IsSlot p name none

/-- The names are declared in the current scope. -/
def Named (p : Pair) (names : List String) : Prop := ∀ name ∈ names, ∃ slot, IsSlot p name slot

/-- A slot stays that of its name as long as the name is not declared again. -/
theorem IsSlot.mono {base : Nat} {names : List String} {name : String} {slot : Option Nat}
    (h : IsSlot p name slot) (onto : To base names p q) (outside : name ∉ names) :
    IsSlot q name slot := by
  cases h with
  | «local» mapped housed =>
    refine .local ((onto.map name outside).trans mapped) ?_
    rw [onto.current]
    exact prefix_getElem? onto.homes housed
  | global unmapped outer =>
    exact .global ((onto.map name outside).trans unmapped)
      ((onto.current.trans outer).trans onto.globals.symm)

/-- What is declared stays so, whatever is declared after it. -/
theorem Named.append {base : Nat} {first second : List String} (h : Named p first)
    (onto : To base second p q) (later : Named q second) : Named q (first ++ second) := by
  intro name among
  by_cases again : name ∈ second
  · exact later name again
  · rcases List.mem_append.mp among with early | late
    · obtain ⟨slot, declared⟩ := h name early
      exact ⟨slot, declared.mono onto again⟩
    · exact absurd late again

/-! ## Behind declarations -/

section After

variable {base : Nat} {names : List String} (related : Related inputs q)
  (onto : To base names p q) (named : Named q names)
include related onto named

/-- Outside of local scopes the declared names are global, and have no slots. -/
theorem Place.after_top (h : Place p []) : Place q [] := by
  have outer : q.machine.current = q.machine.globals :=
    (onto.current.trans h.stands.tracks.outer).trans onto.globals.symm
  have homeless (name : String) : (q.machine.current, name) ∉ q.homes := by
    intro among
    exact (related.inner _ among).1 outer
  have unmapped (name : String) : q.store.map[name]? = none := by
    by_cases inside : name ∈ names
    · obtain ⟨slot, declared⟩ := named name inside
      cases declared with
      | «local» _ housed => exact absurd (List.mem_of_getElem? housed) (homeless name)
      | global unmapped _ => exact unmapped
    · rw [onto.map name inside]
      exact h.stands.tracks.others name rfl
  have tracks : Tracks q [] q.machine.current q.store.map :=
    ⟨congrArg some outer, nofun, fun name _ => unmapped name⟩
  exact ⟨⟨tracks, fun name among => absurd among (homeless name)⟩, onto.isLocal.trans h.isLocal⟩

/-- In a local scope the map has the slots of the declared names, and otherwise is as
it was. -/
theorem Tracks.after (h : Tracks p levels p.machine.current p.store.map) (inner : levels ≠ []) :
    Tracks q (declared names levels) q.machine.current q.store.map := by
  have tracks := h.mono onto.toWidens
  refine ⟨?_, ?_, ?_⟩
  · rw [declared_length, onto.current]
    exact tracks.chain
  -- a name declared meanwhile is found in the first scope, at the slot that it got
  · intro name depth found
    by_cases inside : name ∈ names
    · rw [depthOf_declared_of_mem inside inner] at found
      cases found
      obtain ⟨slot, declared⟩ := named name inside
      cases declared with
      | «local» mapped housed => exact ⟨_, _, rfl, mapped, housed⟩
      | global _ outer =>
        rw [onto.current] at outer
        exact absurd outer (tracks.inner related.rooted inner)
    · rw [depthOf_declared inside] at found
      rw [onto.current, onto.map name inside]
      exact tracks.locals name depth found
  -- a name that no scope has was not declared either
  · intro name absent
    by_cases inside : name ∈ names
    · rw [depthOf_declared_of_mem inside inner] at absent
      cases absent
    · rw [depthOf_declared inside] at absent
      rw [onto.map name inside]
      exact tracks.others name absent

/-- A run that has declared names. -/
theorem Place.after (h : Place p levels) (below : p.machine.current < base) :
    Place q (declared names levels) := by
  by_cases top : levels = []
  · subst top
    have none : declared names [] = [] := List.length_eq_zero_iff.mp (declared_length names [])
    rw [none]
    exact h.after_top related onto named
  · refine ⟨⟨h.stands.tracks.after related onto named top, ?_⟩, ?_⟩
    · intro name among
      rw [onto.current] at among
      by_cases inside : name ∈ names
      · exact depthOf_declared_of_mem inside top
      · rw [depthOf_declared inside]
        -- a home that is new in the current scope is that of a declared name
        rcases onto.fresh _ among with old | new | ⟨-, among⟩
        · exact h.stands.tight name old
        · exact absurd new (Nat.not_le_of_lt below)
        · exact absurd among inside
    · rw [onto.isLocal, declared_length]
      exact h.isLocal

end After

/-! ## Another scope and map -/

/-- Another scope is current and another map in force. -/
theorem Related.goto (related : Related inputs p) (current : ScopeId) (map : Map)
    (isLocal : Bool) :
    Related inputs ⟨p.homes, { p.machine with current }, { p.store with map, isLocal }⟩ :=
  related.quiet (.of_scopes (.refl _) rfl rfl rfl) rfl rfl rfl rfl rfl rfl rfl rfl
    related.rest

/-- A run in a new scope, with the map that stands there. -/
theorem sim_within {base : Nat} {names declares : List String} {x : Machine.Run Completion}
    {y : Run Completion} (related : Related inputs p) (stands : Stands p levels scope map)
    (inner : levels ≠ []) (new : base ≤ scope)
    (run : ∀ q, Related inputs q → Place q levels → q.machine.current = scope →
      q.machine.scopes = p.machine.scopes →
      Sim inputs (scope + 1) declares q x y fun q => SameCompletion inputs q) :
    Sim inputs base names p (Machine.within scope x) (within map y)
      fun q => SameCompletion inputs q := by
  let inside : Pair :=
    ⟨p.homes, { p.machine with current := scope }, { p.store with map, isLocal := true }⟩
  have place : Place inside levels := by
    refine ⟨stands.goto scope map true, ?_⟩
    rw [decide_eq_true (List.length_pos_iff.mpr inner)]
  have entered : Widens p inside := .of_scopes (.refl _) rfl rfl rfl
  have ran := run inside (related.goto scope map true) place rfl rfl
  rcases ran.cases with
    ⟨q, a, b, left, right, onto, related', same⟩ | ⟨e, e', m, σ, left, right, same, sink⟩
  · -- behind the run the old scope and map are back
    let after : Pair := ⟨q.homes, { q.machine with current := p.machine.current },
      { q.store with map := p.store.map, isLocal := p.store.isLocal }⟩
    have back : Widens q after := .of_scopes (.refl _) rfl rfl rfl
    refine .of_ok (q := after) (a := a) (b := b) ?_ ?_
      ⟨(entered.trans onto.toWidens).trans back, ?_, rfl, rfl, fun _ _ => rfl⟩
      (related'.goto ..) (same.mono back)
    · simp only [Machine.within]
      rw [show x { p.machine with current := scope } = .ok a q.machine from left]
    · simp only [within]
      rw [show y { p.store with map, isLocal := true } = .ok b q.store from right]
    · intro home among
      rcases onto.fresh home among with old | later | ⟨here, -⟩
      · exact .inl old
      · exact .inr (.inl (Nat.le_trans new (Nat.le_of_succ_le later)))
      · exact .inr (.inl (here ▸ new))
  · refine .of_error (m := { m with current := p.machine.current })
      (σ := { σ with map := p.store.map, isLocal := p.store.isLocal }) ?_ ?_ same sink
    · simp only [Machine.within]
      rw [show x { p.machine with current := scope } = .error e m from left]
    · simp only [within]
      rw [show y { p.store with map, isLocal := true } = .error e' σ from right]

/-! ## Variables -/

section Variables

variable {base : Nat} {names : List String} (related : Related inputs p)
include related

theorem sim_liftExcept {result : Except Fault Value} (data : GivesData result) :
    Sim inputs base names p (Machine.liftExcept result) (liftExcept result)
      fun q => Same inputs q := by
  cases result with
  | ok v => exact .of_ok (q := p) rfl rfl (.refl ..) related (.data data)
  | error fault => exact .fault related rfl rfl (.refl _)

/-- Both sides read the same value, or find none. -/
theorem sim_read (tracks : Tracks p levels p.machine.current p.store.map) {id : NodeId}
    {name : Name} (noted : p.machine.locals.depth? id = depthOf name.text levels) :
    Sim inputs base names p (readVariable id name) (read name) fun q => Same inputs q := by
  cases found : depthOf name.text levels with
  -- a local name: the machine goes up its hops, the store looks up the map
  | some depth =>
    rw [found] at noted
    obtain ⟨home, slot, above, mapped, housed⟩ := tracks.locals name.text depth found
    have left := readVariable_local noted name
    rcases rel_cases (related.slots slot _ housed) with ⟨bound, held⟩ | ⟨v, w, bound, held, same⟩
    · rw [Scopes.getAt_of_missing above bound] at left
      have right : read name p.store = .error (.fault (empty name.text)) p.store := by
        simp only [read, mapped, held]
      exact .fault related left right (.missing _ _)
    · rw [Scopes.getAt_of_found above bound] at left
      have right : read name p.store = .ok w p.store := by simp only [read, mapped, held]
      exact .of_ok left right (.refl ..) related same
  -- a name that no scope declares is a global on both sides
  | none =>
    rw [found] at noted
    have unmapped := tracks.others name.text found
    have left := readVariable_global noted name
    simp only [Scopes.get, Scopes.owner?_of_parentless related.rooted.inside related.rooted.root,
      Scopes.contains] at left
    rcases rel_cases (related.globals name.text) with ⟨bound, held⟩ | ⟨v, w, bound, held, same⟩
    · simp only [bound, Option.isSome_none, Bool.false_eq_true, if_false, Option.bind_none] at left
      have right : read name p.store =
          .error (.fault (.undefinedVariable name.text name.line)) p.store := by
        simp only [read, unmapped, held]
      exact .fault related left right (.refl _)
    · simp only [bound, Option.isSome_some, if_true, Option.bind_some] at left
      have right : read name p.store = .ok w p.store := by simp only [read, unmapped, held]
      exact .of_ok left right (.refl ..) related same

/-- Both sides write the value, or find nothing to write to. -/
theorem sim_write (tracks : Tracks p levels p.machine.current p.store.map) {target : Occurrence}
    (noted : p.machine.locals.depth? target.id = depthOf target.name.text levels)
    {v w : Value} (value : Same inputs p v w) :
    Sim inputs base names p (writeVariable target v) (write target.name w)
      fun _ _ _ => True := by
  cases found : depthOf target.name.text levels with
  | some depth =>
    rw [found] at noted
    obtain ⟨home, slot, above, mapped, housed⟩ := tracks.locals _ depth found
    rcases rel_cases (related.slots slot _ housed) with ⟨bound, held⟩ | ⟨_, _, bound, held, -⟩
    -- the scope is there, but it does not bind the name yet
    · have left : writeVariable target v p.machine =
          .error (.fault (.internal (.missing target.name.text depth))) p.machine := by
        simp [writeVariable, writeTarget, noted, Scopes.targetAt, Scopes.ancestor, above,
          Scopes.contains, bound]
      have right : write target.name w p.store =
          .error (.fault (empty target.name.text)) p.store := by
        simp only [write, mapped, held]
      exact .fault related left right (.missing _ _)
    · have left : writeVariable target v p.machine =
          .ok () (p.machine.define home target.name.text v) := by
        simp [writeVariable, writeTarget, noted, Scopes.targetAt, Scopes.ancestor, above,
          Scopes.contains, bound]
      have right : write target.name w p.store = .ok () (p.store.fill slot w) := by
        simp only [write, mapped, held]
      exact .of_ok (q := ⟨p.homes, _, _⟩) left right
        (.still (.of_scopes (.define ..) rfl rfl rfl) rfl rfl rfl rfl)
        (related.fill housed value) trivial
  | none =>
    rw [found] at noted
    have unmapped := tracks.others _ found
    have owner : p.machine.scopes.owner? p.machine.globals target.name.text =
        if p.machine.scopes.contains p.machine.globals target.name.text then
          some p.machine.globals else none :=
      Scopes.owner?_of_parentless related.rooted.inside related.rooted.root
    rcases rel_cases (related.globals target.name.text) with
      ⟨bound, held⟩ | ⟨_, _, bound, held, -⟩
    · have left : writeVariable target v p.machine = .error
          (.fault (.undefinedVariable target.name.text target.name.line)) p.machine := by
        simp [writeVariable, writeTarget, noted, Scopes.target, owner, Scopes.contains, bound]
      have right : write target.name w p.store = .error
          (.fault (.undefinedVariable target.name.text target.name.line)) p.store := by
        simp only [write, unmapped, held]
      exact .fault related left right (.refl _)
    · have left : writeVariable target v p.machine =
          .ok () (p.machine.define p.machine.globals target.name.text v) := by
        simp [writeVariable, writeTarget, noted, Scopes.target, owner, Scopes.contains, bound]
      have right : write target.name w p.store = .ok ()
          { p.store with globals := p.store.globals.insert target.name.text w } := by
        simp only [write, unmapped, held]
      exact .of_ok (q := ⟨p.homes, _, _⟩) left right
        (.still (.of_scopes (.define ..) rfl rfl rfl) rfl rfl rfl rfl)
        (related.fillGlobal _ value) trivial

/-- Declaring a name in a local scope gives it a slot, which is empty. -/
theorem declare_local (base : Nat) (place : Place p levels) (inner : levels ≠ [])
    {name : String} (new : depthOf name levels ≠ some 0) :
    ∃ q slot, declare name p.store = .ok slot q.store ∧ q.machine = p.machine ∧
      To base [name] p q ∧ Related inputs q ∧ IsSlot q name slot ∧
      Place q (marked name false levels) := by
  have «local» : p.store.isLocal = true := by
    rw [place.isLocal, decide_eq_true_eq]
    exact List.length_pos_iff.mpr inner
  have tracks := place.stands.tracks
  have homeless : (p.machine.current, name) ∉ p.homes := by
    intro among
    exact new (place.stands.tight name among)
  -- the slot is allocated here and filled once the value is known
  have empty := related.allocate (tracks.inner related.rooted inner)
    (tracks.inside related.rooted) homeless
  have stands := place.stands.allocate related.size inner name false
  let homes := p.homes ++ [(p.machine.current, name)]
  let map := p.store.map.insert name p.store.slots.size
  let σ : Store := { (p.store.allocate none).2 with map }
  let q : Pair := ⟨homes, p.machine, σ⟩
  have mapped : map[name]? = some p.store.slots.size := by simp [map]
  have housed : homes[p.store.slots.size]? = some (p.machine.current, name) := by
    rw [← related.size]
    exact List.getElem?_concat_length ..
  have moved : Widens ⟨homes, p.machine, (p.store.allocate none).2⟩ q :=
    .of_scopes (.refl _) rfl rfl rfl
  have onto : To base [name] p q := by
    refine ⟨⟨List.prefix_append .., fun _ _ h => h, .refl _, rfl⟩, ?_, rfl, rfl, ?_⟩
    · intro home among
      rcases List.mem_append.mp among with old | last
      · exact .inl old
      · rw [List.mem_singleton] at last
        subst last
        exact .inr (.inr ⟨rfl, List.mem_singleton_self _⟩)
    · intro other outside
      have differ : name ≠ other := fun same => outside (by simp [same])
      show map[other]? = p.store.map[other]?
      rw [Std.ExtTreeMap.getElem?_insert, if_neg (by simpa using differ)]
  refine ⟨q, some p.store.slots.size, ?_, rfl, onto,
    empty.quiet moved rfl rfl rfl rfl rfl rfl rfl rfl related.rest, .local mapped housed,
    ⟨⟨stands.tracks.mono moved, stands.tight⟩, ?_⟩⟩
  · simp [declare, «local», q, σ, map, Store.allocate]
  · rw [marked_length]
    exact place.isLocal

/-- Declaring a name gives it a slot, which is empty, in a local scope. -/
theorem declare_ok (base : Nat) (place : Place p levels) {name : String}
    (new : depthOf name levels ≠ some 0) :
    ∃ q slot, declare name p.store = .ok slot q.store ∧ q.machine = p.machine ∧
      To base [name] p q ∧ Related inputs q ∧ IsSlot q name slot ∧
      Place q (marked name false levels) := by
  by_cases top : levels = []
  · subst top
    have «global» : p.store.isLocal = false := place.isLocal
    have undeclared : declare name p.store = .ok none p.store := by
      simp [declare, «global»]
    have tracks := place.stands.tracks
    exact ⟨p, none, undeclared, rfl, .refl .., related,
      .global (tracks.others name rfl) tracks.outer, place⟩
  · exact declare_local related base place top new

/-- A declared name is given the same value, and is bound then. -/
theorem sim_fill {name : String} {slot : Option Nat} (declared : IsSlot p name slot)
    {v w : Value} (same : Same inputs p v w) :
    Sim inputs base names p (define name v) (fill slot name w)
      fun q _ _ => IsSlot q name slot ∧ (q.machine.scopes.own? q.machine.current name).isSome := by
  have bound (inside : p.machine.current < p.machine.scopes.size) :
      ((p.machine.define p.machine.current name v).scopes.own? p.machine.current name).isSome := by
    show ((p.machine.scopes.define p.machine.current name v).own? _ _).isSome
    rw [Scopes.own?_define, if_pos ⟨rfl, rfl, inside⟩]
    rfl
  cases declared with
  | @«local» slot mapped housed =>
    have inside := (related.inner _ (List.mem_of_getElem? housed)).2
    exact .of_ok (q := ⟨p.homes, p.machine.define p.machine.current name v, p.store.fill slot w⟩)
      rfl rfl (.still (.of_scopes (.define ..) rfl rfl rfl) rfl rfl rfl rfl)
      (related.fill housed same) ⟨.local mapped housed, bound inside⟩
  | global unmapped outer =>
    rw [outer] at bound
    have left : define name v p.machine =
        .ok () (p.machine.define p.machine.globals name v) := by
      rw [← outer]
      rfl
    exact .of_ok (q := ⟨p.homes, _, { p.store with globals := p.store.globals.insert name w }⟩)
      left rfl (.still (.of_scopes (.define ..) rfl rfl rfl) rfl rfl rfl rfl)
      (related.fillGlobal _ same) ⟨.global unmapped outer, outer ▸ bound related.rooted.inside⟩

end Variables

end ClassScript.Slots
