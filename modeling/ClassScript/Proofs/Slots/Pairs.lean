import ClassScript.Proofs.Slots.Relation

/-!
# Related machines and stores

A machine and a store are related if every slot holds what its home binds, every local
binding is the home of a slot, and all the rest is the same (`Related`). The steps that
change both of them keep this, each with what it adds (`To`): new homes lie in new
scopes, or are names declared in the current one.
-/

namespace ClassScript.Slots

open Syntax Parsing Object Binding Machine

/-- The value of a field of an object of the machine. -/
def fieldAt? (objects : Array Fields) (id : Nat) (name : String) : Option Value :=
  objects[id]?.bind fun fields => fields[name]?

section Fields

variable {R : Value → Value → Prop} {objects objects' : Array Fields}
  (size : objects'.size = objects.size) (fields : ∀ (id : Nat) (name : String),
    Option.Rel R (fieldAt? objects id name) (fieldAt? objects' id name))
include size fields

/-- A new object has no fields on either side. -/
theorem rel_newFields (id : Nat) (name : String) :
    Option.Rel R (fieldAt? (objects.push ∅) id name) (fieldAt? (objects'.push ∅) id name) := by
  have old := fields id name
  simp only [fieldAt?, Array.getElem?_push, size] at old ⊢
  split
  · simp
  · exact old

/-- A field is set on both sides. -/
theorem rel_setFields (id : Nat) (name : String) {v w : Value} (same : R v w) (other : Nat)
    (text : String) :
    Option.Rel R (fieldAt? (objects.modify id fun fields => fields.insert name v) other text)
      (fieldAt? (objects'.modify id fun fields => fields.insert name w) other text) := by
  have old := fields other text
  simp only [fieldAt?, Array.getElem?_modify] at old ⊢
  by_cases here : id = other
  · subst here
    rw [if_pos rfl, if_pos rfl]
    rcases Nat.lt_or_ge id objects.size with inside | outside
    · have inside' : id < objects'.size := size ▸ inside
      simp only [Array.getElem?_eq_getElem inside, Array.getElem?_eq_getElem inside',
        Option.map_some, Option.bind_some, Std.ExtTreeMap.getElem?_insert] at old ⊢
      split
      · exact .some same
      · exact old
    · have outside' : objects'.size ≤ id := size ▸ outside
      simp [Array.getElem?_eq_none outside, Array.getElem?_eq_none outside']
  · rw [if_neg here, if_neg here]
    exact old

end Fields

/-- What machine and store have beside scopes, slots and objects. -/
def rest (m : Machine.State) : ObjectId × Array HostAction × Clock × Sink :=
  (m.nextId, m.hosts, m.clock, m.sink)

def Store.rest (σ : Store) : ObjectId × Array HostAction × Clock × Sink :=
  (σ.nextId, σ.hosts, σ.clock, σ.sink)

/-- The scope of the globals is one of the scopes, and has no parent. -/
structure Rooted (m : Machine.State) : Prop where
  inside : m.globals < m.scopes.size
  root : m.scopes.parent? m.globals = none

theorem Rooted.mono {m m' : Machine.State} (h : Rooted m)
    (scopes : m.scopes.Extends m'.scopes) (globals : m'.globals = m.globals) : Rooted m' where
  inside := by rw [globals]; exact Nat.lt_of_lt_of_le h.inside scopes.size
  root := by rw [globals, scopes.parent _ h.inside]; exact h.root

/-- Machine and store hold the same: every slot what its home binds, and the globals
and the fields of objects the same values. -/
structure Related (inputs : List Input) (p : Pair) : Prop where
  size : p.homes.length = p.store.slots.size
  distinct : p.homes.Nodup
  slots : ∀ (slot : Nat) (home : Home), p.homes[slot]? = some home →
    Option.Rel (Same inputs p) (p.machine.scopes.own? home.1 home.2) (p.store.content? slot)
  inner : ∀ home ∈ p.homes,
    home.1 ≠ p.machine.globals ∧ home.1 < p.machine.scopes.size
  homed : ∀ scope name, scope ≠ p.machine.globals →
    (p.machine.scopes.own? scope name).isSome → (scope, name) ∈ p.homes
  globals : ∀ name : String, Option.Rel (Same inputs p)
    (p.machine.scopes.own? p.machine.globals name) p.store.globals[name]?
  objects : p.store.objects.size = p.machine.objects.size
  fields : ∀ (id : Nat) (name : String), Option.Rel (Same inputs p)
    (fieldAt? p.machine.objects id name) (fieldAt? p.store.objects id name)
  rest : p.store.rest = rest p.machine
  rooted : Rooted p.machine
  sound : ∀ v, Seen inputs v → Sound p.machine.locals v
  clocks : ∀ action ∈ p.machine.hosts, action = .clock

/-- What a run may change: it adds homes in scopes from `base` on, and in the current
scope homes of the given names, which are the only ones that get another slot. -/
structure To (base : Nat) (names : List String) (p q : Pair) : Prop extends Widens p q where
  fresh : ∀ home ∈ q.homes, home ∈ p.homes ∨ base ≤ home.1 ∨
    home.1 = p.machine.current ∧ home.2 ∈ names
  current : q.machine.current = p.machine.current
  isLocal : q.store.isLocal = p.store.isLocal
  map : ∀ name : String, name ∉ names → q.store.map[name]? = p.store.map[name]?

namespace To

variable {base : Nat} {names : List String} {p q r : Pair}

theorem refl (base : Nat) (names : List String) (p : Pair) : To base names p p where
  toWidens := .refl p
  fresh _ old := .inl old
  current := rfl
  isLocal := rfl
  map _ _ := rfl

theorem trans (first : To base names p q) (second : To base names q r) :
    To base names p r where
  toWidens := first.toWidens.trans second.toWidens
  fresh home inside := by
    rcases second.fresh home inside with old | new | ⟨here, named⟩
    · exact first.fresh home old
    · exact .inr (.inl new)
    · exact .inr (.inr ⟨here.trans first.current, named⟩)
  current := second.current.trans first.current
  isLocal := second.isLocal.trans first.isLocal
  map name outside := (second.map name outside).trans (first.map name outside)

theorem mono {base' : Nat} {more : List String} (h : To base names p q) (below : base' ≤ base)
    (sub : names ⊆ more) : To base' more p q where
  toWidens := h.toWidens
  fresh home inside := by
    rcases h.fresh home inside with old | new | ⟨here, named⟩
    · exact .inl old
    · exact .inr (.inl (Nat.le_trans below new))
    · exact .inr (.inr ⟨here, sub named⟩)
  current := h.current
  isLocal := h.isLocal
  map name outside := h.map name fun inside => outside (sub inside)

/-- A change that adds no home and keeps the map in force. -/
theorem still (widens : Widens p q) (homes : q.homes = p.homes)
    (current : q.machine.current = p.machine.current)
    (isLocal : q.store.isLocal = p.store.isLocal) (map : q.store.map = p.store.map) :
    To base names p q where
  toWidens := widens
  fresh _ inside := .inl (homes ▸ inside)
  current := current
  isLocal := isLocal
  map _ _ := by rw [map]

end To

/-! ## Steps -/

section Steps

variable {inputs : List Input} {p q : Pair}

theorem content?_allocate {σ : Store} {content : Option Value} {slot : Nat} :
    (σ.allocate content).2.content? slot =
      if slot = σ.slots.size then content else σ.content? slot := by
  simp only [Store.content?, Store.allocate, Array.getElem?_push]
  split <;> rfl

/-- Filling a slot changes what is read there and nowhere else. -/
theorem content?_fill {σ : Store} {slot other : Nat} {value : Value}
    (inside : slot < σ.slots.size) :
    (σ.fill slot value).content? other =
      if slot = other then some value else σ.content? other := by
  simp only [Store.content?, Store.fill, Array.getElem?_setIfInBounds]
  by_cases same : slot = other
  · subst same
    simp [inside]
  · simp [same]

/-- A slot that is filled at once. -/
theorem fill_allocate (σ : Store) (map : Map) (name : String) (value : Value) :
    (σ.allocate none).2.fill σ.slots.size value = (σ.bindLocal map name value).2 := by
  simp only [Store.allocate, Store.fill, Store.bindLocal, Store.mk.injEq, and_true]
  apply Array.ext_getElem?
  intro place
  rw [Array.getElem?_setIfInBounds, Array.getElem?_push, Array.getElem?_push, Array.size_push]
  by_cases last : place = σ.slots.size
  · subst last
    simp
  · have other : σ.slots.size ≠ place := fun same => last same.symm
    simp only [if_neg last, if_neg other]

/-- Captured maps stay as they are. -/
theorem Widens.capture (p : Pair) (map : Map) :
    Widens p { p with store := (p.store.capture map).2 } where
  homes := List.prefix_rfl
  maps place old found := by
    rw [show (p.store.capture map).2.maps = p.store.maps.push map from rfl, Array.getElem?_push,
      if_neg (Nat.ne_of_lt (Array.getElem?_eq_some_iff.mp found).1)]
    exact found
  scopes := .refl _
  globals := rfl

namespace Related

/-- A change of what is the same on both sides. -/
theorem quiet (h : Related inputs p) (widens : Widens p q) (homes : q.homes = p.homes)
    (scopes : q.machine.scopes = p.machine.scopes) (slots : q.store.slots = p.store.slots)
    (globals : q.store.globals = p.store.globals)
    (objects : q.machine.objects = p.machine.objects)
    (objects' : q.store.objects = p.store.objects)
    (locals : q.machine.locals = p.machine.locals)
    (hosts : q.machine.hosts = p.machine.hosts)
    (rest : q.store.rest = Slots.rest q.machine) : Related inputs q where
  size := by rw [homes, slots]; exact h.size
  distinct := homes ▸ h.distinct
  -- each field reads parts of the pair that stay as they are
  slots slot home housed := by
    rw [scopes, show q.store.content? slot = p.store.content? slot by
      rw [Store.content?, slots]; rfl]
    exact widens.rel (h.slots slot home (homes ▸ housed))
  inner home inside := by
    rw [widens.globals, scopes]
    exact h.inner home (homes ▸ inside)
  homed scope name other bound := by
    rw [widens.globals] at other
    rw [scopes] at bound
    rw [homes]
    exact h.homed scope name other bound
  globals name := by
    rw [widens.globals, scopes, globals]
    exact widens.rel (h.globals name)
  objects := by rw [objects, objects']; exact h.objects
  fields id name := by
    rw [objects, objects']
    exact widens.rel (h.fields id name)
  rest := rest
  rooted := h.rooted.mono widens.scopes widens.globals
  sound := locals ▸ h.sound
  clocks := hosts ▸ h.clocks

/-- A scope more on the machine. -/
theorem pushScope (h : Related inputs p) (parent : Option ScopeId) :
    Related inputs { p with machine := (p.machine.pushScope parent).2 } := by
  have scopes : p.machine.scopes.Extends (p.machine.pushScope parent).2.scopes :=
    .push p.machine.scopes parent
  have widens : Widens p { p with machine := (p.machine.pushScope parent).2 } :=
    .of_scopes scopes rfl rfl rfl
  have own (id : ScopeId) (name : String) :
      (p.machine.pushScope parent).2.scopes.own? id name = p.machine.scopes.own? id name :=
    p.machine.scopes.own?_push id name parent
  exact {
    size := h.size
    distinct := h.distinct
    slots := fun slot home housed => by
      rw [own]
      exact widens.rel (h.slots slot home housed)
    inner := fun home inside =>
      ⟨(h.inner home inside).1, Nat.lt_of_lt_of_le (h.inner home inside).2 scopes.size⟩
    homed := fun scope name other bound => h.homed scope name other (own scope name ▸ bound)
    globals := fun name => by
      rw [own]
      exact widens.rel (h.globals name)
    objects := h.objects
    fields := fun id name => widens.rel (h.fields id name)
    rest := h.rest
    rooted := h.rooted.mono widens.scopes rfl
    sound := h.sound
    clocks := h.clocks }

/-- An empty slot more, whose home is not bound. -/
theorem allocate (h : Related inputs p) {scope : ScopeId} {name : String}
    (inner : scope ≠ p.machine.globals) (inside : scope < p.machine.scopes.size)
    (new : (scope, name) ∉ p.homes) :
    Related inputs ⟨p.homes ++ [(scope, name)], p.machine, (p.store.allocate none).2⟩ := by
  have widens := Widens.allocate p (scope, name) none
  exact {
    size := by simp [Store.allocate, h.size]
    distinct := List.nodup_append.mpr ⟨h.distinct, by simp, fun home old other last same => by
      rw [List.mem_singleton] at last
      exact new (last ▸ same ▸ old)⟩
    slots := fun slot home housed => by
      rw [content?_allocate]
      -- an old slot keeps its home; the new one is empty, as its name is not bound yet
      rcases Nat.lt_or_ge slot p.homes.length with old | last
      · rw [List.getElem?_append_left old] at housed
        rw [if_neg (by rw [← h.size]; exact Nat.ne_of_lt old)]
        exact widens.rel (h.slots slot home housed)
      · rw [List.getElem?_append_right last] at housed
        have first : slot - p.homes.length = 0 := by
          have := (List.getElem?_eq_some_iff.mp housed).1
          simp only [List.length_singleton] at this
          omega
        rw [first] at housed
        cases housed
        have unbound : p.machine.scopes.own? scope name = none := by
          cases bound : p.machine.scopes.own? scope name with
          | none => rfl
          | some v => exact absurd (h.homed scope name inner (by rw [bound]; rfl)) new
        rw [if_pos (by rw [← h.size]; omega), unbound]
        exact .none
    inner := fun home among => by
      rcases List.mem_append.mp among with old | last
      · exact h.inner home old
      · rw [List.mem_singleton] at last
        rw [last]
        exact ⟨inner, inside⟩
    homed := fun scope name other bound =>
      List.mem_append_left _ (h.homed scope name other bound)
    globals := fun name => widens.rel (h.globals name)
    objects := h.objects
    fields := fun id name => widens.rel (h.fields id name)
    rest := h.rest
    rooted := h.rooted.mono widens.scopes rfl
    sound := h.sound
    clocks := h.clocks }

/-- The same value, bound at a home and put into its slot. -/
theorem fill (h : Related inputs p) {slot : Nat} {home : Home} {v w : Value}
    (housed : p.homes[slot]? = some home) (same : Same inputs p v w) :
    Related inputs
      ⟨p.homes, p.machine.define home.1 home.2 v, p.store.fill slot w⟩ := by
  obtain ⟨scope, name⟩ := home
  have scopes : p.machine.scopes.Extends (p.machine.define scope name v).scopes := .define ..
  have widens : Widens p ⟨p.homes, p.machine.define scope name v, p.store.fill slot w⟩ :=
    .of_scopes scopes rfl rfl rfl
  obtain ⟨inner, inside⟩ := h.inner _ (List.mem_of_getElem? housed)
  have slotInside : slot < p.store.slots.size := by
    rw [← h.size]
    exact (List.getElem?_eq_some_iff.mp housed).1
  -- the definition is read back in its own scope under its own name only
  have own (other : ScopeId) (text : String) :
      (p.machine.define scope name v).scopes.own? other text =
        if scope = other ∧ name = text ∧ scope < p.machine.scopes.size then some v
        else p.machine.scopes.own? other text :=
    p.machine.scopes.own?_define scope other name text v
  exact {
    size := by simpa [Store.fill] using h.size
    distinct := h.distinct
    slots := fun other home' housed' => by
      rw [own, content?_fill slotInside]
      by_cases here : slot = other
      · subst here
        obtain rfl : (scope, name) = home' := Option.some.inj (housed.symm.trans housed')
        rw [if_pos ⟨rfl, rfl, inside⟩, if_pos rfl]
        exact .some (same.mono widens)
      · -- homes are distinct, so another slot has another home
        have differ : ¬(scope = home'.1 ∧ name = home'.2 ∧ scope < p.machine.scopes.size) := by
          rintro ⟨rfl, rfl, -⟩
          have within := (List.getElem?_eq_some_iff.mp housed).1
          exact here ((List.getElem?_inj within h.distinct).mp (housed.trans housed'.symm))
        rw [if_neg differ, if_neg here]
        exact widens.rel (h.slots other home' housed')
    inner := fun home among =>
      ⟨(h.inner home among).1, Nat.lt_of_lt_of_le (h.inner home among).2 scopes.size⟩
    homed := fun other text outside bound => by
      rw [own] at bound
      split at bound
      · next here =>
        obtain ⟨rfl, rfl, -⟩ := here
        exact List.mem_of_getElem? housed
      · exact h.homed other text outside bound
    globals := fun text => by
      have differ : ¬(scope = p.machine.globals ∧ name = text ∧
          scope < p.machine.scopes.size) := fun here => inner here.1
      rw [show (p.machine.define scope name v).globals = p.machine.globals from rfl, own,
        if_neg differ]
      exact widens.rel (h.globals text)
    objects := h.objects
    fields := fun id name => widens.rel (h.fields id name)
    rest := h.rest
    rooted := h.rooted.mono widens.scopes rfl
    sound := h.sound
    clocks := h.clocks }

/-- A slot more, whose home is bound to the same value. -/
theorem bindLocal (h : Related inputs p) {scope : ScopeId} {name : String}
    (inner : scope ≠ p.machine.globals) (inside : scope < p.machine.scopes.size)
    (new : (scope, name) ∉ p.homes) {v w : Value} (same : Same inputs p v w) (map : Map) :
    Related inputs ⟨p.homes ++ [(scope, name)], p.machine.define scope name v,
      (p.store.bindLocal map name w).2⟩ := by
  have empty := h.allocate inner inside new
  have widens := Widens.allocate p (scope, name) none
  have last : (p.homes ++ [(scope, name)])[p.store.slots.size]? = some (scope, name) := by
    rw [← h.size]
    exact List.getElem?_concat_length ..
  have filled := empty.fill last (same.mono widens)
  rw [fill_allocate] at filled
  exact filled

/-- A map more that is captured. -/
theorem capture (h : Related inputs p) (map : Map) :
    Related inputs { p with store := (p.store.capture map).2 } :=
  h.quiet (.capture p map) rfl rfl rfl rfl rfl rfl rfl rfl h.rest

theorem nextId (h : Related inputs p) : p.store.nextId = p.machine.nextId :=
  congrArg (·.1) h.rest

theorem hosts (h : Related inputs p) : p.store.hosts = p.machine.hosts :=
  congrArg (·.2.1) h.rest

theorem clock (h : Related inputs p) : p.store.clock = p.machine.clock :=
  congrArg (·.2.2.1) h.rest

theorem sink (h : Related inputs p) : p.store.sink = p.machine.sink :=
  congrArg (·.2.2.2) h.rest

/-- The same value for a global. -/
theorem fillGlobal (h : Related inputs p) (name : String) {v w : Value}
    (same : Same inputs p v w) :
    Related inputs ⟨p.homes, p.machine.define p.machine.globals name v,
      { p.store with globals := p.store.globals.insert name w }⟩ := by
  have scopes : p.machine.scopes.Extends
      (p.machine.define p.machine.globals name v).scopes := .define ..
  have widens : Widens p ⟨p.homes, p.machine.define p.machine.globals name v,
      { p.store with globals := p.store.globals.insert name w }⟩ :=
    .of_scopes scopes rfl rfl rfl
  have own (other : ScopeId) (text : String) :
      (p.machine.define p.machine.globals name v).scopes.own? other text =
        if p.machine.globals = other ∧ name = text ∧
          p.machine.globals < p.machine.scopes.size then some v
        else p.machine.scopes.own? other text :=
    p.machine.scopes.own?_define _ other name text v
  -- slots have homes in inner scopes, which a global leaves alone
  have away {other : ScopeId} (text : String) (outside : other ≠ p.machine.globals) :
      (p.machine.define p.machine.globals name v).scopes.own? other text =
        p.machine.scopes.own? other text := by
    rw [own, if_neg fun here => outside here.1.symm]
  exact {
    size := h.size
    distinct := h.distinct
    slots := fun slot home housed => by
      rw [away _ (h.inner home (List.mem_of_getElem? housed)).1]
      exact widens.rel (h.slots slot home housed)
    inner := fun home among =>
      ⟨(h.inner home among).1, Nat.lt_of_lt_of_le (h.inner home among).2 scopes.size⟩
    homed := fun other text outside bound => by
      rw [away text outside] at bound
      exact h.homed other text outside bound
    globals := fun text => by
      rw [show (p.machine.define p.machine.globals name v).globals = p.machine.globals from rfl,
        own, Std.ExtTreeMap.getElem?_insert]
      by_cases here : name = text
      · rw [if_pos ⟨rfl, here, h.rooted.inside⟩, if_pos (by simp [here])]
        exact .some (same.mono widens)
      · rw [if_neg fun both => here both.2.1, if_neg (by simpa using here)]
        exact widens.rel (h.globals text)
    objects := h.objects
    fields := fun id name => widens.rel (h.fields id name)
    rest := h.rest
    rooted := h.rooted.mono widens.scopes rfl
    sound := h.sound
    clocks := h.clocks }

/-- A change of the fields of objects. -/
theorem ofFields (h : Related inputs p) {machine : Array Fields} {store : Array Fields}
    (objects : store.size = machine.size)
    (fields : ∀ (id : Nat) (name : String),
      Option.Rel (Same inputs p) (fieldAt? machine id name) (fieldAt? store id name)) :
    Related inputs ⟨p.homes, { p.machine with objects := machine },
      { p.store with objects := store }⟩ := by
  have widens : Widens p ⟨p.homes, { p.machine with objects := machine },
      { p.store with objects := store }⟩ :=
    .of_scopes (.refl _) rfl rfl rfl
  exact {
    size := h.size
    distinct := h.distinct
    slots := fun slot home housed =>
      widens.rel (h.slots slot home housed)
    inner := h.inner
    homed := h.homed
    globals := fun name => widens.rel (h.globals name)
    objects := objects
    fields := fun id name => widens.rel (fields id name)
    rest := h.rest
    rooted := h.rooted.mono widens.scopes rfl
    sound := h.sound
    clocks := h.clocks }

theorem newObject (h : Related inputs p) :
    Related inputs ⟨p.homes, { p.machine with objects := p.machine.objects.push ∅ },
      { p.store with objects := p.store.objects.push ∅ }⟩ := by
  exact h.ofFields (by simp [h.objects]) (rel_newFields h.objects h.fields)

/-- A write to the same field on both sides keeps machine and store related. -/
theorem setField (h : Related inputs p) (id : Nat) (name : String) {v w : Value}
    (same : Same inputs p v w) :
    Related inputs
      ⟨p.homes,
        { p.machine with
          objects := p.machine.objects.modify id fun fields => fields.insert name v },
        { p.store with
          objects := p.store.objects.modify id fun fields => fields.insert name w }⟩ := by
  exact h.ofFields (by simp [h.objects]) (rel_setFields h.objects h.fields id name same)

end Related

end Steps

end ClassScript.Slots
