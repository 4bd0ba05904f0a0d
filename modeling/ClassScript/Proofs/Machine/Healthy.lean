import ClassScript.Proofs.Machine.Mirror

/-!
# Healthy machines

What holds of a machine between any two steps of its runs. Every function that it
holds was visited by the walk over a program that was accepted, and the scopes that
the function was declared in mirror those of that visit (`GoodClosure`); a method
waits for the scope that binds `this`. All that the machine stores is of this kind,
and its table has the depths that the walks noted.
-/

namespace ClassScript.Machine

open Syntax Parsing Object Binding

/-- The visits of the walks over the inputs that were accepted so far. -/
def Seen (inputs : List Input) (v : Visit) : Prop :=
  ∃ input ∈ inputs, Reaches (.ofInput input) v

/-- The parts of a piece that was seen were seen. -/
theorem Seen.child {inputs : List Input} {v c : Visit} (seen : Seen inputs v) (h : Child v c) :
    Seen inputs c := by
  obtain ⟨root, inside, reached⟩ := seen
  exact ⟨root, inside, .child reached h⟩

/-- With more inputs, more was seen. -/
theorem Seen.mono {inputs more : List Input} {v : Visit} (sub : inputs ⊆ more)
    (seen : Seen inputs v) : Seen more v := by
  obtain ⟨input, inside, reached⟩ := seen
  exact ⟨input, sub inside, reached⟩

section Values

variable (inputs : List Input) (m : State)

/-- A function whose scopes mirror those of its visit. An initializer has its object
in the innermost one. -/
structure GoodClosure (closure : Closure) : Prop where
  visit : ∃ v, Seen inputs v ∧ v.node = .function closure.declaration ∧
    Mirrors m.globals m.scopes none v.walk.scopes closure.scope
  bound : closure.isInitializer = true → (m.scopes.own? closure.scope "this").isSome

/-- A method, whose visit has one scope more: the one that binds `this`. -/
def GoodMethod (method : Closure) : Prop :=
  ∃ v names outer, Seen inputs v ∧ v.node = .function method.declaration ∧
    v.walk.scopes = names :: outer ∧
    (∀ name : String, names[name]? = some true → name = "this") ∧
    Mirrors m.globals m.scopes none outer method.scope

def GoodClass (cls : ObjectClass) : Prop :=
  ∀ name method, cls.method? name = some method → GoodMethod inputs m method

def GoodValue : Value → Prop
  | .function _ closure => GoodClosure inputs m closure
  | .cls c => GoodClass inputs m c
  | .object o => GoodClass inputs m o.cls
  | _ => True

/-- The machine holds only good values, and its table has what was noted. -/
structure Healthy : Prop where
  inside : m.globals < m.scopes.size
  root : m.scopes.parent? m.globals = none
  this : ∀ id value, m.scopes.own? id "this" = some value → ∃ o, value = .object o
  super : ∀ id value, m.scopes.own? id "super" = some value → ∃ c, value = .cls c
  values : ∀ id name value, m.scopes.own? id name = some value → GoodValue inputs m value
  fields : ∀ (id : Nat) (fields : Fields) (name : String) (value : Value),
    m.objects[id]? = some fields → fields[name]? = some value → GoodValue inputs m value
  hosts : ∀ action ∈ m.hosts, action = .clock
  sound : ∀ v, Seen inputs v → Sound m.locals v

end Values

variable {inputs : List Input} {m m' : State}

/-! ## Growing machines -/

section Growing

variable (grows : m.scopes.Extends m'.scopes) (globals : m'.globals = m.globals)
include grows globals

/-- A closure that is good stays so while scopes are added. -/
theorem GoodClosure.mono {c : Closure} (h : GoodClosure inputs m c) :
    GoodClosure inputs m' c where
  visit := by
    obtain ⟨v, seen, node, mirrors⟩ := h.visit
    exact ⟨v, seen, node, globals ▸ mirrors.mono grows⟩
  bound isInitializer := grows.bound _ _ (h.bound isInitializer)

theorem GoodMethod.mono {c : Closure} (h : GoodMethod inputs m c) : GoodMethod inputs m' c := by
  obtain ⟨v, names, outer, seen, node, shape, only, mirrors⟩ := h
  exact ⟨v, names, outer, seen, node, shape, only, globals ▸ mirrors.mono grows⟩

theorem GoodClass.mono {c : ObjectClass} (h : GoodClass inputs m c) : GoodClass inputs m' c :=
  fun name method found => (h name method found).mono grows globals

theorem GoodValue.mono {v : Value} (h : GoodValue inputs m v) : GoodValue inputs m' v := by
  cases v with
  | function id c => exact GoodClosure.mono grows globals h
  | cls c => exact GoodClass.mono grows globals h
  | object o => exact GoodClass.mono grows globals h
  | _ => trivial

end Growing

/-- What is good stays so when more inputs are accepted. -/
theorem GoodValue.recall {more : List Input} (sub : inputs ⊆ more) {v : Value}
    (h : GoodValue inputs m v) : GoodValue more m v := by
  have ofMethods {c : ObjectClass} (h : GoodClass inputs m c) : GoodClass more m c := by
    intro name method found
    obtain ⟨v, names, outer, seen, rest⟩ := h name method found
    exact ⟨v, names, outer, seen.mono sub, rest⟩
  cases v with
  | function id closure =>
    have h : GoodClosure inputs m closure := h
    obtain ⟨v, seen, rest⟩ := h.visit
    exact ⟨⟨v, seen.mono sub, rest⟩, h.bound⟩
  | cls c => exact ofMethods h
  | object o => exact ofMethods h
  | _ => trivial

/-- What is good stays so when a name is bound. -/
theorem GoodValue.define {v : Value} (h : GoodValue inputs m v) (id : ScopeId) (name : String)
    (value : Value) : GoodValue inputs (m.define id name value) v := by
  have grows : m.scopes.Extends (m.define id name value).scopes := .define ..
  exact h.mono grows rfl

/-- What is good does not depend on which scope is current. -/
theorem GoodValue.move {v : Value} (h : GoodValue inputs m v) (scope : ScopeId) :
    GoodValue inputs { m with current := scope } v := by
  have same : m.scopes.Extends { m with current := scope }.scopes := .refl _
  exact h.mono same rfl

/-- The current scope is no matter to a closure. -/
theorem GoodClosure.move {c : Closure} (h : GoodClosure inputs m c) (scope : ScopeId) :
    GoodClosure inputs { m with current := scope } c := by
  have same : m.scopes.Extends { m with current := scope }.scopes := .refl _
  exact h.mono same rfl

namespace Healthy

/-- Binding a value that is good once it is bound. -/
theorem define (h : Healthy inputs m) {id : ScopeId} {name : String} {value : Value}
    (good : GoodValue inputs (m.define id name value) value)
    (this : name = "this" → ∃ o, value = .object o)
    (super : name = "super" → ∃ c, value = .cls c) :
    Healthy inputs (m.define id name value) := by
  have grows : m.scopes.Extends (m.define id name value).scopes := .define ..
  -- a bound value is the new one, under its name, or it was bound before
  have split {other : ScopeId} {text : String} {v : Value}
      (bound : (m.define id name value).scopes.own? other text = some v) :
      name = text ∧ v = value ∨ m.scopes.own? other text = some v := by
    simp only [State.define, Scopes.own?_define] at bound
    split at bound
    · next here => exact .inl ⟨here.2.1, (Option.some.inj bound).symm⟩
    · exact .inr bound
  exact {
    inside := by simpa [State.define] using h.inside
    root := by simpa [State.define] using h.root
    this := fun other v bound => by
      rcases split bound with ⟨named, rfl⟩ | old
      · exact this named
      · exact h.this other v old
    super := fun other v bound => by
      rcases split bound with ⟨named, rfl⟩ | old
      · exact super named
      · exact h.super other v old
    values := fun other text v bound => by
      rcases split bound with ⟨-, rfl⟩ | old
      · exact good
      · exact (h.values other text v old).mono grows rfl
    fields := fun id fields text v found has =>
      (h.fields id fields text v found has).mono grows rfl
    hosts := h.hosts
    sound := h.sound }

/-- Binding a variable, whose name is not reserved. -/
theorem definePlain (h : Healthy inputs m) {id : ScopeId} {name : String} {value : Value}
    (plain : name ∉ reserved) (good : GoodValue inputs (m.define id name value) value) :
    Healthy inputs (m.define id name value) := by
  refine h.define good ?_ ?_
  · intro same
    exact absurd (by simp [same, reserved]) plain
  · intro same
    exact absurd (by simp [same, reserved]) plain

/-- A scope more. -/
theorem pushScope (h : Healthy inputs m) (parent : Option ScopeId) :
    Healthy inputs (m.pushScope parent).2 := by
  have grows : m.scopes.Extends (m.pushScope parent).2.scopes := .push m.scopes parent
  have own (id : ScopeId) (name : String) :
      (m.pushScope parent).2.scopes.own? id name = m.scopes.own? id name :=
    m.scopes.own?_push id name parent
  exact {
    inside := Nat.lt_of_lt_of_le h.inside grows.size
    root := (grows.parent _ h.inside).trans h.root
    this := fun id v bound => h.this id v (own id _ ▸ bound)
    super := fun id v bound => h.super id v (own id _ ▸ bound)
    values := fun id name v bound => (h.values id name v (own id name ▸ bound)).mono grows rfl
    fields := fun id fields name v found has =>
      (h.fields id fields name v found has).mono grows rfl
    hosts := h.hosts
    sound := h.sound }

/-- The rest of the machine may change as it likes. -/
theorem congr (h : Healthy inputs m) (scopes : m'.scopes = m.scopes)
    (objects : m'.objects = m.objects) (globals : m'.globals = m.globals)
    (hosts : m'.hosts = m.hosts) (locals : m'.locals = m.locals) : Healthy inputs m' := by
  have keep {v : Value} (good : GoodValue inputs m v) : GoodValue inputs m' v :=
    good.mono (scopes ▸ .refl _) globals
  exact {
    inside := by rw [scopes, globals]; exact h.inside
    root := by rw [scopes, globals]; exact h.root
    this := by rw [scopes]; exact h.this
    super := by rw [scopes]; exact h.super
    values := fun id name v bound => keep (h.values id name v (scopes ▸ bound))
    fields := fun id fields name v found has =>
      keep (h.fields id fields name v (objects ▸ found) has)
    hosts := by rw [hosts]; exact h.hosts
    sound := by rw [locals]; exact h.sound }

/-- A new object. -/
theorem newObject (h : Healthy inputs m) (cls : ObjectClass) :
    Healthy inputs (m.newObject cls).2 := by
  have same : m.scopes.Extends (m.newObject cls).2.scopes := .refl m.scopes
  exact { h with
    values := fun id name v bound => (h.values id name v bound).mono same rfl
    fields := fun id fields name v found has => by
      simp only [State.newObject, Array.getElem?_push] at found
      split at found
      · cases found; simp at has
      · exact (h.fields id fields name v found has).mono same rfl }

/-- A field that is set to a good value. -/
theorem setField (h : Healthy inputs m) (o : Instance) (name : String) {value : Value}
    (good : GoodValue inputs m value) : Healthy inputs (m.setField o name value) := by
  have same : m.scopes.Extends (m.setField o name value).scopes := .refl m.scopes
  exact { h with
    values := fun id name v bound => (h.values id name v bound).mono same rfl
    fields := fun id fields text v found has => by
      refine GoodValue.mono same rfl ?_
      simp only [State.setField, Array.getElem?_modify] at found
      -- the fields are those of the object, with the new one, or of another object
      split at found
      · obtain ⟨old, there, rfl⟩ := Option.map_eq_some_iff.mp found
        rw [Std.ExtTreeMap.getElem?_insert] at has
        split at has
        · cases has; exact good
        · exact h.fields id old text v there has
      · exact h.fields id fields text v found has }

/-- More inputs are accepted, and the table has their depths too. -/
theorem enter (h : Healthy inputs m) {more : List Input} (sub : inputs ⊆ more)
    (locals : Locals) (sound : ∀ v, Seen more v → Sound locals v) :
    Healthy more { m with locals } where
  inside := h.inside
  root := h.root
  this := h.this
  super := h.super
  values id name v bound := by
    have same : m.scopes.Extends { m with locals }.scopes := .refl m.scopes
    exact ((h.values id name v bound).recall sub).mono same rfl
  fields id fields name v found has := by
    have same : m.scopes.Extends { m with locals }.scopes := .refl m.scopes
    exact ((h.fields id fields name v found has).recall sub).mono same rfl
  hosts := h.hosts
  sound := sound

/-- Another scope is current. -/
theorem move (h : Healthy inputs m) (scope : ScopeId) :
    Healthy inputs { m with current := scope } :=
  h.congr rfl rfl rfl rfl rfl

end Healthy

end ClassScript.Machine
