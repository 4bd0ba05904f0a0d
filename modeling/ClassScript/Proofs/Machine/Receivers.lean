import ClassScript.Proofs.Binding.Levels
import ClassScript.Proofs.Machine.Heeds
import ClassScript.Proofs.Machine.Soundness

/-!
# Receivers

Where code stands, told by what happened. A history has the runs of a session so far. From
it follows which execution of a class declaration a method comes from, and what the
superclass was then (`History.Declares`); which object a method was bound to
(`History.Binds`); and so for what receiver the code in a scope runs (`History.Stands`): the
one of the method that it stands in, through all blocks and functions in between. No scope
is read for this.
-/

namespace ClassScript.Machine

open Syntax Parsing Object Binding

/-- What the code of a method runs for: the object that the method was bound to, and the
superclass of the class that declares it, if there is one. -/
structure Receiver where
  object : Instance
  superclass : Option ObjectClass

/-- How a piece of a program stands in a scope: as code, with a receiver inside of a method,
or as methods of a class, which wait for an object. -/
inductive Standing where
  | code (receiver : Option Receiver)
  | methods (superclass : Option ObjectClass)

/-- What happened: the inputs that were accepted, their global scope, and the runs of tasks,
each with its fuel and the machine that it began on. -/
structure History where
  inputs : List Input
  globals : ScopeId
  runs : Nat → Task → State → Prop

namespace History

variable (H : History)

/-- In a scope a class declaration was executed. If it names a superclass, that was
evaluated to a class, and the methods are declared in a new scope behind all that there
were. -/
inductive Declares (outer : ScopeId) : Stmt → Option ObjectClass → ScopeId → Prop
  | plain {n m name methods} (ran : H.runs (n + 1) (.execute (.classDecl name none methods)) m)
      (here : m.current = outer) : Declares outer (.classDecl name none methods) none outer
  | derived {n m m₁ name occurrence methods c}
      (ran : H.runs (n + 1) (.execute (.classDecl name (some occurrence) methods)) m)
      (here : m.current = outer)
      (evaluated : evaluate n (.variable occurrence) m = .ok (.cls c) m₁) :
      Declares outer (.classDecl name (some occurrence) methods) (some c) m₁.scopes.size

/-- A method was bound to an object: read as its property, found for it by `super`, or
called to initialize it. The bound method has a new scope. -/
inductive Binds (method : Closure) (o : Instance) : ScopeId → Prop
  | property {n e name m m₁} (ran : H.runs (n + 1) (.evaluate (.get e name)) m)
      (evaluated : evaluate n e m = .ok (.object o) m₁)
      (unset : m₁.field? o name.text = none) (found : o.cls.method? name.text = some method) :
      Binds method o m₁.scopes.size
  | super {n id line name m} (ran : H.runs (n + 1) (.evaluate (.super id line name)) m)
      (found : readSuper id name m = methodValue method o m) : Binds method o m.scopes.size
  | initializer {n c arguments line m} (ran : H.runs (n + 1) (.call (.cls c) arguments line) m)
      (new : (m.newObject c).1 = o) (found : c.method? initializerName = some method) :
      Binds method o m.scopes.size

/-- Where a piece of a program stands, and how. Only a method that is bound has a new
receiver: the object, with the superclass that the class had when it was declared. -/
inductive Stands : Visit → ScopeId → Standing → Prop
  | input {input} (known : input ∈ H.inputs) : Stands (.ofInput input) H.globals (.code none)
  /-- A part of a piece for which no scope is opened. -/
  | part {v c scope standing} (whole : Stands v scope standing) (child : Child v c)
      (level : c.walk.scopes.length = v.walk.scopes.length) : Stands c scope standing
  /-- The statements of a block that was executed. -/
  | block {n m body c w receiver}
      (around : Stands ⟨.statement (.block body), c, w⟩ m.current (.code receiver))
      (ran : H.runs (n + 1) (.execute (.block body)) m) :
      Stands ⟨.statements body, c, w.enter⟩ m.scopes.size (.code receiver)
  /-- The body of a function that was called. -/
  | call {n m f body closure arguments receiver}
      (declared : Stands f closure.scope (.code receiver))
      (code : f.node = .function closure.declaration)
      (ran : H.runs (n + 1) (.invoke closure arguments) m) (child : Child f body) :
      Stands body m.scopes.size (.code receiver)
  /-- The methods of a class that was declared. -/
  | methods {v c s ds outer scope receiver superclass}
      (around : Stands v outer (.code receiver)) (code : v.node = .statement s)
      (declared : H.Declares outer s superclass scope) (child : Child v c)
      (rows : c.node = .methods ds) : Stands c scope (.methods superclass)
  /-- A method that was bound. -/
  | bound {f method o scope superclass}
      (declared : Stands f method.scope (.methods superclass))
      (code : f.node = .function method.declaration) (binds : H.Binds method o scope) :
      Stands f scope (.code (some ⟨o, superclass⟩))

/-- Pieces that stand somewhere were visited. -/
theorem Stands.seen {H : History} {v : Visit} {scope : ScopeId} {standing : Standing}
    (stands : H.Stands v scope standing) : Seen H.inputs v := by
  induction stands with
  | input known => exact ⟨_, known, .refl⟩
  | part _ child _ ih => exact ih.child child
  | block _ _ ih => exact ih.child .block
  | call _ _ _ child ih => exact ih.child child
  | methods _ _ _ child _ ih => exact ih.child child
  | bound _ _ _ ih => exact ih

/-! ## Where receivers come from -/

/-- A piece of the function, of no class inside of it. -/
inductive Encloses (f : Visit) : Visit → Prop
  | refl : Encloses f f
  | child {v c} (before : Encloses f v) (child : Child v c)
      (outside : ∀ ds, c.node ≠ .methods ds) : Encloses f c

/-- The piece has the receiver from the innermost class around it. The class was declared,
with the superclass of the receiver; a method of it was bound to the object; and the piece
belongs to this method, and to no class inside of it. -/
inductive Receives (v : Visit) (receiver : Receiver) : Prop
  | of {k f name occurrence ds outer method scope}
      (declaration : k.node = .statement (.classDecl name occurrence ds))
      (declared : H.Declares outer (.classDecl name occurrence ds) receiver.superclass
        method.scope)
      (below : Reaches k f) (among : method.declaration ∈ ds)
      (code : f.node = .function method.declaration)
      (binds : H.Binds method receiver.object scope) (inside : Encloses f v) :
      Receives v receiver

/-- Among the methods of a class there is no code. -/
theorem Stands.outside {H : History} {v : Visit} {scope : ScopeId}
    {receiver : Option Receiver} (stands : H.Stands v scope (.code receiver))
    (ds : List FunctionDecl) : v.node ≠ .methods ds := by
  generalize same : Standing.code receiver = standing at stands
  induction stands generalizing ds with
  | @input input known => cases input <;> exact nofun
  | part whole child level ih =>
    intro rows
    -- the methods of a class are reached one scope deeper, which this step is not
    exact Nat.ne_of_gt (child.length_methods rows (ih · same)) level
  | block => exact nofun
  | call declared code ran child =>
    cases child with
    | functionBody => exact nofun
    | _ => cases code
  | methods => cases same
  | bound declared code binds =>
    rw [code]
    exact nofun

/-- What stands as methods of a class: some of its methods, or one. -/
theorem Stands.declared {H : History} {v : Visit} {scope : ScopeId}
    {superclass : Option ObjectClass} (stands : H.Stands v scope (.methods superclass)) :
    ∃ k name occurrence ds outer, k.node = .statement (.classDecl name occurrence ds) ∧
      H.Declares outer (.classDecl name occurrence ds) superclass scope ∧ Reaches k v ∧
      ((∃ rows, v.node = .methods rows ∧ rows ⊆ ds) ∨ ∃ d ∈ ds, v.node = .function d) := by
  generalize same : Standing.methods superclass = standing at stands
  induction stands with
  | @part v c scope standing whole child level ih =>
    obtain ⟨k, name, occurrence, ds, outer, node, declares, below, part⟩ := ih same
    refine ⟨k, name, occurrence, ds, outer, node, declares, below.child child, ?_⟩
    -- from a list of methods one goes to its head or its tail
    rcases part with ⟨rows, rows', within⟩ | ⟨d, among, code⟩
    · cases child with
      | methodsHead =>
        cases rows'
        exact .inr ⟨_, within List.mem_cons_self, rfl⟩
      | methodsTail =>
        cases rows'
        exact .inl ⟨_, rfl, fun d inside => within (List.mem_cons_of_mem _ inside)⟩
      | _ => cases rows'
    · -- the body of a function has a scope of its own
      cases child with
      | functionBody => simp [Walk.scopes_declareDefined_foldl] at level
      | _ => cases code
  | @methods v c s rows outer scope receiver superclass' around code declares child node ih =>
    cases same
    cases declares with
    | plain ran here =>
      exact ⟨v, _, _, _, outer, code, .plain ran here, .child .refl child,
        .inl ⟨rows, node, child.eq_methods code node ▸ List.Subset.refl _⟩⟩
    | derived ran here evaluated =>
      exact ⟨v, _, _, _, outer, code, .derived ran here evaluated, .child .refl child,
        .inl ⟨rows, node, child.eq_methods code node ▸ List.Subset.refl _⟩⟩
  | _ => cases same

/-- A receiver comes from the innermost class around. -/
theorem Stands.receives {H : History} {v : Visit} {scope : ScopeId} {receiver : Receiver}
    (stands : H.Stands v scope (.code (some receiver))) : H.Receives v receiver := by
  generalize same : Standing.code (some receiver) = standing at stands
  induction stands with
  | input => cases same
  | @part v c scope standing whole child level ih =>
    cases same
    obtain ⟨declaration, declared, below, among, code, binds, inside⟩ := ih rfl
    exact ⟨declaration, declared, below, among, code, binds,
      inside.child child (whole.part child level).outside⟩
  | block around ran ih =>
    cases same
    obtain ⟨declaration, declared, below, among, code, binds, inside⟩ := ih rfl
    exact ⟨declaration, declared, below, among, code, binds,
      inside.child .block (Stands.block around ran).outside⟩
  | call around code' ran child ih =>
    cases same
    obtain ⟨declaration, declared, below, among, code, binds, inside⟩ := ih rfl
    exact ⟨declaration, declared, below, among, code, binds,
      inside.child child (around.call code' ran child).outside⟩
  | methods => cases same
  | @bound f method o scope superclass declared code binds =>
    cases same
    obtain ⟨k, name, occurrence, ds, outer, node, declares, below, part⟩ := declared.declared
    -- the method bound is one of the class, not the list of them
    rcases part with ⟨rows, rows', -⟩ | ⟨d, among, code'⟩
    · cases code.symm.trans rows'
    · cases code.symm.trans code'
      exact ⟨node, declares, below, among, code, binds, .refl⟩

/-! ## Values -/

/-- The function stands where its scope is. -/
def OfFunction (closure : Closure) : Prop :=
  ∃ f receiver, f.node = .function closure.declaration ∧
    H.Stands f closure.scope (.code receiver)

/-- The method stands among those of a class that was declared. -/
def OfMethod (method : Closure) : Prop :=
  ∃ f superclass, f.node = .function method.declaration ∧
    H.Stands f method.scope (.methods superclass)

def OfClass (c : ObjectClass) : Prop :=
  ∀ name method, c.method? name = some method → H.OfMethod method

/-- Functions, and the methods of classes and objects, come from what happened. -/
def Traced : Value → Prop
  | .function _ closure => H.OfFunction closure
  | .cls c => H.OfClass c
  | .object o => H.OfClass o.cls
  | _ => True

/-- All values that the machine holds are traced. The host has no function but the clock. -/
structure Stored (m : State) : Prop where
  bound : ∀ id name value, m.scopes.own? id name = some value → H.Traced value
  field : ∀ (id : Nat) (fields : Fields) (name : String) (value : Value),
    m.objects[id]? = some fields → fields[name]? = some value → H.Traced value
  hosts : ∀ action ∈ m.hosts, action = .clock

end History

variable {H : History}

theorem IsData.traced {v : Value} (data : IsData v) : H.Traced v := by
  cases v <;> trivial

/-- A bound method is a function. -/
theorem History.OfMethod.bind {method : Closure} (declared : H.OfMethod method) {o : Instance}
    {scope : ScopeId} (binds : H.Binds method o scope) :
    H.OfFunction { method with scope } := by
  obtain ⟨f, superclass, code, stands⟩ := declared
  exact ⟨f, some ⟨o, superclass⟩, code, .bound stands code binds⟩

/-- The methods of a class are visited one by one, in the scope of all of them. -/
theorem History.Stands.method {ds : List FunctionDecl} {v : Visit} {scope : ScopeId}
    {superclass : Option ObjectClass} (stands : H.Stands v scope (.methods superclass))
    (rows : v.node = .methods ds) {d : FunctionDecl} (among : d ∈ ds) :
    ∃ f, f.node = .function d ∧ H.Stands f scope (.methods superclass) := by
  obtain ⟨node, c, w⟩ := v
  obtain rfl : node = .methods ds := rows
  induction ds generalizing w with
  | nil => cases among
  | cons first rest ih =>
    rcases List.mem_cons.mp among with rfl | later
    · exact ⟨_, rfl, stands.part .methodsHead rfl⟩
    · exact ih later _ (stands.part .methodsTail (congrArg _ (Walk.scopes_function ..)))

/-! ## Machines that go on -/

/-- The second machine has the scopes of the first one, with the same parents, and in them
the reserved names are bound to the same values. -/
structure Fixes (m m' : State) : Prop where
  scopes : m.scopes.Extends m'.scopes
  reserved : ∀ id < m.scopes.size, ∀ name ∈ reserved,
    m'.scopes.own? id name = m.scopes.own? id name

namespace Fixes

variable {m m' : State}

theorem of_scopes_eq (same : m'.scopes = m.scopes) : Fixes m m' where
  scopes := same ▸ .refl _
  reserved _ _ _ _ := by rw [same]

theorem refl (m : State) : Fixes m m := .of_scopes_eq rfl

/-- What is fixed by two steps one after the other is fixed by both. -/
theorem trans {a b c : State} (first : Fixes a b) (second : Fixes b c) : Fixes a c where
  scopes := first.scopes.trans second.scopes
  reserved id inside name special :=
    (second.reserved id (Nat.lt_of_lt_of_le inside first.scopes.size) name special).trans
      (first.reserved id inside name special)

/-- A new scope moves none of the others, and binds nothing. -/
theorem pushScope (m : State) (parent : Option ScopeId) : Fixes m (m.pushScope parent).2 where
  scopes := .push ..
  reserved id _ name _ := m.scopes.own?_push id name parent

/-- A variable is bound. -/
theorem definePlain (m : State) (id : ScopeId) {name : String} (plain : name ∉ Syntax.reserved)
    (value : Value) : Fixes m (m.define id name value) where
  scopes := .define ..
  reserved other _ text special := by
    have differ : name ≠ text := fun same => plain (same ▸ special)
    simp [State.define, Scopes.own?_define, differ]

/-- Any name is bound in a scope that is new. -/
theorem defineNew (fixes : Fixes m m') {id : ScopeId} (new : m.scopes.size ≤ id) (name : String)
    (value : Value) : Fixes m (m'.define id name value) where
  scopes := fixes.scopes.trans (.define ..)
  reserved other inside text special := by
    have differ : id ≠ other := Nat.ne_of_gt (Nat.lt_of_lt_of_le inside new)
    simp only [State.define, Scopes.own?_define, differ, false_and, if_false]
    exact fixes.reserved other inside text special

end Fixes

/-- All that is stored stays traced if what is defined is. -/
theorem History.Stored.define {m : State} (stored : H.Stored m) (id : ScopeId) (name : String)
    {value : Value} (traced : H.Traced value) : H.Stored (m.define id name value) where
  bound other text v bound := by
    simp only [State.define, Scopes.own?_define] at bound
    split at bound
    · cases bound
      exact traced
    · exact stored.bound other text v bound
  field := stored.field
  hosts := stored.hosts

/-- A step in a scope leads to another machine that holds traced values. -/
structure History.Goes (H : History) (m m' : State) : Prop where
  stored : H.Stored m'
  fixes : Fixes m m'
  current : m'.current = m.current

namespace History.Goes

variable {m m' : State} (stored : H.Stored m)

section Here

include stored

theorem stay : H.Goes m m := ⟨stored, .refl m, rfl⟩

/-- Neither scopes nor fields change. -/
theorem of_eq (scopes : m'.scopes = m.scopes) (objects : m'.objects = m.objects)
    (hosts : m'.hosts = m.hosts) (current : m'.current = m.current) : H.Goes m m' where
  stored := {
    bound := by rw [scopes]; exact stored.bound
    field := by rw [objects]; exact stored.field
    hosts := by rw [hosts]; exact stored.hosts }
  fixes := .of_scopes_eq scopes
  current := current

/-- An object that has no fields. -/
theorem newObject (cls : ObjectClass) : H.Goes m (m.newObject cls).2 where
  stored := {
    bound := stored.bound
    field := fun id fields name value found set => by
      simp only [State.newObject, Array.getElem?_push] at found
      split at found
      · cases found
        simp at set
      · exact stored.field id fields name value found set
    hosts := stored.hosts }
  fixes := .of_scopes_eq rfl
  current := rfl

/-- A field that is set to a traced value leaves all that is stored traced. -/
theorem setField (o : Instance) (name : String) {value : Value} (traced : H.Traced value) :
    H.Goes m (m.setField o name value) where
  stored := {
    bound := stored.bound
    field := fun id fields text v found set => by
      simp only [State.setField, Array.getElem?_modify] at found
      -- the fields are those of the object, with the new one, or of another object
      split at found
      · obtain ⟨old, there, rfl⟩ := Option.map_eq_some_iff.mp found
        rw [Std.ExtTreeMap.getElem?_insert] at set
        split at set
        · cases set
          exact traced
        · exact stored.field id old text v there set
      · exact stored.field id fields text v found set
    hosts := stored.hosts }
  fixes := .of_scopes_eq rfl
  current := rfl

theorem pushScope (parent : Option ScopeId) : H.Goes m (m.pushScope parent).2 where
  stored := {
    bound := fun id name value bound =>
      stored.bound id name value ((m.scopes.own?_push id name parent).symm.trans bound)
    field := stored.field
    hosts := stored.hosts }
  fixes := .pushScope m parent
  current := rfl

end Here

theorem trans {a b c : State} (first : H.Goes a b) (second : H.Goes b c) : H.Goes a c :=
  ⟨second.stored, first.fixes.trans second.fixes, second.current.trans first.current⟩

/-- A variable is bound to a traced value. -/
theorem definePlain (stored : H.Stored m) (id : ScopeId) {name : String}
    (plain : name ∉ reserved) {value : Value} (traced : H.Traced value) :
    H.Goes m (m.define id name value) :=
  ⟨stored.define id name traced, .definePlain m id plain value, rfl⟩

/-- Any name is bound in a new scope. -/
theorem defineNew (goes : H.Goes m m') {id : ScopeId} (new : m.scopes.size ≤ id) (name : String)
    {value : Value} (traced : H.Traced value) : H.Goes m (m'.define id name value) :=
  ⟨goes.stored.define id name traced, goes.fixes.defineNew new name value, goes.current⟩

/-- Names are bound in a new scope one after another. -/
theorem bindAll {scope : ScopeId} (new : m.scopes.size ≤ scope)
    {bindings : List (Name × Value)} (traced : ∀ b ∈ bindings, H.Traced b.2)
    (goes : H.Goes m m') : H.Goes m (bindAll scope bindings m') := by
  induction bindings generalizing m' with
  | nil => exact goes
  | cons binding rest ih =>
    refine ih (fun b inside => traced b (List.mem_cons_of_mem _ inside)) ?_
    exact goes.defineNew new _ (traced binding List.mem_cons_self)

end History.Goes

end ClassScript.Machine
