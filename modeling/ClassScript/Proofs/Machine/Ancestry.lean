import ClassScript.Proofs.Machine.Receivers

/-!
# Where methods come from

A class comes from an execution of a class declaration, which bound it to its name
(`History.Makes`). So what a lookup finds can be told by declarations alone: the nearest class
that declares a method of the name counts, and of its methods of this name the last one
(`History.Finds`). The tables of the classes give just that (`Finds.method?`), for a chain of
any length.
-/

namespace ClassScript.Machine

open Syntax Parsing Object Binding

namespace History

variable (H : History)

/-- The class was made: an execution of its declaration, with the given methods, bound it to
its name. With it goes what the superclass was evaluated to, and the scope that the methods
are declared in. -/
inductive Makes (cls : ObjectClass) : List FunctionDecl → Option ObjectClass → ScopeId → Prop
  | plain {n m m' name ds} (ran : H.runs (n + 1) (.execute (.classDecl name none ds)) m)
      (done : execute (n + 1) (.classDecl name none ds) m = .ok .normal m')
      (bound : m'.scopes.own? m.current name.text = some (.cls cls)) :
      Makes cls ds none m.current
  | derived {n m m₁ m' name occurrence ds c}
      (ran : H.runs (n + 1) (.execute (.classDecl name (some occurrence) ds)) m)
      (evaluated : evaluate n (.variable occurrence) m = .ok (.cls c) m₁)
      (done : execute (n + 1) (.classDecl name (some occurrence) ds) m = .ok .normal m')
      (bound : m'.scopes.own? m.current name.text = some (.cls cls)) :
      Makes cls ds (some c) m₁.scopes.size

/-- The class was made, and so were all classes above it. -/
inductive Made : ObjectClass → Prop
  | of {cls ds superclass scope} (makes : H.Makes cls ds superclass scope)
      (above : ∀ c ∈ superclass, Made c) : Made cls

end History

/-- The last method of a name. -/
def lastNamed (text : String) (ds : List FunctionDecl) : Option FunctionDecl :=
  ds.reverse.find? fun d => d.name.text == text

/-- What a lookup of a method comes to, from a class upward: the last method of the name that
the nearest class declares, and the scope that it is declared in. -/
inductive History.Finds (H : History) (text : String) :
    ObjectClass → Option (FunctionDecl × ScopeId) → Prop
  | here {cls ds superclass scope d} (makes : H.Makes cls ds superclass scope)
      (last : lastNamed text ds = some d) : Finds H text cls (some (d, scope))
  | above {cls ds c scope found} (makes : H.Makes cls ds (some c) scope)
      (missing : lastNamed text ds = none) (rest : Finds H text c found) :
      Finds H text cls found
  | nowhere {cls ds scope} (makes : H.Makes cls ds none scope)
      (missing : lastNamed text ds = none) : Finds H text cls none

/-- Every run begins in a scope that is there. -/
def History.Inside (H : History) : Prop :=
  ∀ n t m, H.runs n t m → m.current < m.scopes.size

/-! ## Making a class -/

/-- The class that a declaration makes, once its superclass is known. -/
def classOf (m : State) (name : Name) (superclass : Option ObjectClass)
    (ds : List FunctionDecl) : ObjectClass :=
  ⟨m.nextId, name.text, superclass,
    methodTable (if superclass.isSome then m.scopes.size else m.current) ds⟩

/-- The scope that the methods of a class are declared in. -/
theorem classScope_eq (superclass : Option ObjectClass) (m : State) :
    ∃ opened, classScope superclass m =
        .ok (if superclass.isSome then m.scopes.size else m.current) opened ∧
      m.scopes.Extends opened.scopes ∧ opened.current = m.current ∧ opened.nextId = m.nextId := by
  cases superclass with
  | none => exact ⟨m, rfl, .refl _, rfl, rfl⟩
  | some c => exact ⟨_, rfl, (Scopes.Extends.push ..).trans (.define ..), rfl, rfl⟩

/-- Where there is a scope to declare it in, a class is made, and its name is bound to it. -/
theorem declareClass_binds {m : State} (inside : m.current < m.scopes.size) (name : Name)
    (superclass : Option ObjectClass) (ds : List FunctionDecl) :
    ∃ m', declareClass name superclass ds m = .ok () m' ∧
      m'.scopes.own? m.current name.text = some (.cls (classOf m name superclass ds)) := by
  let named := m.define m.current name.text .nil
  have size : named.scopes.size = m.scopes.size := Scopes.size_define ..
  have bound : (named.scopes.own? m.current name.text).isSome := by
    simp [named, State.define, Scopes.own?_define, inside]
  obtain ⟨opened, ran, grows, here, next⟩ := classScope_eq superclass named
  have here : opened.current = m.current := here
  let numbered : State := { opened with nextId := opened.nextId + 1 }
  -- the name is bound before, so it is bound again where it is
  have there : (numbered.scopes.own? numbered.current name.text).isSome :=
    here.symm ▸ grows.bound _ _ bound
  let scope := if superclass.isSome then named.scopes.size else named.current
  let cls : ObjectClass := ⟨opened.nextId, name.text, superclass, methodTable scope ds⟩
  have same : cls = classOf m name superclass ds := by
    simp only [cls, scope, classOf, next, size]
    rfl
  have assigned := assign_eq_define there (.cls cls)
  refine ⟨numbered.define numbered.current name.text (.cls cls), ?_, ?_⟩
  · have first : define name.text .nil m = .ok () named := rfl
    have made : newClass name.text superclass (methodTable scope ds) opened = .ok cls numbered :=
      rfl
    simp only [declareClass, bind, EStateM.bind, first, ran]
    rw [made]
    exact assigned
  · have inside : numbered.current < numbered.scopes.size :=
      Nat.lt_of_lt_of_le (here ▸ inside) (size ▸ grows.size)
    rw [← same]
    simp only [State.define, Scopes.own?_define]
    exact if_pos ⟨here, trivial, inside⟩

/-! ## Classes that were made -/

namespace History

variable {H : History} {cls : ObjectClass} {ds : List FunctionDecl}
  {superclass : Option ObjectClass} {scope : ScopeId} {text : String}
  {found : Option (FunctionDecl × ScopeId)}

/-- An execution of a class declaration that makes the class. -/
theorem Makes.of_plain {n : Nat} {m : State} {name : Name} (inside : m.current < m.scopes.size)
    (ran : H.runs (n + 1) (.execute (.classDecl name none ds)) m) :
    H.Makes (classOf m name none ds) ds none m.current := by
  obtain ⟨m', made, bound⟩ := declareClass_binds inside name none ds
  have done : execute (n + 1) (.classDecl name none ds) m = .ok .normal m' := by
    simp only [execute, bind, EStateM.bind, made]
    rfl
  exact .plain ran done bound

/-- A class declaration with a superclass makes a class whose parent is that superclass. -/
theorem Makes.of_derived {n : Nat} {m m₁ : State} {name : Name} {occurrence : Occurrence}
    {c : ObjectClass} (inside : m₁.current < m₁.scopes.size)
    (ran : H.runs (n + 1) (.execute (.classDecl name (some occurrence) ds)) m)
    (evaluated : evaluate n (.variable occurrence) m = .ok (.cls c) m₁) :
    H.Makes (classOf m₁ name (some c) ds) ds (some c) m₁.scopes.size := by
  obtain ⟨m', made, bound⟩ := declareClass_binds inside name (some c) ds
  have current : m₁.current = m.current := (grows_of_ok (t := .evaluate _) evaluated).current
  rw [current] at bound
  have done : execute (n + 1) (.classDecl name (some occurrence) ds) m = .ok .normal m' := by
    simp only [execute, bind, EStateM.bind, evaluated, asSuperclass, pure, EStateM.pure, made]
  exact .derived ran evaluated done bound

/-- A class that was made has the methods of its declaration, and its superclass. -/
theorem Makes.shape (inside : H.Inside) (makes : H.Makes cls ds superclass scope) :
    ∃ id name, cls = ⟨id, name, superclass, methodTable scope ds⟩ := by
  cases makes with
  | @plain n m m' name ds ran done bound =>
    obtain ⟨m'', made, binds⟩ := declareClass_binds (inside _ _ _ ran) name none ds
    simp only [execute, bind, EStateM.bind, made] at done
    cases done
    rw [binds] at bound
    cases bound
    exact ⟨_, _, rfl⟩
  -- the superclass is evaluated first and leaves the class with the scope it started in
  | @derived n m m₁ m' name occurrence ds c ran evaluated done bound =>
    have grows := grows_of_ok (t := .evaluate _) evaluated
    have there : m₁.current < m₁.scopes.size := by
      rw [grows.current]
      exact Nat.lt_of_lt_of_le (inside _ _ _ ran) grows.scopes.size
    obtain ⟨m'', made, binds⟩ := declareClass_binds there name (some c) ds
    simp only [execute, bind, EStateM.bind, evaluated, asSuperclass, pure, EStateM.pure, made]
      at done
    cases done
    rw [← grows.current, binds] at bound
    cases bound
    exact ⟨_, _, rfl⟩

/-! ## What a lookup finds -/

/-- A lookup finds what the declarations tell, as an initializer if its name says so. -/
theorem Finds.method? (inside : H.Inside) (finds : H.Finds text cls found) :
    cls.method? text = found.map fun (d, scope) => ⟨d, scope, text == initializerName⟩ := by
  -- what a class has of its own is the last method of its declaration
  have own (ds : List FunctionDecl) (scope : ScopeId) : (methodTable scope ds)[text]? =
      (lastNamed text ds).map fun d => ⟨d, scope, text == initializerName⟩ := by
    rw [getElem?_methodTable, ← lastNamed]
    cases last : lastNamed text ds with
    | none => rfl
    | some d =>
      have named : d.name.text = text := by simpa using List.find?_some last
      simp [named]
  induction finds with
  | @here cls ds superclass scope d makes last =>
    obtain ⟨id, name, rfl⟩ := makes.shape inside
    have there := own ds scope
    rw [last] at there
    cases superclass <;> simp only [ObjectClass.method?, there] <;> rfl
  | @above cls ds c scope found makes missing rest ih =>
    obtain ⟨id, name, rfl⟩ := makes.shape inside
    have nothing := own ds scope
    rw [missing] at nothing
    simp only [ObjectClass.method?, nothing]
    exact ih
  | @nowhere cls ds scope makes missing =>
    obtain ⟨id, name, rfl⟩ := makes.shape inside
    have nothing := own ds scope
    rw [missing] at nothing
    simp only [ObjectClass.method?, nothing]
    rfl

/-- For a class that was made, a lookup comes to something. -/
theorem Made.finds (made : H.Made cls) (text : String) : ∃ found, H.Finds text cls found := by
  induction made with
  | @of cls ds superclass scope makes above ih =>
    cases last : lastNamed text ds with
    | some d => exact ⟨_, .here makes last⟩
    | none =>
      cases superclass with
      | none => exact ⟨none, .nowhere makes last⟩
      | some c =>
        obtain ⟨found, rest⟩ := ih c rfl
        exact ⟨found, .above makes last rest⟩

end History

end ClassScript.Machine
