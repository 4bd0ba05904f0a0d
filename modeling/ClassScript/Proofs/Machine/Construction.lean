import Mathlib.Data.List.Nodup
import ClassScript.Proofs.Binding.Opened
import ClassScript.Proofs.Binding.Misuse
import ClassScript.Proofs.Machine.Carried
import ClassScript.Proofs.Machine.Events

/-!
# Calls of functions and classes

What a call does, up to the one task that it calls: a function is called by running its body
once, on a machine with a new scope that binds each parameter to its argument (`invoke_eq`,
`own?_entered`); a class by making an object and calling its initializer once, if there is one
(`construct_eq`). An initializer whose body ends gives the object that it was bound to, in
whatever way the body ends (`callResult_initializer`).
-/

namespace ClassScript.Machine

open Syntax Parsing Object Binding

/-! ## Parameters -/

/-- A row without a repetition has distinct names. -/
theorem nodup_of_repeated {earlier : List String} {names : List Name}
    (none : repeated earlier names = []) :
    (names.map Name.text).Nodup ∧ ∀ name ∈ names, name.text ∉ earlier := by
  induction names generalizing earlier with
  | nil => simp
  | cons name rest ih =>
    -- the rest of the row repeats neither the first name nor those ahead of the row
    rw [repeated, List.append_eq_nil_iff] at none
    obtain ⟨distinct, apart⟩ := ih none.2
    have new : name.text ∉ earlier := by
      intro known
      simp [known] at none
    refine ⟨?_, ?_⟩
    · rw [List.map_cons, List.nodup_cons]
      refine ⟨?_, distinct⟩
      intro later
      obtain ⟨other, inside, same⟩ := List.mem_map.mp later
      exact apart other inside (same ▸ List.mem_cons_self)
    · rw [List.forall_mem_cons]
      exact ⟨new, fun other inside known => apart other inside (List.mem_cons_of_mem _ known)⟩

/-- The parameters of a function that was accepted have distinct names. -/
theorem parameters_distinct {table : Locals} {body f : Visit} {d : FunctionDecl}
    (sound : Sound table body) (part : Child f body) (code : f.node = .function d) :
    (d.parameters.map Name.text).Nodup := by
  cases part with
  | @functionBody name parameters body c w =>
    cases code
    -- the walk over the body begins where the parameters are declared, and found no error
    have accepted : (Walk.statements c body (parameters.foldl Walk.declareDefined w.enter)).errors
        = [] := sound.accepted
    have before := (Walk.notes_statements c body _).accepted accepted
    rw [errors_parameters, List.append_eq_nil_iff] at before
    have none : (repeated [] parameters).map redeclaration = [] :=
      (redeclared_local w.scopes (fun text => by simp) parameters).symm.trans before.2
    exact (nodup_of_repeated (List.map_eq_nil_iff.mp none)).1
  | _ => cases code

/-- A name that is not among those bound keeps what it was bound to. -/
theorem own?_bindAll_other {scope : ScopeId} {name : String} {bindings : List (Name × Value)}
    {m : State} (other : name ∉ bindings.map (·.1.text)) :
    (bindAll scope bindings m).scopes.own? scope name = m.scopes.own? scope name := by
  induction bindings generalizing m with
  | nil => rfl
  | cons binding rest ih =>
    rw [List.map_cons, List.mem_cons, not_or] at other
    rw [bindAll_cons, ih other.2]
    simp only [State.define, Scopes.own?_define]
    rw [if_neg fun h => other.1 h.2.1.symm]

/-- So does every name in another scope. -/
theorem own?_bindAll_apart {scope id : ScopeId} (apart : id ≠ scope) (name : String)
    (bindings : List (Name × Value)) (m : State) :
    (bindAll scope bindings m).scopes.own? id name = m.scopes.own? id name := by
  induction bindings generalizing m with
  | nil => rfl
  | cons binding rest ih =>
    rw [bindAll_cons, ih]
    simp only [State.define, Scopes.own?_define]
    rw [if_neg fun h => apart h.1.symm]

/-- Of distinct names each is bound to its value. -/
theorem own?_bindAll {scope : ScopeId} {bindings : List (Name × Value)} {m : State}
    (inside : scope < m.scopes.size) (distinct : (bindings.map (·.1.text)).Nodup)
    {binding : Name × Value} (among : binding ∈ bindings) :
    (bindAll scope bindings m).scopes.own? scope binding.1.text = some binding.2 := by
  induction bindings generalizing m with
  | nil => cases among
  | cons first rest ih =>
    rw [List.map_cons, List.nodup_cons] at distinct
    rw [bindAll_cons]
    have inside' : scope < (m.define scope first.1.text first.2).scopes.size := by
      simpa [State.define] using inside
    rcases List.mem_cons.mp among with rfl | later
    · rw [own?_bindAll_other distinct.1]
      simp [State.define, Scopes.own?_define, inside]
    · exact ih inside' distinct.2 later

@[simp] theorem current_bindAll (scope : ScopeId) (bindings : List (Name × Value)) (m : State) :
    (bindAll scope bindings m).current = m.current := by
  induction bindings generalizing m with
  | nil => rfl
  | cons binding rest ih => exact ih _

/-! ## Calls of functions -/

/-- The machine on which the body of a function begins: in a new scope, inside the one of the
function, in which the parameters are bound to the arguments. -/
def entered (closure : Closure) (arguments : List Value) (m : State) : State :=
  { bindAll m.scopes.size (closure.declaration.parameters.zip arguments)
      (m.pushScope (some closure.scope)).2 with current := m.scopes.size }

section Entered

variable {closure : Closure} {arguments : List Value} {m : State}

theorem extends_entered : m.scopes.Extends (entered closure arguments m).scopes := by
  have opened : m.scopes.Extends (m.pushScope (some closure.scope)).2.scopes := .push ..
  exact opened.trans (extends_bindAll ..)

/-- The scope of a call stands in the scope that the closure was made in. -/
theorem parent?_entered :
    (entered closure arguments m).scopes.parent? m.scopes.size = some closure.scope :=
  (extends_bindAll _ _ _).parent? (Scopes.parent?_push_self m.scopes _)

/-- In the scopes that were there nothing is bound. -/
theorem own?_entered_apart {id : ScopeId} (apart : id ≠ m.scopes.size) (name : String) :
    (entered closure arguments m).scopes.own? id name = m.scopes.own? id name :=
  (own?_bindAll_apart apart name _ _).trans (m.scopes.own?_push id name _)

/-- Each parameter is bound to its argument. -/
theorem own?_entered (enough : arguments.length = closure.declaration.parameters.length)
    (distinct : (closure.declaration.parameters.map Name.text).Nodup) {i : Nat}
    {parameter : Name} {v : Value} (named : closure.declaration.parameters[i]? = some parameter)
    (given : arguments[i]? = some v) :
    (entered closure arguments m).scopes.own? m.scopes.size parameter.text = some v := by
  have inside : m.scopes.size < (m.pushScope (some closure.scope)).2.scopes.size := by
    simp [State.pushScope]
  have names : (closure.declaration.parameters.zip arguments).map (·.1.text) =
      closure.declaration.parameters.map Name.text := by
    rw [show (fun b : Name × Value => b.1.text) = Name.text ∘ Prod.fst from rfl, ← List.map_map,
      List.map_fst_zip (Nat.le_of_eq enough.symm)]
  have among : (parameter, v) ∈ closure.declaration.parameters.zip arguments := by
    refine List.mem_of_getElem? (i := i) ?_
    rw [List.getElem?_zip_eq_some]
    exact ⟨named, given⟩
  exact own?_bindAll inside (names ▸ distinct) among

end Entered

/-- A call of a function runs its body, once and in a new scope. -/
theorem invoke_eq (n : Nat) (closure : Closure) (arguments : List Value) (m : State) :
    invoke (n + 1) closure arguments m =
      match executeAll n closure.declaration.body (entered closure arguments m) with
      | .ok completion m₁ => callResult closure completion { m₁ with current := m.current }
      | .error e m₁ => .error e { m₁ with current := m.current } := by
  have current : (bindAll m.scopes.size (closure.declaration.parameters.zip arguments)
      (m.pushScope (some closure.scope)).2).current = m.current := current_bindAll ..
  simp only [invoke, bind, EStateM.bind, callScope_eq, within, current, entered]
  cases executeAll n closure.declaration.body _ with
  | ok completion m₁ => rfl
  | error e m₁ => rfl

/-- A call of a closure runs its body, once, with the parameters bound. -/
theorem called_invoke (n : Nat) (closure : Closure) (arguments : List Value) (m : State) :
    (Task.invoke closure arguments).plan.called (Task.tasksAt n) m =
      [(.executeAll closure.declaration.body, entered closure arguments m)] := by
  simp only [Task.plan]
  rw [Plan.called_prim_bind, callScope_eq]
  dsimp only
  rw [Plan.called_inside_bind]
  refine congrArg _ ?_
  cases Task.tasksAt n (.executeAll closure.declaration.body) _ with
  | ok completion m₁ => exact Plan.called_prim _
  | error e m₁ => rfl

/-- An initializer gives the object that it was bound to, however its body ended. -/
theorem callResult_initializer {closure : Closure} {m : State} {v : Value}
    (initializer : closure.isInitializer = true)
    (bound : m.scopes.own? closure.scope "this" = some v) (completion : Completion) :
    callResult closure completion m = .ok v m := by
  have read : m.scopes.getAt 0 closure.scope "this" = .ok v := Scopes.getAt_of_found rfl bound
  simp only [callResult, initializer, if_true, boundObject, read]
  rfl

/-- An initializer that ends gives what its scope binds to `this`. -/
theorem this_of_invoke {n : Nat} {closure : Closure} {arguments : List Value} {m m' : State}
    {v : Value} (initializer : closure.isInitializer = true)
    (gave : invoke n closure arguments m = .ok v m') :
    m'.scopes.own? closure.scope "this" = some v := by
  cases n with
  | zero => cases gave
  | succ n =>
    rw [invoke_eq] at gave
    cases ran : executeAll n closure.declaration.body (entered closure arguments m) with
    | error e m₁ =>
      rw [ran] at gave
      cases gave
    | ok completion m₁ =>
      rw [ran] at gave
      -- an initializer hands back what this is bound to, whatever its body gave
      simp only [callResult, initializer, if_true, boundObject, Scopes.getAt, Scopes.ancestor,
        Scopes.ancestor?] at gave
      cases bound : m₁.scopes.own? closure.scope "this" with
      | none =>
        simp only [bound] at gave
        cases gave
      | some value =>
        simp only [bound] at gave
        cases gave
        exact bound

/-! ## Calls of classes -/

/-- The body of an initializer begins for an object that has no fields yet: its scope binds
each parameter to its argument, and lies inside one that binds `this` to the object, inside the
one that the method was declared in. -/
structure Initializing (o : Instance) (d : FunctionDecl) (scope : ScopeId)
    (arguments : List Value) (m : State) : Prop where
  blank : ∀ name, m.field? o name = none
  enough : arguments.length = d.parameters.length
  bound : ∀ (i : Nat) (parameter : Name) (v : Value), d.parameters[i]? = some parameter →
    arguments[i]? = some v → m.scopes.own? m.current parameter.text = some v
  this : ∃ around, m.scopes.parent? m.current = some around ∧
    m.scopes.own? around "this" = some (.object o) ∧ m.scopes.parent? around = some scope

/-- The call of a class that runs an initializer, once: it calls the initializer and nothing
else, that runs its body and nothing else, and as the body ends, so does the call. -/
structure Initializes (n : Nat) (c : ObjectClass) (arguments : List Value) (line : Nat)
    (d : FunctionDecl) (scope : ScopeId) (m : State) (closure : Closure) (made begun : State) :
    Prop where
  declaration : closure.declaration = d
  once : (Task.call (.cls c) arguments line).plan.called (Task.tasksAt (n + 1)) m =
    [(.invoke closure arguments, made)]
  body : (Task.invoke closure arguments).plan.called (Task.tasksAt n) made =
    [(.executeAll d.body, begun)]
  begins : Initializing (m.newObject c).1 d scope arguments begun
  gives : ∀ completion m₁, executeAll n d.body begun = .ok completion m₁ →
    call (n + 2) (.cls c) arguments line m =
      .ok (.object (m.newObject c).1) { m₁ with current := m.current }
  fails : ∀ e m₁, executeAll n d.body begun = .error e m₁ →
    call (n + 2) (.cls c) arguments line m = .error e { m₁ with current := m.current }

/-- A new object and its initializer, which is bound to it in a new scope. -/
def prepared (c : ObjectClass) (method : Closure) (m : State) : Closure × State :=
  (m.newObject c).2.bindMethod method (m.newObject c).1

/-- The scope of the initializer binds `this` to the new object, inside the one that the method
was declared in. -/
theorem prepared_scopes (c : ObjectClass) (method : Closure) (m : State) :
    (prepared c method m).2.scopes.parent? m.scopes.size = some method.scope ∧
      (prepared c method m).2.scopes.own? m.scopes.size "this" =
        some (.object (m.newObject c).1) :=
  History.bindMethod_scopes method (m.newObject c).1 (m.newObject c).2

section Constructs

variable {n : Nat} {c : ObjectClass} {method : Closure} {arguments : List Value} {line : Nat}
  {m : State}

/-- A class without an initializer makes an empty object of its class. -/
theorem construct_plain (missing : c.method? initializerName = none) :
    call (n + 1) (.cls c) arguments line m =
      .ok (.object (m.newObject c).1) (m.newObject c).2 := by
  simp only [call, bind, EStateM.bind, newObject, missing]
  rfl

/-- Nothing is called for that. -/
theorem called_construct_plain (missing : c.method? initializerName = none) :
    (Task.call (.cls c) arguments line).plan.called (Task.tasksAt n) m = [] := by
  have made : newObject c m = .ok (m.newObject c).1 (m.newObject c).2 := rfl
  rw [plan_call_cls, Plan.called_prim_bind, made]
  simp only [Task.construct, missing]
  rfl

/-- A call of a class makes an object, and calls the initializer for it, if there is one. -/
theorem construct_eq (found : c.method? initializerName = some method) :
    call (n + 1) (.cls c) arguments line m =
      match invoke n (prepared c method m).1 arguments (prepared c method m).2 with
      | .ok _ m' => .ok (.object (m.newObject c).1) m'
      | .error e m' => .error e m' := by
  simp only [call, bind, EStateM.bind, newObject, bindMethod, found, prepared]
  cases invoke n _ arguments _ with
  | ok v m₁ => rfl
  | error e m₁ => rfl

/-- With an initializer, it is invoked once, bound to the fresh object. -/
theorem called_construct (found : c.method? initializerName = some method) :
    (Task.call (.cls c) arguments line).plan.called (Task.tasksAt n) m =
      [(.invoke (prepared c method m).1 arguments, (prepared c method m).2)] := by
  have made : newObject c m = .ok (m.newObject c).1 (m.newObject c).2 := rfl
  have bound : bindMethod method (m.newObject c).1 (m.newObject c).2 =
      .ok (prepared c method m).1 (prepared c method m).2 := rfl
  rw [plan_call_cls, Plan.called_prim_bind, made]
  simp only [Task.construct, found]
  rw [Plan.called_prim_bind, bound]
  dsimp only
  rw [Plan.called_sub_bind]
  refine congrArg _ ?_
  cases Task.tasksAt n (.invoke (prepared c method m).1 arguments) _ with
  | ok v m₁ => rfl
  | error e m₁ => rfl

/-- Where the body of an initializer begins, the scope of the initializer binds `this`. -/
theorem this_entered (c : ObjectClass) (method : Closure) (arguments : List Value) (m : State) :
    (entered (prepared c method m).1 arguments (prepared c method m).2).scopes.own?
      m.scopes.size "this" = some (.object (m.newObject c).1) := by
  obtain ⟨-, this⟩ := prepared_scopes c method m
  have new : m.scopes.size ≠ (prepared c method m).2.scopes.size :=
    Nat.ne_of_lt (Scopes.lt_size_of_own? this)
  exact (own?_entered_apart new _).trans this

/-- The body of the initializer of a new object begins. -/
theorem initializing (enough : arguments.length = method.declaration.parameters.length)
    (distinct : (method.declaration.parameters.map Name.text).Nodup) :
    Initializing (m.newObject c).1 method.declaration method.scope arguments
      (entered (prepared c method m).1 arguments (prepared c method m).2) where
  blank name := by
    have same : (entered (prepared c method m).1 arguments (prepared c method m).2).field?
        (m.newObject c).1 name = (m.newObject c).2.field? (m.newObject c).1 name := by
      simp [State.field?, entered, prepared, State.bindMethod, State.pushScope, State.define]
    rw [same, field?_newObject]
    simp [State.field?, State.newObject]
  enough := enough
  bound i parameter v named given := by
    have all : arguments.length = (prepared c method m).1.declaration.parameters.length := enough
    exact own?_entered all distinct named given
  this := ⟨m.scopes.size, parent?_entered, this_entered c method arguments m,
    extends_entered.parent? (prepared_scopes c method m).1⟩

/-- So a class is called whose lookup finds an initializer, if the body leaves `this` alone. -/
theorem initializes (found : c.method? initializerName = some method)
    (initializer : method.isInitializer = true)
    (enough : arguments.length = method.declaration.parameters.length)
    (distinct : (method.declaration.parameters.map Name.text).Nodup)
    (stays : ∀ completion m₁,
      executeAll n method.declaration.body
          (entered (prepared c method m).1 arguments (prepared c method m).2) =
        .ok completion m₁ →
      m₁.scopes.own? m.scopes.size "this" = some (.object (m.newObject c).1)) :
    Initializes n c arguments line method.declaration method.scope m (prepared c method m).1
      (prepared c method m).2
      (entered (prepared c method m).1 arguments (prepared c method m).2) where
  declaration := rfl
  once := called_construct found
  body := called_invoke n _ arguments _
  begins := initializing enough distinct
  -- the result of the construction is the object, not the one of the body
  gives completion m₁ ran := by
    have invoked := invoke_eq n (prepared c method m).1 arguments (prepared c method m).2
    have flagged : (prepared c method m).1.isInitializer = true := initializer
    have bound : { m₁ with current := m.current }.scopes.own? (prepared c method m).1.scope
        "this" = some (.object (m.newObject c).1) := stays completion m₁ ran
    have result := callResult_initializer flagged bound completion
    rw [show executeAll n (prepared c method m).1.declaration.body _ = .ok completion m₁ from ran]
      at invoked
    rw [construct_eq found, invoked.trans result]
  fails e m₁ ran := by
    have invoked := invoke_eq n (prepared c method m).1 arguments (prepared c method m).2
    rw [show executeAll n (prepared c method m).1.declaration.body _ = .error e m₁ from ran]
      at invoked
    rw [construct_eq found, invoked]
    rfl

end Constructs

/-! ## Calls in programs -/

section Expressions

variable {n : Nat} {callee : Expr} {line : Nat} {arguments : List Expr} {m m₁ m₂ m' : State}
  {vs : List Value}

/-- A class is called with as many arguments as its initializer has parameters. -/
theorem evaluate_call_cls {c : ObjectClass} (called : evaluate n callee m = .ok (.cls c) m₁)
    (given : evaluateAll n arguments m₁ = .ok vs m₂) :
    evaluate (n + 1) (.call callee line arguments) m =
      if vs.length = c.arity then call n (.cls c) vs line m₂
      else .error (.fault (.arityMismatch c.arity vs.length line)) m₂ := by
  simp only [evaluate, bind, EStateM.bind, called, given, checkCall, Value.arity?]
  by_cases enough : vs.length = c.arity
  · rw [if_pos enough, if_pos enough]
    rfl
  · rw [if_neg enough, if_neg enough]
    rfl

/-- A call gives nothing without a value that is called. -/
theorem callee_of_call {v : Value}
    (gave : evaluate (n + 1) (.call callee line arguments) m = .ok v m') :
    ∃ f m₁, evaluate n callee m = .ok f m₁ := by
  cases called : evaluate n callee m with
  | ok f m₁ => exact ⟨f, m₁, rfl⟩
  | error e m₁ =>
    simp only [evaluate, bind, EStateM.bind, called] at gave
    cases gave

/-- The call of an initializer, in whatever way it was come by, gives what its scope binds to
`this`. -/
theorem this_of_call {id : Nat} {closure : Closure} {v : Value}
    (called : evaluate n callee m = .ok (.function id closure) m₁)
    (initializer : closure.isInitializer = true)
    (gave : evaluate (n + 1) (.call callee line arguments) m = .ok v m') :
    m'.scopes.own? closure.scope "this" = some v := by
  simp only [evaluate, bind, EStateM.bind, called] at gave
  cases given : evaluateAll n arguments m₁ with
  | error e m₂ => simp only [given] at gave; cases gave
  | ok vs m₂ =>
    simp only [given, checkCall, Value.arity?] at gave
    by_cases enough : vs.length = closure.arity
    · rw [if_pos enough] at gave
      cases n with
      | zero => cases called
      | succ n => exact this_of_invoke (n := n) initializer gave
    · rw [if_neg enough] at gave
      cases gave

end Expressions

end ClassScript.Machine
