import ClassScript.Proofs.Machine.Healthy
import ClassScript.Proofs.Machine.Steps

/-!
# Steps of healthy machines

Every step of a run, where what it is given is good and what it reads is where the
table says, leaves a healthy machine and gives something good, or stops with a fault
that is not an internal one (`Safe`).
-/

namespace ClassScript.Machine

open Syntax Parsing Object Binding

/-- A fault that the program is to blame for, or the want of fuel. -/
def Stop.External (e : Stop) : Prop := ∀ fault, e ≠ .fault (.internal fault)

variable {inputs : List Input} {α β : Type} {m : State}

/-- From a machine on, a computation leaves a healthy machine; what it gives is good,
and it stops with no internal fault. -/
structure Safe (inputs : List Input) (m : State) (x : Run α) (good : α → State → Prop) :
    Prop where
  ok : ∀ a m', x m = .ok a m' → Healthy inputs m' ∧ good a m'
  error : ∀ e m', x m = .error e m' → Healthy inputs m' ∧ e.External

namespace Safe

variable {good : α → State → Prop}

/-- A computation that gives the stated result. -/
theorem of_ok {x : Run α} {a : α} {m' : State} (h : x m = .ok a m')
    (healthy : Healthy inputs m') (holds : good a m') : Safe inputs m x good where
  ok a' m'' same := by
    rw [h] at same
    cases same
    exact ⟨healthy, holds⟩
  error e m'' same := by
    rw [h] at same
    cases same

/-- A computation that stops with the stated fault. -/
theorem of_error {x : Run α} {fault : Fault} {m' : State}
    (h : x m = .error (.fault fault) m') (healthy : Healthy inputs m')
    (external : ∀ f, fault ≠ .internal f) : Safe inputs m x good where
  ok a' m'' same := by rw [h] at same; cases same
  error e m'' same := by
    rw [h] at same
    cases same
    exact ⟨healthy, fun f same => external f (Stop.fault.inj same)⟩

/-- A computation that does, on this machine, what a safe one does. -/
theorem congr {x y : Run α} (same : x m = y m) (h : Safe inputs m y good) :
    Safe inputs m x good where
  ok a m' result := h.ok a m' (same ▸ result)
  error e m' result := h.error e m' (same ▸ result)

end Safe

/-! ## Operators -/

/-- A value that is held as it is. -/
def IsData : Value → Prop
  | .nil | .bool _ | .number _ | .string _ => True
  | _ => False

/-- Data, or a fault that is not an internal one. -/
def GivesData : Except Fault Value → Prop
  | .ok v => IsData v
  | .error fault => ∀ f, fault ≠ .internal f

theorem IsData.good {v : Value} (h : IsData v) : GoodValue inputs m v := by
  cases v <;> trivial

theorem givesData_applyUnary (op : UnaryOp) (line : Nat) (v : Value) :
    GivesData (applyUnary op line v) := by
  cases op with
  | not => trivial
  | negate => cases v <;> first | trivial | exact fun _ => nofun

/-- An operator on numbers makes data if its function does. -/
theorem givesData_onNumbers {line : Nat} {f : Float → Float → Except Fault Value}
    (h : ∀ a b, GivesData (f a b)) (v w : Value) : GivesData (onNumbers line f v w) := by
  unfold onNumbers
  split
  · exact h _ _
  · exact fun _ => nofun

theorem givesData_divide (line : Nat) (a b : Float) : GivesData (divide line a b) := by
  unfold divide
  split
  · exact fun _ => nofun
  · trivial

theorem givesData_add (line : Nat) (v w : Value) : GivesData (add line v w) := by
  unfold add
  split
  · trivial
  · trivial
  · trivial
  · exact fun _ => nofun

/-- Operators make data only. -/
theorem givesData_applyBinary (op : BinaryOp) (line : Nat) (v w : Value) :
    GivesData (applyBinary op line v w) := by
  cases op with
  | add => exact givesData_add line v w
  | equal => trivial
  | notEqual => trivial
  | divide => exact givesData_onNumbers (givesData_divide line) v w
  | _ =>
    refine givesData_onNumbers (fun a b => ?_) v w
    trivial

theorem isData_ofLiteral (value : Literal) : IsData (.ofLiteral value) := by
  cases value <;> trivial

theorem safe_liftExcept (healthy : Healthy inputs m) {r : Except Fault Value}
    (h : GivesData r) : Safe inputs m (liftExcept r) fun v m' => GoodValue inputs m' v := by
  cases r with
  | ok v => exact .of_ok rfl healthy (IsData.good h)
  | error fault => exact .of_error rfl healthy h

/-! ## Variables -/

/-- What the table leads to for an occurrence is there. -/
def Found (m : State) (id : NodeId) (name : String) : Prop :=
  ∀ depth, m.locals.depth? id = some depth →
    ∃ scope, m.scopes.ancestor? depth m.current = some scope ∧
      (m.scopes.own? scope name).isSome

/-- A variable that is found has a good value: what is bound is good. -/
theorem safe_readVariable (healthy : Healthy inputs m) {id : NodeId} {name : Name}
    (found : Found m id name.text) :
    Safe inputs m (readVariable id name) fun v m' => GoodValue inputs m' v := by
  cases depth : m.locals.depth? id with
  -- a local is found where the table says; a global may be missing, which is no internal fault
  | some hops =>
    obtain ⟨scope, above, bound⟩ := found hops depth
    obtain ⟨v, bound⟩ := Option.isSome_iff_exists.mp bound
    refine .of_ok (a := v) ?_ healthy (healthy.values _ _ v bound)
    rw [readVariable_local depth, Scopes.getAt_of_found above bound]
    rfl
  | none =>
    have read := readVariable_global depth name
    unfold Scopes.get at read
    split at read
    · next v bound =>
      obtain ⟨owner, -, bound⟩ := Option.bind_eq_some_iff.mp bound
      exact .of_ok read healthy (healthy.values _ _ v bound)
    · exact .of_error read healthy fun _ => nofun

/-- A write changes a binding that is there, or there is none among the globals. -/
theorem safe_writeVariable (healthy : Healthy inputs m) {target : Occurrence} {value : Value}
    (found : Found m target.id target.name.text) (plain : target.name.text ∉ reserved)
    (good : GoodValue inputs m value) :
    Safe inputs m (writeVariable target value) fun _ _ => True := by
  have write (owner : ScopeId) : Healthy inputs (m.define owner target.name.text value) :=
    healthy.definePlain plain (good.define ..)
  cases depth : m.locals.depth? target.id with
  | some hops =>
    obtain ⟨scope, above, bound⟩ := found hops depth
    refine .of_ok (a := ()) ?_ (write scope) trivial
    simp only [writeVariable, writeTarget, depth, Scopes.targetAt_of_found above bound]
  -- a global that does not exist yet is reported to the user
  | none =>
    cases owner : m.scopes.owner? m.globals target.name.text with
    | some owner' =>
      refine .of_ok (a := ()) ?_ (write owner') trivial
      simp only [writeVariable, writeTarget, depth, Scopes.target, owner]
    | none =>
      have out : writeVariable target value m =
          .error (.fault (.undefinedVariable target.name.text target.name.line)) m := by
        simp only [writeVariable, writeTarget, depth, Scopes.target, owner]
      exact .of_error out healthy fun f same => by cases same

/-- Binding a name in the current scope. -/
theorem safe_define (healthy : Healthy inputs m) (inside : m.current < m.scopes.size)
    {name : String} (plain : name ∉ reserved) {value : Value}
    (good : GoodValue inputs (m.define m.current name value) value) :
    Safe inputs m (define name value) fun _ m' =>
      (m'.scopes.own? m'.current name).isSome := by
  have out : define name value m = .ok () (m.define m.current name value) := rfl
  refine .of_ok out (healthy.definePlain plain good) ?_
  simp [State.define, Scopes.own?_define, inside]

/-- A write to a name that is searched for from the current scope on. -/
theorem safe_assign (healthy : Healthy inputs m) {name : Name} {value : Value}
    (plain : name.text ∉ reserved) (good : GoodValue inputs m value) :
    Safe inputs m (assign name value) fun _ _ => True := by
  rcases assign_cases name value m with ⟨owner, out⟩ | out
  · exact .of_ok out (healthy.definePlain plain (good.define ..)) trivial
  · exact .of_error out healthy fun _ => nofun

/-! ## Functions and objects -/

/-- A function that is declared where its visit is. -/
theorem safe_newFunction (healthy : Healthy inputs m) (d : FunctionDecl) :
    Safe inputs m (newFunction d) fun f m' =>
      f = .function m.nextId ⟨d, m.current, false⟩ ∧ m'.scopes = m.scopes :=
  .of_ok rfl (healthy.congr rfl rfl rfl rfl rfl) ⟨rfl, rfl⟩

theorem safe_newObject (healthy : Healthy inputs m) {cls : ObjectClass}
    (good : GoodClass inputs m cls) :
    Safe inputs m (newObject cls) fun o m' => o.cls = cls ∧ GoodClass inputs m' cls := by
  have out : Machine.newObject cls m = .ok (m.newObject cls).1 (m.newObject cls).2 := rfl
  refine .of_ok out (healthy.newObject cls) ⟨rfl, ?_⟩
  have same : m.scopes.Extends (m.newObject cls).2.scopes := .refl m.scopes
  exact good.mono same rfl

/-- Binding a method to an object gives it the scope that its visit has. -/
theorem safe_bindMethod (healthy : Healthy inputs m) {method : Closure} {o : Instance}
    (good : GoodMethod inputs m method) (object : GoodClass inputs m o.cls) :
    Safe inputs m (bindMethod method o) fun c m' =>
      GoodClosure inputs m' c ∧ c.declaration = method.declaration := by
  let pushed := m.pushScope (some method.scope)
  have grows : m.scopes.Extends (pushed.2.define pushed.1 "this" (.object o)).scopes :=
    (Scopes.Extends.push m.scopes _).trans (.define ..)
  have above : m.scopes.Extends pushed.2.scopes := .push m.scopes _
  have bound : ((pushed.2.define pushed.1 "this" (.object o)).scopes.own? pushed.1
      "this").isSome := by
    simp [pushed, State.pushScope, State.define, Scopes.own?_define, Scopes.push, Scopes.size]
  have healthy' : Healthy inputs (pushed.2.define pushed.1 "this" (.object o)) :=
    (healthy.pushScope _).define (object.mono grows rfl) (fun _ => ⟨o, rfl⟩) (by simp)
  refine .of_ok rfl healthy' ⟨⟨?_, fun _ => bound⟩, rfl⟩
  -- the new scope mirrors the level of this, which the method lacked so far
  obtain ⟨v, names, outer, seen, node, shape, only, mirrors⟩ := good
  refine ⟨v, seen, node, ?_⟩
  rw [shape]
  refine (mirrors.mono grows).push ?_ fun name defined => only name defined ▸ bound
  show (pushed.2.scopes.define _ _ _).parent? pushed.1 = some method.scope
  rw [Scopes.parent?_define]
  exact Scopes.parent?_push_self ..

theorem safe_methodValue (healthy : Healthy inputs m) {method : Closure} {o : Instance}
    (good : GoodMethod inputs m method) (object : GoodClass inputs m o.cls) :
    Safe inputs m (methodValue method o) fun v m' => GoodValue inputs m' v := by
  have bind := (safe_bindMethod healthy good object).ok _ _ rfl
  refine .of_ok rfl (bind.1.congr rfl rfl rfl rfl rfl) ?_
  have same : (m.bindMethod method o).2.scopes.Extends
      ((m.bindMethod method o).2.newFunction (m.bindMethod method o).1).2.scopes := .refl _
  exact bind.2.1.mono same rfl

/-- A property access fails for what the value is, never internally. -/
theorem safe_readProperty (healthy : Healthy inputs m) {subject : Value} (name : Name)
    (good : GoodValue inputs m subject) :
    Safe inputs m (readProperty subject name) fun v m' => GoodValue inputs m' v := by
  rcases readProperty_cases subject name m with
    ⟨o, value, rfl, field, out⟩ | ⟨o, method, rfl, -, found, out⟩ | ⟨fault, external, out⟩
  · obtain ⟨fields, found, has⟩ := Option.bind_eq_some_iff.mp field
    exact .of_ok out healthy (healthy.fields _ fields _ value found has)
  · exact (safe_methodValue healthy (good name.text method found) good).congr out
  · exact .of_error out healthy external

theorem safe_writeField (healthy : Healthy inputs m) (o : Instance) (name : String)
    {value : Value} (good : GoodValue inputs m value) :
    Safe inputs m (writeField o name value) fun _ _ => True :=
  .of_ok rfl (healthy.setField o name good) trivial

/-- `super` where the table leads to a scope that binds it, one above one that binds
`this`. -/
theorem safe_readSuper (healthy : Healthy inputs m) {id : NodeId} (method : Name) {depth : Nat}
    (noted : m.locals.depth? id = some (depth + 1))
    (this : ∃ scope, m.scopes.ancestor? depth m.current = some scope ∧
      (m.scopes.own? scope "this").isSome)
    (super : ∃ scope, m.scopes.ancestor? (depth + 1) m.current = some scope ∧
      (m.scopes.own? scope "super").isSome) :
    Safe inputs m (readSuper id method) fun v m' => GoodValue inputs m' v := by
  obtain ⟨scope, above, bound⟩ := this
  obtain ⟨object, bound⟩ := Option.isSome_iff_exists.mp bound
  obtain ⟨o, rfl⟩ := healthy.this scope object bound
  obtain ⟨scope', above', bound'⟩ := super
  obtain ⟨class_, bound'⟩ := Option.isSome_iff_exists.mp bound'
  obtain ⟨c, rfl⟩ := healthy.super scope' class_ bound'
  have receiver := Scopes.getAt_of_found above bound
  have superclass := Scopes.getAt_of_found above' bound'
  -- with both bindings in place only the name of the method can be missing
  cases found : c.method? method.text with
  | some method' =>
    have object : GoodClass inputs m o.cls := healthy.values _ _ _ bound
    have methods : GoodClass inputs m c := healthy.values _ _ _ bound'
    exact (safe_methodValue healthy (methods method.text method' found) object).congr
      (by simp only [readSuper, noted, superclass, receiver, found])
  | none =>
    have out : readSuper id method m =
        .error (.fault (.undefinedProperty method.text method.line)) m := by
      simp only [readSuper, noted, superclass, receiver, found]
    exact .of_error out healthy (by simp)

theorem safe_print (healthy : Healthy inputs m) (value : Value) :
    Safe inputs m (print value) fun _ _ => True := by
  obtain ⟨sink, out | out⟩ := print_cases value m
  · exact .of_ok out (healthy.congr rfl rfl rfl rfl rfl) trivial
  · exact .of_error out (healthy.congr rfl rfl rfl rfl rfl) fun _ => nofun

/-- The host has no function but the clock. -/
theorem safe_callHost (healthy : Healthy inputs m) (f : HostRef) (arguments : List Value)
    (line : Nat) : Safe inputs m (callHost f arguments line) fun v m' => GoodValue inputs m' v := by
  rcases callHost_cases healthy.hosts f arguments line with ⟨reading, clock, out⟩ | out
  · exact .of_ok out (healthy.congr rfl rfl rfl rfl rfl) trivial
  · exact .of_error out healthy fun _ => nofun

/-- A call that is let through has the right number of arguments. -/
theorem safe_checkCall (healthy : Healthy inputs m) (f : Value) (vs : List Value) (line : Nat) :
    Safe inputs m (checkCall f vs line) fun _ m' =>
      m' = m ∧ ∃ arity, f.arity? = some arity ∧ vs.length = arity := by
  rcases checkCall_cases f vs line m with ⟨arity, takes, enough, out⟩ | ⟨fault, external, out⟩
  · exact .of_ok out healthy ⟨rfl, arity, takes, enough⟩
  · exact .of_error out healthy external

/-- What is let through as a superclass is a good class. -/
theorem safe_asSuperclass (healthy : Healthy inputs m) {value : Value} (line : Nat)
    (good : GoodValue inputs m value) :
    Safe inputs m (asSuperclass value line) fun c m' => m' = m ∧ GoodClass inputs m' c := by
  cases value with
  | cls c => exact .of_ok rfl healthy ⟨rfl, good⟩
  | _ => exact .of_error rfl healthy fun _ => nofun

/-! ## Scopes of blocks and calls -/

/-- A new scope inside the one where a visit is. -/
theorem safe_innerScope (healthy : Healthy inputs m) {v c : Visit} (here : At m v)
    (calm : v.node.pending = none) (scopes : c.walk.scopes = ∅ :: v.walk.scopes) :
    Safe inputs m innerScope fun scope m' => At { m' with current := scope } c := by
  let pushed := m.pushScope (some m.current)
  have out : innerScope m = .ok pushed.1 pushed.2 := rfl
  refine .of_ok out (healthy.pushScope _) ?_
  have grows : m.scopes.Extends pushed.2.scopes := .push m.scopes _
  have mirrors : Mirrors m.globals m.scopes none v.walk.scopes m.current := calm ▸ here.mirrors
  refine At.push (mirrors.mono grows) (Scopes.parent?_push_self ..) (fun name => ?_) scopes
  -- neither the new scope nor that of the walk has a name yet
  show _ ↔ ((m.scopes.push (some m.current)).2.own? m.scopes.size name).isSome
  simp

/-- Binding the parameters of a call: each that has an argument is bound. -/
theorem healthy_bindAll (scope : ScopeId) (bindings : List (Name × Value)) :
    ∀ m : State, Healthy inputs m → scope < m.scopes.size →
      (∀ b ∈ bindings, b.1.text ∉ reserved ∧ GoodValue inputs m b.2) →
      Healthy inputs (bindAll scope bindings m) ∧
      ∀ name, ((bindAll scope bindings m).scopes.own? scope name).isSome ↔
        name ∈ bindings.map (·.1.text) ∨ (m.scopes.own? scope name).isSome := by
  induction bindings with
  | nil =>
    intro m healthy _ _
    exact ⟨healthy, fun name => by simp [bindAll]⟩
  | cons binding rest ih =>
    intro m healthy inside good
    simp only [List.mem_cons, forall_eq_or_imp] at good
    obtain ⟨⟨plain, value⟩, others⟩ := good
    have healthy' : Healthy inputs (m.define scope binding.1.text binding.2) :=
      healthy.definePlain plain (value.define ..)
    obtain ⟨whole, own⟩ := ih _ healthy' (by simpa [State.define] using inside)
      fun b mem => ⟨(others b mem).1, (others b mem).2.define ..⟩
    refine ⟨whole, fun name => ?_⟩
    rw [bindAll_cons, own name]
    simp only [State.define, Scopes.own?_define, List.map_cons, List.mem_cons]
    -- bound by this pair, or by one of the others
    by_cases here : binding.1.text = name
    · simp [here, inside]
    · have differ : ¬ name = binding.1.text := fun same => here same.symm
      simp [here, differ]

/-- The scope of a call is that of the visit of the function's body. -/
theorem safe_callScope (healthy : Healthy inputs m) {closure : Closure} {arguments : List Value}
    (good : GoodClosure inputs m closure) (values : ∀ v ∈ arguments, GoodValue inputs m v)
    (enough : arguments.length = closure.arity) :
    Safe inputs m (callScope closure arguments) fun scope m' =>
      ∃ f body, Seen inputs f ∧ f.node = .function closure.declaration ∧ Child f body ∧
        body.node = .statements closure.declaration.body ∧
        body.context = f.context ∧ At { m' with current := scope } body := by
  obtain ⟨f, seen, node, mirrors⟩ := good.visit
  obtain ⟨fnode, context, w⟩ := f
  obtain ⟨⟨name, parameters, body⟩, scope, isInitializer⟩ := closure
  obtain rfl : fnode = .function ⟨name, parameters, body⟩ := node
  have plain := (healthy.sound _ seen).plain
  let pushed := m.pushScope (some scope)
  have grows : m.scopes.Extends pushed.2.scopes := .push m.scopes _
  have inside : pushed.1 < pushed.2.scopes.size := by simp [pushed, State.pushScope]
  -- the parameters are plain names, so this and super stay what they are
  have bindings : ∀ b ∈ parameters.zip arguments,
      b.1.text ∉ reserved ∧ GoodValue inputs pushed.2 b.2 := by
    intro b mem
    obtain ⟨parameter, argument⟩ := List.of_mem_zip mem
    exact ⟨plain.2.1 _ parameter, (values _ argument).mono grows rfl⟩
  obtain ⟨healthy', own⟩ := healthy_bindAll pushed.1 _ pushed.2
    (healthy.pushScope _) inside bindings
  have filled := extends_bindAll pushed.1 (parameters.zip arguments) pushed.2
  have globals := globals_bindAll pushed.1 (parameters.zip arguments) pushed.2
  refine .of_ok (callScope_eq ..) healthy' ⟨_, _, seen, rfl, .functionBody, rfl, rfl, ?_⟩
  refine At.push (globals ▸ mirrors.mono (grows.trans filled))
    (filled.parent? ?_) (fun text => ?_)
    ((Walk.scopes_declareDefined_foldl _ parameters).trans (declared_cons_scopes ..))
  · exact Scopes.parent?_push_self ..
  · -- there are as many arguments as parameters, so every parameter is bound
    refine Iff.trans ?_ (own text).symm
    rw [getElem?_foldl_insert]
    have named : (parameters.zip arguments).map (·.1.text) = parameters.map Name.text := by
      rw [show (fun b : Name × Value => b.1.text) = Name.text ∘ Prod.fst from rfl,
        ← List.map_map, List.map_fst_zip (Nat.le_of_eq enough.symm)]
    have none : ¬ (pushed.2.scopes.own? pushed.1 text).isSome := by
      show ¬ ((m.scopes.push (some scope)).2.own? m.scopes.size text).isSome
      simp
    rw [named]
    by_cases mem : text ∈ parameters.map Name.text
    · simp only [mem, if_true, true_or]
    · simp [mem, none]

/-- What a call gives, whose body did not end with `break` or `continue`. -/
theorem safe_callResult (healthy : Healthy inputs m) {closure : Closure}
    (good : GoodClosure inputs m closure) {completion : Completion}
    (broke : completion ≠ .broke) (continued : completion ≠ .continued)
    (returned : ∀ v, completion = .returned v → GoodValue inputs m v) :
    Safe inputs m (callResult closure completion) fun v m' => GoodValue inputs m' v := by
  unfold callResult
  split
  · next isInitializer =>
    obtain ⟨v, bound⟩ := Option.isSome_iff_exists.mp (good.bound isInitializer)
    have out : boundObject closure m = .ok v m := by
      have here : m.scopes.ancestor? 0 closure.scope = some closure.scope := rfl
      simp only [boundObject, Scopes.getAt_of_found here bound]
      rfl
    exact .of_ok out healthy (healthy.values _ _ v bound)
  · cases completion with
    | normal => exact .of_ok rfl healthy trivial
    | returned v => exact .of_ok rfl healthy (returned v rfl)
    -- no jump of a loop gets out of a function body
    | broke => exact absurd rfl broke
    | continued => exact absurd rfl continued

/-! ## Classes -/

/-- The scopes between a class's methods and the scopes of the class: one that binds
`super`, if there is a superclass. -/
def superScopes : Option ObjectClass → List Names → List Names
  | none, levels => levels
  | some _, levels => marked "super" true (∅ :: levels)

/-- The scope of a class's methods. -/
theorem safe_classScope (healthy : Healthy inputs m) {superclass : Option ObjectClass}
    (good : ∀ c ∈ superclass, GoodClass inputs m c) {levels : List Names}
    (mirrors : Mirrors m.globals m.scopes none levels m.current) :
    Safe inputs m (classScope superclass) fun scope m' =>
      Mirrors m'.globals m'.scopes none (superScopes superclass levels) scope ∧
        ∀ c ∈ superclass, GoodClass inputs m' c := by
  cases superclass with
  | none => exact .of_ok rfl healthy ⟨mirrors, good⟩
  | some c =>
    let pushed := m.pushScope (some m.current)
    have out : classScope (some c) m =
        .ok pushed.1 (pushed.2.define pushed.1 "super" (.cls c)) := rfl
    have grows : m.scopes.Extends (pushed.2.define pushed.1 "super" (.cls c)).scopes :=
      (Scopes.Extends.push m.scopes _).trans (.define ..)
    have class_good : GoodClass inputs (pushed.2.define pushed.1 "super" (.cls c)) c :=
      (good c rfl).mono grows rfl
    refine .of_ok out ((healthy.pushScope _).define class_good nofun fun _ => ⟨c, rfl⟩) ⟨?_, ?_⟩
    -- the scope opened binds super and nothing else, as the level does
    · refine (mirrors.mono grows).push ?_ fun name defined => ?_
      · show (pushed.2.scopes.define _ _ _).parent? m.scopes.size = some m.current
        rw [Scopes.parent?_define]
        exact Scopes.parent?_push_self ..
      · rw [Std.ExtTreeMap.getElem?_insert] at defined
        split at defined
        · next same =>
          have same : "super" = name := by simpa using same
          simp [← same, pushed, State.pushScope, State.define, Scopes.own?_define]
        · simp at defined
    · rintro c' ⟨⟩
      exact class_good

/-- Of the methods with a name, the last one is in the table. -/
theorem getElem?_methodTable (scope : ScopeId) (methods : List FunctionDecl) (name : String) :
    (methodTable scope methods)[name]? =
      (methods.reverse.find? fun d => d.name.text == name).map
        fun d => ⟨d, scope, d.name.text == initializerName⟩ := by
  -- the table so far is what holds for names that the rest does not have
  have all (table : Std.ExtTreeMap String Closure) :
      (methods.foldl (fun table method => table.insert method.name.text
        (⟨method, scope, method.name.text == initializerName⟩ : Closure)) table)[name]? =
      ((methods.reverse.find? fun d => d.name.text == name).map fun d =>
        (⟨d, scope, d.name.text == initializerName⟩ : Closure)).or table[name]? := by
    induction methods generalizing table with
    | nil => simp
    | cons d rest ih =>
      rw [List.foldl_cons, ih, List.reverse_cons, List.find?_append, Std.ExtTreeMap.getElem?_insert]
      cases rest.reverse.find? fun d => d.name.text == name with
      | some later => rfl
      | none => by_cases here : d.name.text = name <;> simp [here]
  rw [methodTable, all ∅]
  simp

/-- Every entry of a class's methods is one of the declarations. -/
theorem mem_of_methodTable {scope : ScopeId} {methods : List FunctionDecl} {name : String}
    {closure : Closure} (found : (methodTable scope methods)[name]? = some closure) :
    ∃ d ∈ methods, closure = ⟨d, scope, d.name.text == initializerName⟩ := by
  rw [getElem?_methodTable, Option.map_eq_some_iff] at found
  obtain ⟨d, last, rfl⟩ := found
  exact ⟨d, List.mem_reverse.mp (List.mem_of_find?_eq_some last), rfl⟩

/-- The methods of a class are visited one by one, with the same scopes. -/
theorem seen_method {ds : List FunctionDecl} {c : Context} {w : Walk}
    (seen : Seen inputs ⟨.methods ds, c, w⟩) {d : FunctionDecl} (mem : d ∈ ds) :
    ∃ c' w', Seen inputs ⟨.function d, c', w'⟩ ∧ w'.scopes = w.scopes := by
  induction ds generalizing w with
  | nil => cases mem
  | cons first rest ih =>
    rcases List.mem_cons.mp mem with rfl | mem
    · exact ⟨_, w, seen.child .methodsHead, rfl⟩
    · obtain ⟨c', w', found, scopes⟩ := ih (seen.child .methodsTail) mem
      exact ⟨c', w', found, scopes.trans (Walk.scopes_function ..)⟩

/-- A new class, whose methods were visited one scope inside that of the class. -/
theorem safe_newClass (healthy : Healthy inputs m) (name : String)
    {superclass : Option ObjectClass} {ds : List FunctionDecl} {scope : ScopeId}
    {c : Context} {w : Walk} {outer : List Names} (seen : Seen inputs ⟨.methods ds, c, w⟩)
    (scopes : w.scopes = marked "this" true (∅ :: outer))
    (mirrors : Mirrors m.globals m.scopes none outer scope)
    (good : ∀ c ∈ superclass, GoodClass inputs m c) :
    Safe inputs m (newClass name superclass (methodTable scope ds)) fun cls m' =>
      GoodClass inputs m' cls := by
  refine .of_ok rfl (healthy.congr rfl rfl rfl rfl rfl) ?_
  intro text method found
  have own : (methodTable scope ds)[text]? = some method →
      GoodMethod inputs { m with nextId := m.nextId + 1 } method := by
    intro found
    obtain ⟨d, mem, rfl⟩ := mem_of_methodTable found
    obtain ⟨c', w', visited, same⟩ := seen_method seen mem
    refine ⟨_, (∅ : Names).insert "this" true, outer, visited, rfl, same.trans scopes,
      fun name defined => ?_, mirrors⟩
    rw [Std.ExtTreeMap.getElem?_insert] at defined
    split at defined
    · next same => exact (by simpa using same : "this" = name).symm
    · simp at defined
  cases superclass with
  | none => exact own found
  | some superclass =>
    -- a method that the class does not have itself is the superclass's
    unfold ObjectClass.method? at found
    split at found
    · next method' there =>
      cases found
      exact own there
    · exact good superclass rfl text method found

end ClassScript.Machine
