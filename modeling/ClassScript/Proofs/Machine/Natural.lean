import ClassScript.Machine.Evaluate
import ClassScript.Proofs.Machine.Frame
import ClassScript.Proofs.Machine.Renamed

/-!
# Runs of renamed code

Code that is renamed, on a machine that holds renamed code, does what the code itself
does: the same steps with renamed values, up to a fault that cites another line
(`natural`). All that is needed is that the table has the depths under the other
identities. This holds step by step (`Commutes`), and so of whole runs.
-/

namespace ClassScript.Machine

open Syntax Object Binding

section Definitions

variable {α β : Type} (r : Renaming) (table table' : Locals)

/-- The result of a pure computation, with its value and its fault renamed. -/
def renameExcept (act : α → β) : Except Fault α → Except Fault β
  | .ok a => .ok (act a)
  | .error fault => .error (fault.rename r)

/-- How a run ended, with all that it left renamed. -/
def renameEnd (act : α → β) : EStateM.Result Stop State α → EStateM.Result Stop State β
  | .ok a m => .ok (act a) (m.rename r table')
  | .error e m => .error (e.rename r) (m.rename r table')

/-- The machine has the table, and no function of the host but the clock. -/
structure Suits (m : State) : Prop where
  locals : m.locals = table
  hosts : ∀ action ∈ m.hosts, action = .clock

/-- On a machine with renamed code, the second computation does what the first one does
on the machine itself. -/
def Commutes (act : α → β) (x : Run α) (y : Run β) : Prop :=
  ∀ m, Suits table m →
    Suits table (left (x m)) ∧ y (m.rename r table') = renameEnd r table' act (x m)

end Definitions

variable {r : Renaming} {table table' : Locals}

namespace Commutes

variable {α β α' β' : Type} {act : α → β} {act' : α' → β'} {x : Run α} {y : Run β}

/-- A value and what becomes of it commute. -/
theorem pure {a : α} {b : β} (same : b = act a) :
    Commutes r table table' act (Pure.pure a) (Pure.pure b) := by
  subst same
  exact fun m suits => ⟨suits, rfl⟩

/-- Runs commute one after the other. -/
theorem bind {f : α → Run α'} {g : β → Run β'} (first : Commutes r table table' act x y)
    (rest : ∀ a, Commutes r table table' act' (f a) (g (act a))) :
    Commutes r table table' act' (x >>= f) (y >>= g) := by
  intro m suits
  obtain ⟨suits', same⟩ := first m suits
  simp only [Bind.bind, EStateM.bind, same]
  cases ended : x m with
  | ok a m' =>
    rw [ended] at suits'
    exact rest a m' suits'
  | error e m' =>
    rw [ended] at suits'
    exact ⟨suits', rfl⟩

/-- A result that is renamed commutes with the state as it is. -/
theorem lift {result : Except Fault α} {result' : Except Fault β}
    (same : result' = renameExcept r act result) :
    Commutes r table table' act (liftExcept result) (liftExcept result') := by
  subst same
  intro m suits
  cases result <;> exact ⟨suits, rfl⟩

theorem stop {fault fault' : Fault} (same : fault' = fault.rename r) :
    Commutes r table table' act (stop fault) (stop fault') := by
  subst same
  exact fun m suits => ⟨suits, rfl⟩

theorem throw {e e' : Stop} (same : e' = e.rename r) :
    Commutes r table table' act (throw e : Run α) (MonadExcept.throw e' : Run β) := by
  subst same
  exact fun m suits => ⟨suits, rfl⟩

/-- What a computation does may depend on the machine that it begins with. -/
theorem locally (h : ∀ m, Suits table m → ∃ x₀ y₀, x m = x₀ m ∧
      y (m.rename r table') = y₀ (m.rename r table') ∧ Commutes r table table' act x₀ y₀) :
    Commutes r table table' act x y := by
  intro m suits
  obtain ⟨x₀, y₀, here, there, commutes⟩ := h m suits
  rw [here, there]
  exact commutes m suits

/-- In another scope, on both sides. -/
theorem within (scope : ScopeId) (h : Commutes r table table' act x y) :
    Commutes r table table' act (within scope x) (within scope y) := by
  intro m suits
  obtain ⟨suits', same⟩ := h { m with current := scope } ⟨suits.locals, suits.hosts⟩
  simp only [Machine.within]
  rw [show { m.rename r table' with current := scope } =
    State.rename r table' { m with current := scope } from rfl, same]
  cases ended : x { m with current := scope } with
  | ok a m' =>
    rw [ended] at suits'
    exact ⟨⟨suits'.locals, suits'.hosts⟩, rfl⟩
  | error e m' =>
    rw [ended] at suits'
    exact ⟨⟨suits'.locals, suits'.hosts⟩, rfl⟩

end Commutes

/-! ## Operators -/

/-- An operator makes of renamed values what it made of them, renamed; a fault moves to the
other line. -/
theorem applyUnary_rename (op : UnaryOp) (line : Nat) (v : Value) :
    applyUnary op (r.line line) (v.rename r) =
      renameExcept r (Value.rename r) (applyUnary op line v) := by
  cases op <;> cases v <;> rfl

/-- So does an operator with two operands: it looks into no function, class or object. -/
theorem applyBinary_rename (op : BinaryOp) (line : Nat) (a b : Value) :
    applyBinary op (r.line line) (a.rename r) (b.rename r) =
      renameExcept r (Value.rename r) (applyBinary op line a b) := by
  have numbers {f f' : Float → Float → Except Fault Value}
      (same : ∀ x y, f' x y = renameExcept r (Value.rename r) (f x y)) :
      onNumbers (r.line line) f' (a.rename r) (b.rename r) =
        renameExcept r (Value.rename r) (onNumbers line f a b) := by
    cases a <;> cases b <;> first | exact same _ _ | rfl
  cases op with
  | add => cases a <;> cases b <;> rfl
  | equal | notEqual => simp only [applyBinary, Value.equals_rename]; rfl
  | divide =>
    refine numbers fun x y => ?_
    unfold divide
    split <;> rfl
  | _ => exact numbers fun _ _ => rfl

theorem decides_rename (op : LogicalOp) (v : Value) : decides op (v.rename r) = decides op v := by
  cases op <;> simp [decides]

/-! ## Variables and properties -/

namespace Scopes

variable (scopes : Scopes)

theorem get_rename (id : ScopeId) (name : String) (line : Nat) :
    (scopes.rename r).get id name (r.line line) =
      renameExcept r (Value.rename r) (scopes.get id name line) := by
  simp only [get, owner?_rename]
  cases scopes.owner? id name with
  | none => rfl
  | some owner =>
    simp only [Option.bind_some, own?_rename]
    cases scopes.own? owner name <;> rfl

theorem getAt_rename (hops : Nat) (id : ScopeId) (name : String) :
    (scopes.rename r).getAt hops id name =
      renameExcept r (Value.rename r) (scopes.getAt hops id name) := by
  simp only [getAt, ancestor, ancestor?_rename]
  cases scopes.ancestor? hops id with
  | none => rfl
  | some owner =>
    simp only [own?_rename]
    cases scopes.own? owner name <;> rfl

theorem target_rename (id : ScopeId) (name : String) (line : Nat) :
    (scopes.rename r).target id name (r.line line) =
      renameExcept r (fun owner => owner) (scopes.target id name line) := by
  simp only [target, owner?_rename]
  cases scopes.owner? id name <;> rfl

theorem targetAt_rename (hops : Nat) (id : ScopeId) (name : String) :
    (scopes.rename r).targetAt hops id name =
      renameExcept r (fun owner => owner) (scopes.targetAt hops id name) := by
  simp only [targetAt, ancestor, ancestor?_rename]
  cases scopes.ancestor? hops id with
  | none => rfl
  | some owner =>
    simp only [contains_rename]
    cases scopes.contains owner name <;> rfl

end Scopes

section Steps

variable {α : Type}

/-- A step that only changes the machine, and neither its table nor its host. -/
theorem Commutes.step {β : Type} {act : α → β} {f : State → α} {change : State → State}
    {f' : State → β} {change' : State → State} (locals : ∀ m, (change m).locals = m.locals)
    (hosts : ∀ m, (change m).hosts = m.hosts)
    (gives : ∀ m : State, f' (m.rename r table') = act (f m))
    (does : ∀ m : State, change' (m.rename r table') = (change m).rename r table') :
    Commutes r table table' act (fun m => .ok (f m) (change m))
      (fun m => .ok (f' m) (change' m)) := by
  intro m suits
  refine ⟨⟨(locals m).trans suits.locals, ?_⟩, ?_⟩
  · show ∀ action ∈ (change m).hosts, _
    rw [hosts m]
    exact suits.hosts
  · show EStateM.Result.ok (f' _) (change' _) = _
    rw [gives, does]
    rfl

theorem commutes_define (name : String) (value : Value) :
    Commutes r table table' id (define name value) (define name (value.rename r)) :=
  .step (fun _ => rfl) (fun _ => rfl) (fun _ => rfl) fun m =>
    State.define_rename table' m m.current name value

theorem commutes_newFunction (d : FunctionDecl) :
    Commutes r table table' (Value.rename r) (newFunction d) (newFunction (d.rename r)) :=
  .step (fun _ => rfl) (fun _ => rfl) (fun _ => rfl) fun _ => rfl

theorem commutes_newObject (c : ObjectClass) :
    Commutes r table table' (Instance.rename r) (newObject c) (newObject (c.rename r)) :=
  .step (fun _ => rfl) (fun _ => rfl)
    (fun m => congrArg Prod.fst (State.newObject_rename table' m c))
    fun m => congrArg Prod.snd (State.newObject_rename table' m c)

theorem commutes_bindMethod (method : Closure) (o : Instance) :
    Commutes r table table' (Closure.rename r) (bindMethod method o)
      (bindMethod (method.rename r) (o.rename r)) :=
  .step (fun _ => rfl) (fun _ => rfl)
    (fun m => congrArg Prod.fst (State.bindMethod_rename table' m method o))
    fun m => congrArg Prod.snd (State.bindMethod_rename table' m method o)

theorem commutes_writeField (o : Instance) (name : String) (value : Value) :
    Commutes r table table' id (writeField o name value)
      (writeField (o.rename r) name (value.rename r)) :=
  .step (fun _ => rfl) (fun _ => rfl) (fun _ => rfl) fun m =>
    State.setField_rename table' m o name value

theorem commutes_innerScope : Commutes r table table' id innerScope innerScope :=
  .step (fun _ => rfl) (fun _ => rfl)
    (fun m => congrArg Prod.fst (State.pushScope_rename table' m (some m.current)))
    fun m => congrArg Prod.snd (State.pushScope_rename table' m (some m.current))

theorem commutes_newClass (name : String) (superclass : Option ObjectClass)
    (methods : Std.ExtTreeMap String Closure) :
    Commutes r table table' (ObjectClass.rename r) (newClass name superclass methods)
      (newClass name (superclass.map (ObjectClass.rename r)) (renameMethods r methods)) :=
  .step (fun _ => rfl) (fun _ => rfl) (fun _ => by cases superclass <;> rfl) fun _ => rfl

theorem commutes_methodValue (method : Closure) (o : Instance) :
    Commutes r table table' (Value.rename r) (methodValue method o)
      (methodValue (method.rename r) (o.rename r)) := by
  have bound (m : State) := State.bindMethod_rename (r := r) table' m method o
  refine fun m suits => ⟨⟨suits.locals, suits.hosts⟩, ?_⟩
  simp only [methodValue, bound m]
  rfl

/-- A table leads from the renamed identities where another one leads from the
identities. -/
def Fits (r : Renaming) (table table' : Locals) : Prop :=
  ∀ id, table'.depth? (r.node id) = table.depth? id

/-- A variable is read with the hops that the table of its own side has, and these are the same.
-/
theorem commutes_readVariable (fits : Fits r table table') (id : NodeId) (name : Name) :
    Commutes r table table' (Value.rename r) (readVariable id name)
      (readVariable (r.node id) (name.rename r)) := by
  refine .locally fun m suits => ?_
  simp only [readVariable, suits.locals]
  have depth : (m.rename r table').locals.depth? (r.node id) = table.depth? id := fits id
  rw [depth]
  cases table.depth? id with
  | some hops =>
    exact ⟨liftExcept _, liftExcept _, rfl, rfl, .lift (Scopes.getAt_rename ..)⟩
  | none => exact ⟨liftExcept _, liftExcept _, rfl, rfl, .lift (Scopes.get_rename ..)⟩

/-- An assignment finds the same scope on both sides. -/
theorem commutes_writeVariable (fits : Fits r table table') (target : Occurrence)
    (value : Value) : Commutes r table table' id (writeVariable target value)
      (writeVariable (target.rename r) (value.rename r)) := by
  intro m suits
  -- the scope written to is the same, found by the depth or from the globals
  have same : writeTarget (m.rename r table') (target.rename r) =
      renameExcept r id (writeTarget m target) := by
    have depth : (m.rename r table').locals.depth? (target.rename r).id =
        table.depth? target.id := fits target.id
    simp only [writeTarget, suits.locals, depth]
    cases table.depth? target.id with
    | some hops => exact Scopes.targetAt_rename ..
    | none => exact Scopes.target_rename ..
  simp only [writeVariable, same]
  cases writeTarget m target with
  | error fault => exact ⟨suits, rfl⟩
  | ok owner =>
    refine ⟨⟨suits.locals, suits.hosts⟩, ?_⟩
    exact congrArg (EStateM.Result.ok ()) (State.define_rename table' m owner _ value)

theorem commutes_assign (name : Name) (value : Value) :
    Commutes r table table' id (assign name value) (assign (name.rename r) (value.rename r)) := by
  intro m suits
  have same : (m.rename r table').scopes.target (m.rename r table').current
      (name.rename r).text (name.rename r).line =
        renameExcept r id (m.scopes.target m.current name.text name.line) :=
    Scopes.target_rename ..
  simp only [assign, same]
  cases m.scopes.target m.current name.text name.line with
  | error fault => exact ⟨suits, rfl⟩
  | ok owner =>
    refine ⟨⟨suits.locals, suits.hosts⟩, ?_⟩
    exact congrArg (EStateM.Result.ok ()) (State.define_rename table' m owner _ value)

/-- A field is looked for before a method, on both sides. -/
theorem commutes_readProperty (subject : Value) (name : Name) :
    Commutes r table table' (Value.rename r) (readProperty subject name)
      (readProperty (subject.rename r) (name.rename r)) := by
  cases subject with
  | object o =>
    refine .locally fun m suits => ?_
    have field := State.field?_rename (r := r) table' m o name.text
    simp only [readProperty, Value.rename, Name.rename_text, field]
    cases m.field? o name.text with
    | some value => exact ⟨pure _, pure _, rfl, rfl, .pure rfl⟩
    -- without a field of that name the class is searched for a method
    | none =>
      have found : (o.rename r).cls.method? name.text =
          (o.cls.method? name.text).map (Closure.rename r) :=
        ObjectClass.method?_rename name.text o.cls
      simp only [Option.map_none, found]
      cases o.cls.method? name.text with
      | some method => exact ⟨_, _, rfl, rfl, commutes_methodValue method o⟩
      | none => exact ⟨stop _, stop _, rfl, rfl, .stop rfl⟩
  | _ => exact .stop rfl

/-- A method of a superclass is found in the same scope, and bound to the same object. -/
theorem commutes_readSuper (fits : Fits r table table') (id : NodeId) (method : Name) :
    Commutes r table table' (Value.rename r) (readSuper id method)
      (readSuper (r.node id) (method.rename r)) := by
  refine .locally fun m suits => ?_
  have depth : (m.rename r table').locals.depth? (r.node id) = table.depth? id := fits id
  -- both lookups give the renamed value, or the same fault
  have found (hops : Nat) (name : String) :
      (m.rename r table').scopes.getAt hops (m.rename r table').current name =
        renameExcept r (Value.rename r) (m.scopes.getAt hops m.current name) :=
    Scopes.getAt_rename ..
  simp only [readSuper, suits.locals, depth, found]
  cases table.depth? id with
  | none => exact ⟨stop _, stop _, rfl, rfl, .stop rfl⟩
  | some hops =>
    simp only
    cases m.scopes.getAt hops m.current "super" with
    | error fault => exact ⟨stop _, stop _, rfl, rfl, .stop rfl⟩
    | ok value =>
      cases value with
      | cls c =>
        cases hops with
        | zero => exact ⟨stop _, stop _, rfl, rfl, .stop rfl⟩
        | succ inner =>
          simp only [renameExcept, Value.rename]
          cases m.scopes.getAt inner m.current "this" with
          | error fault => exact ⟨stop _, stop _, rfl, rfl, .stop rfl⟩
          | ok value =>
            cases value with
            | object o =>
              simp only [Name.rename_text, ObjectClass.method?_rename]
              cases c.method? method.text with
              | none => exact ⟨stop _, stop _, rfl, rfl, .stop rfl⟩
              | some found => exact ⟨_, _, rfl, rfl, commutes_methodValue found o⟩
            | _ => exact ⟨stop _, stop _, rfl, rfl, .stop rfl⟩
      | _ => exact ⟨stop _, stop _, rfl, rfl, .stop rfl⟩

/-- What is printed does not depend on lines or identities. -/
theorem commutes_print (value : Value) :
    Commutes r table table' id (print value) (print (value.rename r)) := by
  intro m suits
  have sink : (m.rename r table').sink = m.sink := rfl
  simp only [print, Value.display_rename, sink]
  cases (m.sink.write (value.display ++ "\n").toUTF8).1 with
  | true => exact ⟨⟨suits.locals, suits.hosts⟩, rfl⟩
  | false => exact ⟨⟨suits.locals, suits.hosts⟩, rfl⟩

theorem commutes_callHost (f : HostRef) (arguments : List Value) (line : Nat) :
    Commutes r table table' (Value.rename r) (callHost f arguments line)
      (callHost f (arguments.map (Value.rename r)) (r.line line)) := by
  intro m suits
  have hosts : (m.rename r table').hosts = m.hosts := rfl
  simp only [callHost, hosts]
  cases found : m.hosts[f.id]? with
  | none => exact ⟨suits, rfl⟩
  | some action =>
    obtain rfl := suits.hosts action (Array.mem_of_getElem? found)
    exact ⟨⟨suits.locals, suits.hosts⟩, rfl⟩

/-- Parameters are bound one by one, on both sides. -/
theorem bindAll_rename (r : Renaming) (table' : Locals) (pairs : List (Name × Value))
    (scope : ScopeId) {m : State} (suits : Suits table m) :
    Suits table (pairs.foldl (fun m (p, argument) => m.define scope p.text argument) m) ∧
      (pairs.map (Prod.map (Name.rename r) (Value.rename r))).foldl
          (fun m (p, argument) => m.define scope p.text argument) (m.rename r table') =
        (pairs.foldl (fun m (p, argument) => m.define scope p.text argument) m).rename r
          table' := by
  induction pairs generalizing m with
  | nil => exact ⟨suits, rfl⟩
  | cons pair rest ih =>
    obtain ⟨name, value⟩ := pair
    obtain ⟨suits', same⟩ := ih (m := m.define scope name.text value) ⟨suits.locals, suits.hosts⟩
    refine ⟨suits', ?_⟩
    rw [← State.define_rename] at same
    exact same

/-- Both sides bind the parameters in a new scope of the same number. -/
theorem commutes_callScope (closure : Closure) (arguments : List Value) :
    Commutes r table table' id (callScope closure arguments)
      (callScope (closure.rename r) (arguments.map (Value.rename r))) := by
  intro m suits
  have pushed := State.pushScope_rename (r := r) table' m (some closure.scope)
  have parent : (closure.rename r).scope = closure.scope := rfl
  have pairs : (closure.rename r).declaration.parameters.zip (arguments.map (Value.rename r)) =
      (closure.declaration.parameters.zip arguments).map
        (Prod.map (Name.rename r) (Value.rename r)) := by
    simp only [Closure.rename, FunctionDecl.rename_parameters, List.zip_map]
  obtain ⟨suits', same⟩ := bindAll_rename r table'
    (closure.declaration.parameters.zip arguments) (m.pushScope (some closure.scope)).1
    (m := (m.pushScope (some closure.scope)).2) ⟨suits.locals, suits.hosts⟩
  refine ⟨suits', ?_⟩
  simp only [callScope, parent, pushed, pairs]
  exact congrArg (EStateM.Result.ok _) same

theorem commutes_boundObject (closure : Closure) :
    Commutes r table table' (Value.rename r) (boundObject closure)
      (boundObject (closure.rename r)) :=
  .locally fun _ _ => ⟨liftExcept _, liftExcept _, rfl, rfl, .lift (Scopes.getAt_rename ..)⟩

/-- The table of methods is renamed method by method. -/
theorem methodTable_rename (scope : ScopeId) (methods : List FunctionDecl) :
    methodTable scope (FunctionDecl.renameAll r methods) =
      renameMethods r (methodTable scope methods) := by
  have insert (methods : List FunctionDecl) (found : Std.ExtTreeMap String Closure) :
      (FunctionDecl.renameAll r methods).foldl (fun table method =>
          table.insert method.name.text
            ⟨method, scope, method.name.text == initializerName⟩) (renameMethods r found) =
        renameMethods r (methods.foldl (fun table method =>
          table.insert method.name.text
            ⟨method, scope, method.name.text == initializerName⟩) found) := by
    induction methods generalizing found with
    | nil => rfl
    | cons method rest ih =>
      simp only [FunctionDecl.renameAll, List.foldl_cons, FunctionDecl.rename_name,
        Name.rename_text, ← ih, renameMethods_insert]
      rfl
  exact insert methods ∅

theorem commutes_classScope (superclass : Option ObjectClass) :
    Commutes r table table' id (classScope superclass)
      (classScope (superclass.map (ObjectClass.rename r))) := by
  intro m suits
  cases superclass with
  | none => exact ⟨suits, rfl⟩
  | some c =>
    refine ⟨⟨suits.locals, suits.hosts⟩, ?_⟩
    have pushed := State.pushScope_rename (r := r) table' m (some m.current)
    have current : (m.rename r table').current = m.current := rfl
    simp only [classScope, Option.map_some, current, pushed]
    exact congrArg (EStateM.Result.ok _) (State.define_rename table' _ _ "super" (.cls c))

theorem commutes_declareClass (name : Name) (superclass : Option ObjectClass)
    (methods : List FunctionDecl) :
    Commutes r table table' id (declareClass name superclass methods)
      (declareClass (name.rename r) (superclass.map (ObjectClass.rename r))
        (FunctionDecl.renameAll r methods)) := by
  refine (commutes_define name.text .nil).bind fun _ => ?_
  refine (commutes_classScope superclass).bind fun scope => ?_
  rw [methodTable_rename]
  refine (commutes_newClass name.text superclass _).bind fun cls => ?_
  exact commutes_assign name (.cls cls)

theorem commutes_asSuperclass (value : Value) (line : Nat) :
    Commutes r table table' (ObjectClass.rename r) (asSuperclass value line)
      (asSuperclass (value.rename r) (r.line line)) := by
  cases value <;> first | exact .pure rfl | exact .stop rfl

/-- A renamed value has the same arity, and can be called if the value could. -/
theorem commutes_checkCall (callee : Value) (arguments : List Value) (line : Nat) :
    Commutes r table table' id (checkCall callee arguments line)
      (checkCall (callee.rename r) (arguments.map (Value.rename r)) (r.line line)) := by
  simp only [checkCall, Value.arity?_rename, List.length_map]
  split
  · exact .stop rfl
  · split
    · exact .pure rfl
    · exact .stop rfl

/-- An initializer gives its object on both sides, whatever it completes with. -/
theorem commutes_callResult (closure : Closure) (completion : Completion) :
    Commutes r table table' (Value.rename r) (callResult closure completion)
      (callResult (closure.rename r) (completion.rename r)) := by
  have initializer : (closure.rename r).isInitializer = closure.isInitializer := rfl
  simp only [callResult, initializer, Closure.rename_name]
  split
  · exact commutes_boundObject closure
  · cases completion <;> first | exact .pure rfl | exact .stop rfl

end Steps

/-! ## Runs -/

/-- With this fuel, renamed code does what the code does. -/
structure Natural (r : Renaming) (table table' : Locals) (fuel : Nat) : Prop where
  evaluate (e : Expr) : Commutes r table table' (Value.rename r)
    (evaluate fuel e) (evaluate fuel (e.rename r))
  evaluateAll (es : List Expr) : Commutes r table table' (List.map (Value.rename r))
    (evaluateAll fuel es) (evaluateAll fuel (Expr.renameAll r es))
  call (f : Value) (vs : List Value) (line : Nat) : Commutes r table table' (Value.rename r)
    (call fuel f vs line) (call fuel (f.rename r) (vs.map (Value.rename r)) (r.line line))
  invoke (c : Closure) (vs : List Value) : Commutes r table table' (Value.rename r)
    (invoke fuel c vs) (invoke fuel (c.rename r) (vs.map (Value.rename r)))
  execute (s : Stmt) : Commutes r table table' (Completion.rename r)
    (execute fuel s) (execute fuel (s.rename r))
  evaluate? (e : Option Expr) : Commutes r table table' (Value.rename r)
    (evaluate? fuel e) (evaluate? fuel (e.map (Expr.rename r)))
  executeAll (ss : List Stmt) : Commutes r table table' (Completion.rename r)
    (executeAll fuel ss) (executeAll fuel (Stmt.renameAll r ss))
  executeLoop (condition : Expr) (body : Stmt) (increment : Option Expr) :
    Commutes r table table' (Completion.rename r) (executeLoop fuel condition body increment)
      (executeLoop fuel (condition.rename r) (body.rename r) (increment.map (Expr.rename r)))

namespace Natural

/-- Without fuel, nothing is run on either side. -/
theorem zero : Natural r table table' 0 where
  evaluate _ := .throw rfl
  evaluateAll _ := .throw rfl
  call _ _ _ := .throw rfl
  invoke _ _ := .throw rfl
  execute _ := .throw rfl
  evaluate? _ := .throw rfl
  executeAll _ := .throw rfl
  executeLoop _ _ _ := .throw rfl

section Succ

variable {fuel : Nat} (ih : Natural r table table' fuel)
include ih

/-- An expression commutes if its parts do with less fuel. -/
theorem evaluate_succ (fits : Fits r table table') (e : Expr) :
    Commutes r table table' (Value.rename r) (Machine.evaluate (fuel + 1) e)
      (Machine.evaluate (fuel + 1) (e.rename r)) := by
  cases e with
  | literal value => exact .pure (Value.rename_ofLiteral value).symm
  | group inner => exact ih.evaluate inner
  | unary op line operand =>
    exact (ih.evaluate operand).bind fun v => .lift (applyUnary_rename op line v)
  | binary op line left right =>
    refine (ih.evaluate left).bind fun a => (ih.evaluate right).bind fun b => ?_
    exact .lift (applyBinary_rename op line a b)
  | logical op left right =>
    simp only [Machine.evaluate, Expr.rename]
    refine (ih.evaluate left).bind fun a => ?_
    -- renaming changes no truth value, so both runs take the same turn
    rw [decides_rename]
    split
    · exact .pure rfl
    · exact ih.evaluate right
  | «variable» o => exact commutes_readVariable fits o.id o.name
  | assign target value =>
    refine (ih.evaluate value).bind fun v => ?_
    exact (commutes_writeVariable fits target v).bind fun _ => .pure rfl
  | call callee line arguments =>
    refine (ih.evaluate callee).bind fun f => (ih.evaluateAll arguments).bind fun vs => ?_
    exact (commutes_checkCall f vs line).bind fun _ => ih.call f vs line
  | get object name => exact (ih.evaluate object).bind fun o => commutes_readProperty o name
  | set object name value =>
    simp only [Machine.evaluate, Expr.rename]
    refine (ih.evaluate object).bind fun o => ?_
    cases o with
    | object o =>
      refine (ih.evaluate value).bind fun v => ?_
      exact (commutes_writeField o name.text v).bind fun _ => .pure rfl
    | _ => exact .stop rfl
  | this id line => exact commutes_readVariable fits id ⟨"this", line⟩
  | super id line method => exact commutes_readSuper fits id method

theorem evaluateAll_succ (es : List Expr) :
    Commutes r table table' (List.map (Value.rename r)) (Machine.evaluateAll (fuel + 1) es)
      (Machine.evaluateAll (fuel + 1) (Expr.renameAll r es)) := by
  cases es with
  | nil => exact .pure rfl
  | cons e rest =>
    exact (ih.evaluate e).bind fun v => (ih.evaluateAll rest).bind fun vs => .pure rfl

/-- A call commutes if the body does with less fuel. -/
theorem call_succ (f : Value) (vs : List Value) (line : Nat) :
    Commutes r table table' (Value.rename r) (Machine.call (fuel + 1) f vs line)
      (Machine.call (fuel + 1) (f.rename r) (vs.map (Value.rename r)) (r.line line)) := by
  cases f with
  | host f => exact commutes_callHost f vs line
  | function id c => exact ih.invoke c vs
  | cls c =>
    simp only [Machine.call, Value.rename, ObjectClass.method?_rename]
    refine (commutes_newObject c).bind fun o => ?_
    cases c.method? initializerName with
    | none => exact .pure rfl
    | some initializer =>
      refine (commutes_bindMethod initializer o).bind fun bound => ?_
      exact (ih.invoke bound vs).bind fun _ => .pure rfl
  | _ => exact .stop rfl

theorem invoke_succ (c : Closure) (vs : List Value) :
    Commutes r table table' (Value.rename r) (Machine.invoke (fuel + 1) c vs)
      (Machine.invoke (fuel + 1) (c.rename r) (vs.map (Value.rename r))) := by
  refine (commutes_callScope c vs).bind fun scope => ?_
  have body : (c.rename r).declaration.body = Stmt.renameAll r c.declaration.body :=
    FunctionDecl.rename_body r c.declaration
  rw [body]
  exact ((ih.executeAll c.declaration.body).within scope).bind (commutes_callResult c)

/-- A statement commutes if its parts do with less fuel. -/
theorem execute_succ (s : Stmt) :
    Commutes r table table' (Completion.rename r) (Machine.execute (fuel + 1) s)
      (Machine.execute (fuel + 1) (s.rename r)) := by
  cases s with
  | expression e => exact (ih.evaluate e).bind fun _ => .pure rfl
  | print e =>
    exact (ih.evaluate e).bind fun v => (commutes_print v).bind fun _ => .pure rfl
  | var name initializer =>
    refine (ih.evaluate? initializer).bind fun v => ?_
    exact (commutes_define name.text v).bind fun _ => .pure rfl
  | block body =>
    exact commutes_innerScope.bind fun scope => (ih.executeAll body).within scope
  | branch condition yes no =>
    cases no with
    | none =>
      refine (ih.evaluate condition).bind fun v => ?_
      -- renaming changes no truth value, so both runs take the same part
      rw [Value.isTruthy_rename]
      split
      · exact ih.execute yes
      · exact .pure rfl
    | some no =>
      refine (ih.evaluate condition).bind fun v => ?_
      rw [Value.isTruthy_rename]
      split
      · exact ih.execute yes
      · exact ih.execute no
  | loop condition body increment => exact ih.executeLoop condition body increment
  | function d =>
    simp only [Machine.execute, Stmt.rename, FunctionDecl.rename_name]
    refine (commutes_newFunction d).bind fun f => ?_
    exact (commutes_define d.name.text f).bind fun _ => .pure rfl
  | «return» line value => exact (ih.evaluate? value).bind fun _ => .pure rfl
  | «break» line | «continue» line => exact .pure rfl
  | classDecl name superclass methods =>
    cases superclass with
    | none => exact (commutes_declareClass name none methods).bind fun _ => .pure rfl
    | some superclass =>
      refine (ih.evaluate (.variable superclass)).bind fun v => ?_
      refine (commutes_asSuperclass v superclass.name.line).bind fun c => ?_
      exact (commutes_declareClass name (some c) methods).bind fun _ => .pure rfl

theorem evaluate?_succ (e : Option Expr) :
    Commutes r table table' (Value.rename r) (Machine.evaluate? (fuel + 1) e)
      (Machine.evaluate? (fuel + 1) (e.map (Expr.rename r))) := by
  cases e with
  | none => exact .pure rfl
  | some e => exact ih.evaluate e

theorem executeAll_succ (ss : List Stmt) :
    Commutes r table table' (Completion.rename r) (Machine.executeAll (fuel + 1) ss)
      (Machine.executeAll (fuel + 1) (Stmt.renameAll r ss)) := by
  cases ss with
  | nil => exact .pure rfl
  | cons s rest =>
    refine (ih.execute s).bind fun completion => ?_
    cases completion with
    | normal => exact ih.executeAll rest
    | _ => exact .pure rfl

/-- A loop commutes if its parts and its next round do with less fuel. -/
theorem executeLoop_succ (condition : Expr) (body : Stmt) (increment : Option Expr) :
    Commutes r table table' (Completion.rename r)
      (Machine.executeLoop (fuel + 1) condition body increment)
      (Machine.executeLoop (fuel + 1) (condition.rename r) (body.rename r)
        (increment.map (Expr.rename r))) := by
  refine (ih.evaluate condition).bind fun v => ?_
  rw [Value.isTruthy_rename]
  split
  · refine (ih.execute body).bind fun completion => ?_
    cases completion with
    | normal | continued =>
      exact (ih.evaluate? increment).bind fun _ => ih.executeLoop condition body increment
    | broke | returned => exact .pure rfl
  · exact .pure rfl

end Succ

end Natural

/-- Runs of renamed code do what runs of the code do. -/
theorem natural (fits : Fits r table table') (fuel : Nat) : Natural r table table' fuel := by
  induction fuel with
  | zero => exact .zero
  | succ fuel ih =>
    exact ⟨ih.evaluate_succ fits, ih.evaluateAll_succ, ih.call_succ, ih.invoke_succ,
      ih.execute_succ, ih.evaluate?_succ, ih.executeAll_succ, ih.executeLoop_succ⟩

/-- The statements of a program commute one after the other. -/
theorem commutes_runStatements (fits : Fits r table table') (fuel : Nat) (ss : List Stmt) :
    Commutes r table table' id (runStatements fuel ss)
      (runStatements fuel (Stmt.renameAll r ss)) := by
  induction ss with
  | nil => exact .pure rfl
  | cons s rest ih =>
    refine ((natural fits fuel).execute s).bind fun completion => ?_
    cases completion with
    | normal => exact ih
    | _ => exact .stop rfl

end ClassScript.Machine
