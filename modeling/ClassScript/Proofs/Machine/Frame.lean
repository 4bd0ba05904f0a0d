import ClassScript.Proofs.Machine.Heap
import ClassScript.Proofs.Machine.Moment
import ClassScript.Proofs.Syntax.Plain

/-!
# What a run leaves alone

Whatever a run does, and however it ends: the scopes that were there keep their
places, their parents and their names. The scope that is current is current again,
and it is the only old scope that may have gained a name, one that the statement at
hand declares (`grows`).
-/

namespace ClassScript.Machine

open Syntax Object

/-- `after` comes from `before` by a run that may bind the given names in the scope
that is current. -/
structure Grows (names : List String) (before after : State) : Prop where
  scopes : before.scopes.Extends after.scopes
  fresh : ∀ id name, id < before.scopes.size → (after.scopes.own? id name).isSome →
    (before.scopes.own? id name).isSome ∨ id = before.current ∧ name ∈ names
  globals : after.globals = before.globals
  current : after.current = before.current
  locals : after.locals = before.locals
  hosts : after.hosts = before.hosts

namespace Grows

variable {names more : List String} {a b c : State}

theorem refl (names : List String) (m : State) : Grows names m m := by
  refine ⟨.refl _, ?_, rfl, rfl, rfl, rfl⟩
  intro _ _ _ h
  exact .inl h

/-- Growth goes on: what two runs leave alone one after the other, both leave alone. -/
theorem trans (first : Grows names a b) (second : Grows names b c) : Grows names a c where
  scopes := first.scopes.trans second.scopes
  fresh id name inside h := by
    rcases second.fresh id name (Nat.lt_of_lt_of_le inside first.scopes.size) h with old | new
    · exact first.fresh id name inside old
    · exact .inr (first.current ▸ new)
  globals := second.globals.trans first.globals
  current := second.current.trans first.current
  locals := second.locals.trans first.locals
  hosts := second.hosts.trans first.hosts

/-- More names than those that are declared may be allowed for. -/
theorem mono (sub : names ⊆ more) (g : Grows names a b) : Grows more a b :=
  { g with
    fresh := fun id name inside h =>
      (g.fresh id name inside h).imp_right fun new => ⟨new.1, sub new.2⟩ }

/-- A machine whose scopes are the old ones. -/
theorem of_scopes_eq (scopes : b.scopes = a.scopes) (globals : b.globals = a.globals)
    (current : b.current = a.current) (locals : b.locals = a.locals)
    (hosts : b.hosts = a.hosts) : Grows names a b :=
  ⟨scopes ▸ .refl _, fun _ _ _ h => .inl (scopes ▸ h), globals, current, locals, hosts⟩

/-- A new scope is a name more in no old one. -/
theorem pushScope (names : List String) (m : State) (parent : Option ScopeId) :
    Grows names m (m.pushScope parent).2 :=
  ⟨.push m.scopes parent, fun _ _ _ h => .inl (by simpa [State.pushScope] using h),
    rfl, rfl, rfl, rfl⟩

/-- Binding a name in the current scope, in a new one, or where it is bound. -/
theorem define {m : State} (g : Grows names a m) {id : ScopeId} {name : String}
    (value : Value)
    (allowed : id = a.current ∧ name ∈ names ∨ a.scopes.size ≤ id ∨
      m.scopes.contains id name = true) :
    Grows names a (m.define id name value) where
  scopes := g.scopes.trans (.define m.scopes id name value)
  fresh other text inside h := by
    simp only [State.define, Scopes.own?_define] at h
    split at h
    · next here =>
      obtain ⟨rfl, rfl, -⟩ := here
      rcases allowed with current | behind | bound
      · exact .inr current
      · -- a scope behind all old ones is not an old one
        omega
      · exact g.fresh _ _ inside bound
    · exact g.fresh other text inside h
  globals := g.globals
  current := g.current
  locals := g.locals
  hosts := g.hosts

/-- What is done in a new scope binds no name in an old one. -/
theorem inside {m m' : State} {scope : ScopeId} (g : Grows [] a m)
    (behind : a.scopes.size ≤ scope)
    (run : Grows names { m with current := scope } m') :
    Grows more a { m' with current := m.current } where
  scopes := g.scopes.trans run.scopes
  fresh id name inside h := by
    rcases run.fresh id name (Nat.lt_of_lt_of_le inside g.scopes.size) h with old | new
    · exact (g.fresh id name inside old).imp_right fun new => absurd new.2 List.not_mem_nil
    · -- the scope of the run is none of the old ones
      have here : id = scope := new.1
      omega
  globals := run.globals.trans g.globals
  current := g.current
  locals := run.locals.trans g.locals
  hosts := run.hosts.trans g.hosts

end Grows

/-! ## Steps -/

/-- The machine that a computation leaves, with or without a result. -/
def left {α : Type} : EStateM.Result Stop State α → State
  | .ok _ m | .error _ m => m

/-- However the computation ends, the machines before and after it are so related. -/
def Leaves {α : Type} (R : State → State → Prop) (x : Run α) : Prop :=
  ∀ m, R m (left (x m))

namespace Leaves

variable {α : Type} {R : State → State → Prop} {x : Run α} {m m' : State}

theorem ok {a : α} (leaves : Leaves R x) (h : x m = .ok a m') : R m m' := by
  have := leaves m
  rwa [h] at this

theorem error {e : Stop} (leaves : Leaves R x) (h : x m = .error e m') : R m m' := by
  have := leaves m
  rwa [h] at this

variable {names : List String}

theorem liftExcept (r : Except Fault α) : Leaves (Grows names) (liftExcept r) := by
  intro m
  cases r <;> exact .refl names m

theorem stop (fault : Fault) : Leaves (Grows names) (stop fault : Run α) :=
  fun m => .refl names m

theorem readVariable (id : NodeId) (name : Name) :
    Leaves (Grows names) (readVariable id name) :=
  fun m => Leaves.liftExcept _ m

/-- An assignment defines no name that was not defined. -/
theorem writeVariable (target : Occurrence) (value : Value) :
    Leaves (Grows names) (writeVariable target value) := by
  intro m
  unfold Machine.writeVariable
  cases h : writeTarget m target with
  | error fault => exact .refl names m
  | ok owner =>
    refine (Grows.refl names m).define value (.inr (.inr ?_))
    unfold writeTarget at h
    split at h
    · exact Scopes.contains_of_targetAt h
    · exact Scopes.contains_of_target h

theorem define {name : String} (declared : name ∈ names) (value : Value) :
    Leaves (Grows names) (define name value) :=
  fun m => (Grows.refl names m).define value (.inl ⟨rfl, declared⟩)

theorem newFunction (declaration : FunctionDecl) :
    Leaves (Grows names) (newFunction declaration) :=
  fun _ => .of_scopes_eq rfl rfl rfl rfl rfl

theorem newObject (cls : ObjectClass) : Leaves (Grows names) (newObject cls) :=
  fun _ => .of_scopes_eq rfl rfl rfl rfl rfl

theorem bindMethod (method : Closure) (o : Instance) :
    Leaves (Grows names) (bindMethod method o) :=
  fun m => (Grows.pushScope names m (some method.scope)).define (.object o)
    (.inr (.inl (Nat.le_refl _)))

theorem methodValue (method : Closure) (o : Instance) :
    Leaves (Grows names) (methodValue method o) := by
  intro m
  exact (Leaves.bindMethod method o m).trans (.of_scopes_eq rfl rfl rfl rfl rfl)

theorem readProperty (subject : Value) (name : Name) :
    Leaves (Grows names) (readProperty subject name) := by
  intro m
  cases subject with
  | object o =>
    simp only [Machine.readProperty]
    cases m.field? o name.text with
    | some value => exact .refl names m
    | none =>
      cases o.cls.method? name.text with
      | some method => exact Leaves.methodValue method o m
      | none => exact .refl names m
  | _ => exact .refl names m

theorem writeField (o : Instance) (name : String) (value : Value) :
    Leaves (Grows names) (writeField o name value) :=
  fun _ => .of_scopes_eq rfl rfl rfl rfl rfl

/-- To look up a method of a superclass makes a scope at most, for the method that is bound. -/
theorem readSuper (id : NodeId) (method : Name) :
    Leaves (Grows names) (readSuper id method) := by
  intro m
  unfold Machine.readSuper
  -- only the last step changes the machine, where the method is bound to the object
  cases m.locals.depth? id with
  | none => exact .refl names m
  | some hops =>
    simp only
    cases m.scopes.getAt hops m.current "super" with
    | error fault => exact .refl names m
    | ok value =>
      cases value with
      | cls superclass =>
        cases hops with
        | zero => exact .refl names m
        | succ inner =>
          simp only
          cases m.scopes.getAt inner m.current "this" with
          | error fault => exact .refl names m
          | ok value =>
            cases value with
            | object o =>
              simp only
              cases superclass.method? method.text with
              | some found => exact Leaves.methodValue found o m
              | none => exact .refl names m
            | _ => exact .refl names m
      | _ => exact .refl names m

theorem print (value : Value) : Leaves (Grows names) (print value) := by
  intro m
  simp only [Machine.print]
  split <;> exact .of_scopes_eq rfl rfl rfl rfl rfl

theorem callHost (f : HostRef) (arguments : List Value) (line : Nat) :
    Leaves (Grows names) (callHost f arguments line) := by
  intro m
  unfold Machine.callHost
  cases m.hosts[f.id]? with
  | none => exact .refl names m
  | some action =>
    cases action with
    | clock => exact .of_scopes_eq rfl rfl rfl rfl rfl
    | compute run =>
      simp only
      cases run arguments <;> exact .refl names m

theorem checkCall (callee : Value) (arguments : List Value) (line : Nat) :
    Leaves (Grows names) (checkCall callee arguments line) := by
  intro m
  unfold Machine.checkCall
  cases callee.arity? with
  | none => exact .refl names m
  | some expected =>
    simp only
    split <;> exact .refl names m

theorem callResult (closure : Closure) (completion : Completion) :
    Leaves (Grows names) (callResult closure completion) := by
  intro m
  unfold Machine.callResult
  split
  · exact Leaves.liftExcept _ m
  · cases completion <;> exact .refl names m

theorem asSuperclass (value : Value) (line : Nat) :
    Leaves (Grows names) (asSuperclass value line) := by
  intro m
  cases value <;> exact .refl names m

theorem classScope (superclass : Option ObjectClass) :
    Leaves (Grows names) (classScope superclass) := by
  intro m
  cases superclass with
  | none => exact .refl names m
  | some c =>
    exact (Grows.pushScope names m (some m.current)).define (.cls c)
      (.inr (.inl (Nat.le_refl _)))

theorem newClass (name : String) (superclass : Option ObjectClass)
    (methods : Std.ExtTreeMap String Closure) :
    Leaves (Grows names) (newClass name superclass methods) :=
  fun _ => .of_scopes_eq rfl rfl rfl rfl rfl

/-- An assignment through all scopes defines no name that was not defined. -/
theorem assign (name : Name) (value : Value) : Leaves (Grows names) (assign name value) := by
  intro m
  unfold Machine.assign
  cases h : m.scopes.target m.current name.text name.line with
  | error fault => exact .refl names m
  | ok owner =>
    exact (Grows.refl names m).define value (.inr (.inr (Scopes.contains_of_target h)))

end Leaves

/-- A computation that makes a new scope and leaves the old ones as they are. -/
def MakesScope (x : Run ScopeId) : Prop :=
  ∀ m, ∃ m', x m = .ok m.scopes.size m' ∧ Grows [] m m'

theorem makesScope_innerScope : MakesScope innerScope :=
  fun m => ⟨_, rfl, .pushScope [] m (some m.current)⟩

/-- The machine with names bound in a scope, one after another. -/
def bindAll (scope : ScopeId) (bindings : List (Name × Value)) (m : State) : State :=
  bindings.foldl (fun m (parameter, argument) => m.define scope parameter.text argument) m

theorem bindAll_cons (scope : ScopeId) (binding : Name × Value)
    (rest : List (Name × Value)) (m : State) :
    bindAll scope (binding :: rest) m =
      bindAll scope rest (m.define scope binding.1.text binding.2) := rfl

/-- The scope of a call is a new one inside that of the closure, with the parameters bound to
the arguments. -/
theorem callScope_eq (closure : Closure) (arguments : List Value) (m : State) :
    callScope closure arguments m = .ok m.scopes.size
      (bindAll m.scopes.size (closure.declaration.parameters.zip arguments)
        (m.pushScope (some closure.scope)).2) := rfl

/-- To bind parameters adds no scope and moves none. -/
theorem extends_bindAll (scope : ScopeId) (bindings : List (Name × Value)) (m : State) :
    m.scopes.Extends (bindAll scope bindings m).scopes := by
  induction bindings generalizing m with
  | nil => exact .refl _
  | cons binding rest ih =>
    have first : m.scopes.Extends (m.define scope binding.1.text binding.2).scopes := .define ..
    exact first.trans (ih _)

@[simp] theorem globals_bindAll (scope : ScopeId) (bindings : List (Name × Value))
    (m : State) : (bindAll scope bindings m).globals = m.globals := by
  induction bindings generalizing m with
  | nil => rfl
  | cons binding rest ih => exact ih _

/-- Binding names in a new scope binds none in an old one. -/
theorem Grows.bindAll {names : List String} {a : State} {scope : ScopeId}
    (behind : a.scopes.size ≤ scope) (bindings : List (Name × Value)) :
    ∀ m, Grows names a m → Grows names a (bindAll scope bindings m) := by
  induction bindings with
  | nil =>
    intro m g
    exact g
  | cons binding rest ih =>
    intro m g
    exact ih _ (g.define binding.2 (.inr (.inl behind)))

theorem makesScope_callScope (closure : Closure) (arguments : List Value) :
    MakesScope (callScope closure arguments) := by
  intro m
  refine ⟨_, callScope_eq closure arguments m, ?_⟩
  exact .bindAll (Nat.le_refl _) _ _ (.pushScope [] m (some closure.scope))

/-! ## Runs -/

/-- The names that a task may bind in the scope that it is run in. -/
def Task.declares : Task → List String
  | .execute s => s.declares
  | .executeAll ss => Stmt.declaresAll ss
  | .executeLoop _ body _ => body.declares
  | _ => []

/-- What a run leaves alone, as a specification. -/
def frame : Spec where
  pre _ _ := True
  post t m _ m' := Grows t.declares m m'
  stopped t m _ m' := Grows t.declares m m'
  own _ _ _ := True

/-- The plan leaves alone what it has to, wherever it begins. -/
def Plan.Frames {α : Type} (names : List String) (p : Plan α) : Prop :=
  ∀ a m, Grows names a m → p.Meets (frame.and .top) (fun _ => True)
    (fun _ m' => Grows names a m') (fun _ m' => Grows names a m') m

namespace Plan.Frames

variable {α β : Type} {names : List String}

theorem ret (a : α) : (Plan.ret a).Frames names := fun _ _ g => g

theorem prim {x : Run α} (leaves : Leaves (Grows names) x) : (Plan.prim x).Frames names := by
  intro a m g
  refine meets_prim.mpr ⟨?_, ?_⟩
  · intro b m' h
    exact g.trans (leaves.ok h)
  · intro e m' h
    exact ⟨trivial, g.trans (leaves.error h)⟩

theorem sub (t : Task) (declared : t.declares ⊆ names) : (Plan.sub t).Frames names := by
  intro a m g
  refine meets_sub.mpr ⟨trivial, ?_, ?_⟩
  · intro b m' h
    exact g.trans (h.1.mono declared)
  · intro e m' h
    exact g.trans (h.1.mono declared)

/-- Frames of plans one after the other are frames of the whole. -/
theorem bind {p : Plan β} {f : β → Plan α} (first : p.Frames names)
    (rest : ∀ b, (f b).Frames names) : (p >>= f).Frames names := by
  intro a m g
  rw [meets_bind]
  exact (first a m g).imp (fun _ h => h) (fun b m' g' => rest b a m' g') fun _ _ h => h

/-- What runs in a new scope binds nothing in an old one. -/
theorem inNewScope {x : Run ScopeId} (makes : MakesScope x) (t : Task) :
    (Plan.prim x >>= fun scope => Plan.inside scope t).Frames names := by
  intro a m g
  obtain ⟨m₁, made, grown⟩ := makes m
  refine meets_bind.mpr (meets_prim.mpr ⟨?_, ?_⟩)
  · intro scope m₂ h
    rw [made] at h
    cases h
    -- the task begins in the new scope, and behind it the old one is current again
    have leave {m' : State} (run : Grows t.declares { m₁ with current := m.scopes.size } m') :
        Grows names a { m' with current := m₁.current } :=
      g.trans (grown.inside (Nat.le_refl _) run)
    exact meets_inside.mpr ⟨trivial, fun _ _ h => leave h.1, fun _ _ h => leave h.1⟩
  · intro e m₂ h
    rw [made] at h
    cases h

end Plan.Frames

section Plans

open Plan.Frames

variable {names : List String}

/-- An expression declares nothing in the scope that it is evaluated in. -/
theorem frames_planOfExpr (e : Expr) : (Task.planOfExpr e).Frames names := by
  -- an expression declares nothing, so whatever it runs grows the scopes by no name
  have evaluate (e : Expr) : (Plan.sub (.evaluate e)).Frames names :=
    .sub _ (List.nil_subset _)
  cases e with
  | literal value => exact ret _
  | group inner => exact evaluate inner
  | unary op line operand => exact (evaluate operand).bind fun _ => prim (.liftExcept _)
  | binary op line left right =>
    exact (evaluate left).bind fun _ => (evaluate right).bind fun _ => prim (.liftExcept _)
  | logical op left right =>
    apply (evaluate left).bind
    intro a
    split
    · exact ret a
    · exact evaluate right
  | «variable» occurrence => exact prim (.readVariable _ _)
  | assign target value =>
    exact (evaluate value).bind fun v => (prim (.writeVariable target v)).bind fun _ => ret v
  | call callee line arguments =>
    exact (evaluate callee).bind fun f =>
      (sub (.evaluateAll arguments) (List.nil_subset _)).bind fun vs =>
        (prim (.checkCall f vs line)).bind fun _ => sub (.call f vs line) (List.nil_subset _)
  | get object name => exact (evaluate object).bind fun o => prim (.readProperty o name)
  | set object name value =>
    apply (evaluate object).bind
    intro o
    cases o with
    | object o =>
      exact (evaluate value).bind fun v => (prim (.writeField o _ v)).bind fun _ => ret v
    | _ => exact prim (.stop _)
  | this id line => exact prim (.readVariable _ _)
  | super id line method => exact prim (.readSuper id method)

/-- Nor does a call, whose parameters are in a scope of its own. -/
theorem frames_planOfCall (f : Value) (vs : List Value) (line : Nat) :
    (Task.planOfCall f vs line).Frames names := by
  have invoke (c : Closure) (vs : List Value) : (Plan.sub (.invoke c vs)).Frames names :=
    .sub _ (List.nil_subset _)
  cases f with
  | host f => exact prim (.callHost f vs line)
  | function id c => exact invoke c vs
  | cls c =>
    apply (prim (.newObject c)).bind
    intro o
    cases c.method? initializerName with
    | some initializer =>
      exact (prim (.bindMethod initializer o)).bind fun bound =>
        (invoke bound vs).bind fun _ => ret _
    | none => exact ret _
  | _ => exact prim (.stop _)

theorem frames_planOfClass {name : Name} (declared : name.text ∈ names)
    (superclass : Option ObjectClass) (methods : List FunctionDecl) :
    (Task.planOfClass name superclass methods).Frames names :=
  (prim (.define declared .nil)).bind fun _ => (prim (.classScope superclass)).bind
    fun _ => (prim (.newClass name.text superclass _)).bind fun cls =>
      prim (.assign name (.cls cls))

/-- A statement declares its own names at most in the scope that it is executed in. -/
theorem frames_planOfStmt (s : Stmt) : (Task.planOfStmt s).Frames s.declares := by
  have evaluate {names : List String} (e : Expr) :
      (Plan.sub (.evaluate e)).Frames names := .sub _ (List.nil_subset _)
  have evaluate? {names : List String} (e : Option Expr) :
      (Plan.sub (.evaluate? e)).Frames names := .sub _ (List.nil_subset _)
  cases s with
  | expression e => exact (evaluate e).bind fun _ => ret _
  | print e => exact (evaluate e).bind fun v => (prim (.print v)).bind fun _ => ret _
  | var name initializer =>
    -- the name defined is one that the statement declares
    exact (evaluate? initializer).bind fun v =>
      (prim (.define (by simp [Stmt.declares]) v)).bind fun _ => ret _
  -- what the block declares goes to the scope it makes
  | block body => exact inNewScope makesScope_innerScope (.executeAll body)
  | branch condition yes no =>
    apply (evaluate condition).bind
    intro v
    cases no with
    | none =>
      split
      · exact sub (.execute yes) (by simp [Task.declares, Stmt.declares])
      · exact ret _
    | some no =>
      split
      · exact sub (.execute yes) (by simp [Task.declares, Stmt.declares])
      · exact sub (.execute no) (by simp [Task.declares, Stmt.declares])
  | loop condition body increment =>
    exact sub (.executeLoop condition body increment)
      (by simp [Task.declares, Stmt.declares])
  | function declaration =>
    exact (prim (.newFunction declaration)).bind fun f =>
      (prim (.define (by simp [Stmt.declares]) f)).bind fun _ => ret _
  | «return» line value => exact (evaluate? value).bind fun _ => ret _
  | «break» line => exact ret _
  | «continue» line => exact ret _
  | classDecl name superclass methods =>
    -- the class name is bound twice: by nil at first, then by the class
    have declared : name.text ∈ (Stmt.classDecl name superclass methods).declares := by
      simp [Stmt.declares]
    cases superclass with
    | none => exact (frames_planOfClass declared none methods).bind fun _ => ret _
    | some superclass =>
      exact (evaluate _).bind fun v => (prim (.asSuperclass v _)).bind fun c =>
        (frames_planOfClass declared (some c) methods).bind fun _ => ret _

/-- Whatever a task does, it declares its own names at most in the current scope. -/
theorem frames_plan (t : Task) : t.plan.Frames t.declares := by
  cases t with
  | evaluate e => exact frames_planOfExpr e
  | evaluateAll es =>
    cases es with
    | nil => exact ret _
    | cons e rest =>
      exact (sub (.evaluate e) (List.nil_subset _)).bind fun _ =>
        (sub (.evaluateAll rest) (List.nil_subset _)).bind fun _ => ret _
  | call f vs line => exact frames_planOfCall f vs line
  | invoke c vs =>
    exact (inNewScope (makesScope_callScope c vs) (.executeAll c.declaration.body)).bind
      fun completion => prim (.callResult c completion)
  | execute s => exact frames_planOfStmt s
  | evaluate? e =>
    cases e with
    | none => exact ret _
    | some e => exact sub (.evaluate e) (List.nil_subset _)
  | executeAll ss =>
    cases ss with
    | nil => exact ret _
    | cons s rest =>
      refine (sub (.execute s) ?_).bind fun completion => ?_
      · simp [Task.declares, Stmt.declaresAll]
      · cases completion with
        | normal => exact sub (.executeAll rest) (by simp [Task.declares, Stmt.declaresAll])
        | _ => exact ret _
  | executeLoop condition body increment =>
    apply (sub (.evaluate condition) (List.nil_subset _)).bind
    intro v
    split
    · apply (sub (.execute body) (List.Subset.refl _)).bind
      intro completion
      -- the same round follows a body that ended normally and one that continued
      have again : (Plan.sub (.evaluate? increment) >>= fun _ =>
          Plan.sub (.executeLoop condition body increment)).Frames
            (Task.executeLoop condition body increment).declares :=
        (sub (.evaluate? increment) (List.nil_subset _)).bind fun _ =>
          sub (.executeLoop condition body increment) (List.Subset.refl _)
      cases completion with
      | normal => exact again
      | continued => exact again
      | broke => exact ret _
      | returned value => exact ret _
    · exact ret _

end Plans

theorem kept_frame : Kept frame .top where
  given := Spec.holdsAlways_top
  out _ m _ := .refl _ m
  plans t m _ := frames_plan t m m (.refl _ m)

/-- Every run leaves alone what it has to. -/
theorem frame_holds : frame.HoldsAlways := by
  intro fuel t m
  have outcome := kept_frame.holds fuel t m trivial
  cases h : t.run fuel m with
  | ok a m' => rw [h] at outcome; exact outcome.1
  | error e m' => rw [h] at outcome; exact outcome.1

/-- What a plan leaves alone that calls tasks. -/
theorem Plan.Frames.grows {α : Type} {names : List String} {p : Plan α} (frames : p.Frames names)
    (fuel : Nat) (m : State) : Grows names m (left (p.run (Task.tasksAt fuel) m)) := by
  have outcome := Plan.Meets.outcome (S := frame.and .top)
    (fun t m _ => kept_frame.holds fuel t m trivial) p m (frames m m (.refl names m))
  cases h : p.run (Task.tasksAt fuel) m with
  | ok a m' => rw [h] at outcome; exact outcome
  | error e m' => rw [h] at outcome; exact outcome

/-- What a run leaves alone, however it ends. -/
theorem grows_run (fuel : Nat) (t : Task) (m : State) :
    Grows t.declares m (left (t.run fuel m)) := by
  have outcome := frame_holds fuel t m
  cases h : t.run fuel m with
  | ok a m' => rw [h] at outcome; exact outcome
  | error e m' => rw [h] at outcome; exact outcome

/-- A run that succeeds leaves the current scope where it was, with its own names declared at
most. -/
theorem grows_of_ok {fuel : Nat} {t : Task} {m m' : State} {a : t.Result}
    (h : t.run fuel m = .ok a m') : Grows t.declares m m' := by
  have grows := grows_run fuel t m
  rwa [h] at grows

end ClassScript.Machine
