import ClassScript.Proofs.Machine.Held
import ClassScript.Proofs.Machine.Trace

/-!
# Runs of grounded machines

A run that begins on a grounded machine goes through grounded machines only, each of them
later than those before it, and whatever it gives is placed (`followed_grounding`). This
does not depend on what resolution makes of the code: a name that is looked up in the wrong
place, or not found, leads to no scope outside the tree.
-/

namespace ClassScript.Machine

open Syntax Parsing Object Binding

/-! ## What tasks carry -/

/-- The closure is among what the task is handed. -/
def Task.Holds (closure : Closure) : Task → Prop
  | .call callee arguments _ => callee.Has closure ∨ ∃ v ∈ arguments, v.Has closure
  | .invoke c arguments => closure = c ∨ ∃ v ∈ arguments, v.Has closure
  | _ => False

/-- The piece of a program that the task runs, if there may be functions in it. -/
def Task.code? : Task → Option Node
  | .execute s => some (.statement s)
  | .executeAll ss => some (.statements ss)
  | .executeLoop condition body increment =>
    some (.statement (.loop condition body increment))
  | _ => none

/-- The closure is among what the task gives. -/
def Task.Yields (closure : Closure) : (t : Task) → t.Result → Prop
  | .evaluate _, v | .call .., v | .invoke .., v | .evaluate? _, v => v.Has closure
  | .evaluateAll _, vs => ∃ v ∈ vs, v.Has closure
  | .execute _, c | .executeAll _, c | .executeLoop .., c =>
    ∃ v, c = .returned v ∧ v.Has closure

section Course

variable (inputs : List Input)

/-- What the task is handed is placed, and what it runs was visited. -/
structure Task.Carried (m : State) (t : Task) : Prop where
  held : ∀ closure, t.Holds closure → Placed inputs m closure
  code : ∀ node ∈ t.code?, Visited inputs node

/-- What the task gives is placed. -/
abbrev Task.Gives (t : Task) (a : t.Result) (m : State) : Prop :=
  ∀ closure, t.Yields closure a → Placed inputs m closure

/-- What holds along the runs of grounded machines. -/
def grounding : Course where
  inv := Grounded inputs
  rel := Later
  refl := Later.refl
  trans := Later.trans
  begins t m := t.Carried inputs m
  ends t a m := t.Gives inputs a m

/-- A plan stays with grounded machines, up to what is to hold where it ends. -/
abbrev Stays {α : Type} (p : Plan α) (m : State) (done : α → State → Prop) : Prop :=
  p.Follows (grounding inputs) done m

end Course

variable {inputs : List Input} {α β : Type} {m : State} {done : α → State → Prop}

/-! ## Rules -/

namespace Stays

theorem ret {a : α} (holds : done a m) : Stays inputs (.ret a) m done := holds

theorem prim {x : Run α} (names : List String) (lands : Lands inputs m x done)
    (leaves : Leaves (Grows names) x) : Stays inputs (.prim x) m done := by
  refine Plan.follows_prim.mpr ⟨?_, ?_⟩
  · intro a m' ran
    obtain ⟨grounded, holds⟩ := lands.ok a m' ran
    exact ⟨grounded, (leaves.ok ran).later, holds⟩
  · intro e m' ran
    exact ⟨lands.error e m' ran, (leaves.error ran).later⟩

section Grounded

variable (grounded : Grounded inputs m)
include grounded

/-- One plan behind the other, on a machine that is grounded again. -/
theorem bind {p : Plan β} {f : β → Plan α} {middle : β → State → Prop}
    (first : Stays inputs p m middle)
    (rest : ∀ b m', Grounded inputs m' → Later m m' → middle b m' → Stays inputs (f b) m' done) :
    Stays inputs (p >>= f) m done := by
  refine Plan.follows_bind.mpr ((first.arrives grounded).imp ?_)
  intro b m' arrived
  obtain ⟨grounded', later, holds⟩ := arrived
  exact rest b m' grounded' later holds

theorem stop (fault : Fault) : Stays inputs (.prim (Machine.stop fault)) m done :=
  prim [] (lands_stop grounded fault) (Leaves.stop fault)

/-- A task that is carried by the machine at hand stays grounded. -/
theorem sub {t : Task} (carried : t.Carried inputs m) :
    Stays inputs (.sub t) m (t.Gives inputs) := by
  refine ⟨⟨grounded, .refl m, carried⟩, fun m' grounded' later => ?_⟩
  exact ⟨⟨grounded', .refl m'⟩, fun a yields => yields⟩

/-- A call in another scope of the tree. -/
theorem inside {t : Task} {scope : ScopeId} (within : scope < m.scopes.size)
    (code : ∀ node ∈ t.code?, Visited inputs node) (empty : ∀ closure, ¬ t.Holds closure) :
    Stays inputs (.inside scope t) m (t.Gives inputs) := by
  have moved : Later m { m with current := scope } := ⟨.refl _, rfl⟩
  refine ⟨⟨grounded.move within, moved, ⟨fun c held => absurd held (empty c), code⟩⟩, ?_⟩
  intro m' grounded' later
  have back : Grounded inputs { m' with current := m.current } :=
    grounded'.move (Nat.lt_of_lt_of_le grounded.current later.scopes.size)
  have again : Later m' { m' with current := m.current } := ⟨.refl _, rfl⟩
  exact ⟨⟨back, again⟩, fun a yields closure has => (yields closure has).mono again⟩

/-- Evaluating an expression: it is handed nothing, and has no function in it. -/
theorem evaluate (e : Expr) :
    Stays inputs (.sub (.evaluate e)) m fun v m' => PlacedValue inputs m' v :=
  sub (t := .evaluate e) grounded ⟨fun _ => False.elim, nofun⟩

theorem evaluate? (e : Option Expr) :
    Stays inputs (.sub (.evaluate? e)) m fun v m' => PlacedValue inputs m' v :=
  sub (t := .evaluate? e) grounded ⟨fun _ => False.elim, nofun⟩

/-- Running statements that were visited. -/
theorem code {t : Task} {node : Node} (runs : t.code? = some node)
    (visited : Visited inputs node) (empty : ∀ closure, ¬ t.Holds closure) :
    Stays inputs (.sub t) m (t.Gives inputs) := by
  refine sub grounded ⟨fun c held => absurd held (empty c), ?_⟩
  rw [runs]
  rintro _ ⟨⟩
  exact visited

end Grounded

end Stays

/-- A piece of a visited piece is visited. -/
theorem Visited.child {node part : Node} (h : Visited inputs node)
    (child : ∀ c w, ∃ c' w', Child ⟨node, c, w⟩ ⟨part, c', w'⟩) : Visited inputs part := by
  obtain ⟨⟨_, c, w⟩, seen, rfl⟩ := h
  obtain ⟨c', w', child⟩ := child c w
  exact ⟨_, seen.child child, rfl⟩

/-! ## Plans -/

section Plans

variable (grounded : Grounded inputs m)
include grounded

/-- Expressions stay on the ground: each value that they give is placed where resolution expects
it. -/
theorem stays_planOfExpr (e : Expr) :
    Stays inputs (Task.planOfExpr e) m fun v m' => PlacedValue inputs m' v := by
  cases e with
  | literal value => exact .ret (isData_ofLiteral value).placed
  | group inner => exact .evaluate grounded inner
  | unary op line operand =>
    refine .bind grounded (.evaluate grounded operand) ?_
    intro a m₁ grounded₁ _ _
    -- an operator gives data, in which there is no closure to be placed
    exact .prim [] (lands_givesData grounded₁ (givesData_applyUnary op line a))
      (Leaves.liftExcept _)
  | binary op line left right =>
    refine .bind grounded (.evaluate grounded left) ?_
    intro a m₁ grounded₁ _ _
    refine .bind grounded₁ (.evaluate grounded₁ right) ?_
    intro b m₂ grounded₂ _ _
    exact .prim [] (lands_givesData grounded₂ (givesData_applyBinary op line a b))
      (Leaves.liftExcept _)
  | logical op left right =>
    refine .bind grounded (.evaluate grounded left) ?_
    intro a m₁ grounded₁ _ placed
    split
    · exact .ret placed
    · exact .evaluate grounded₁ right
  | «variable» o =>
    exact .prim [] (lands_readVariable grounded o.id o.name) (Leaves.readVariable _ _)
  | assign target value =>
    refine .bind grounded (.evaluate grounded value) ?_
    intro v m₁ grounded₁ _ placed
    refine .bind grounded₁ (.prim [] (lands_writeVariable grounded₁ target placed)
      (Leaves.writeVariable _ _)) ?_
    intro _ m₂ _ later _
    exact .ret (placed.mono later)
  | call callee line arguments =>
    refine .bind grounded (.evaluate grounded callee) ?_
    intro f m₁ grounded₁ _ placed
    refine .bind grounded₁ (.sub (t := .evaluateAll arguments) grounded₁
      ⟨fun _ => False.elim, nofun⟩) ?_
    intro vs m₂ grounded₂ later₂ values
    refine .bind grounded₂ (.prim [] (lands_checkCall grounded₂ f vs line)
      (Leaves.checkCall _ _ _)) ?_
    intro _ m₃ grounded₃ later₃ _
    refine .sub (t := .call f vs line) grounded₃ ⟨?_, nofun⟩
    -- a closure of the callee has seen two steps since, one of the arguments only the last
    rintro closure (has | has)
    · exact ((placed closure has).mono later₂).mono later₃
    · exact (values closure has).mono later₃
  | get object name =>
    refine .bind grounded (.evaluate grounded object) ?_
    intro o m₁ grounded₁ _ placed
    exact .prim [] (lands_readProperty grounded₁ name placed) (Leaves.readProperty _ _)
  | set object name value =>
    refine .bind grounded (.evaluate grounded object) ?_
    intro o m₁ grounded₁ _ _
    cases o with
    | object o =>
      refine .bind grounded₁ (.evaluate grounded₁ value) ?_
      intro v m₂ grounded₂ _ placed
      refine .bind grounded₂ (.prim [] (lands_writeField grounded₂ o name.text placed)
        (Leaves.writeField _ _ _)) ?_
      intro _ m₃ _ later _
      exact .ret (placed.mono later)
    | _ => exact .stop grounded₁ _
  | this id line =>
    exact .prim [] (lands_readVariable grounded id _) (Leaves.readVariable _ _)
  | super id line method =>
    exact .prim [] (lands_readSuper grounded id method) (Leaves.readSuper _ _)

/-- Arguments are placed one after the other, and those that are there stay so. -/
theorem stays_planOfArguments (es : List Expr) :
    Stays inputs (Task.evaluateAll es).plan m ((Task.evaluateAll es).Gives inputs) := by
  cases es with
  | nil =>
    refine .ret ?_
    rintro closure ⟨v, inside, -⟩
    cases inside
  | cons e rest =>
    refine .bind grounded (.evaluate grounded e) ?_
    intro v m₁ grounded₁ _ placed
    refine .bind grounded₁ (.sub (t := .evaluateAll rest) grounded₁
      ⟨fun _ => False.elim, nofun⟩) ?_
    intro vs m₂ _ later₂ values
    refine .ret ?_
    -- a closure sits in the first value or in one of the others
    rintro closure ⟨v', inside, has⟩
    rcases List.mem_cons.mp inside with rfl | others
    · exact (placed closure has).mono later₂
    · exact values closure ⟨v', others, has⟩

/-- A call runs its body in a scope in which the body was visited. -/
theorem stays_planOfCall {f : Value} {vs : List Value} (line : Nat)
    (callee : PlacedValue inputs m f) (values : ∀ v ∈ vs, PlacedValue inputs m v) :
    Stays inputs (Task.planOfCall f vs line) m fun v m' => PlacedValue inputs m' v := by
  -- what an invocation is handed: the function, and the arguments
  have invoked {c : Closure} {m' : State} (placed : Placed inputs m' c) (later : Later m m') :
      (Task.invoke c vs).Carried inputs m' := by
    refine ⟨?_, nofun⟩
    rintro closure (rfl | ⟨v, inside, has⟩)
    · exact placed
    · exact (values v inside closure has).mono later
  cases f with
  | host f =>
    exact .prim [] (lands_callHost grounded f vs line) (Leaves.callHost _ _ _)
  | function id c =>
    exact .sub (t := .invoke c vs) grounded (invoked (callee c .function) (.refl m))
  | cls c =>
    refine .bind grounded (.prim [] (lands_newObject grounded callee.ofClass)
      (Leaves.newObject _)) ?_
    intro o m₁ grounded₁ later₁ made
    obtain ⟨rfl, placed⟩ := made
    cases found : o.cls.method? initializerName with
    | none => exact .ret placed.object
    | some initializer =>
      have known := placed initializer (o.cls.has_of_method? found)
      refine .bind grounded₁ (.prim [] (lands_bindMethod grounded₁ known placed)
        (Leaves.bindMethod _ _)) ?_
      intro bound m₂ grounded₂ later₂ bound_placed
      refine .bind grounded₂ (.sub (t := .invoke bound vs) grounded₂
        (invoked bound_placed (later₁.trans later₂))) ?_
      intro _ m₃ _ later₃ _
      exact .ret ((placed.mono later₂).mono later₃).object
  | _ => exact .stop grounded _

/-- Making a class. -/
theorem stays_planOfClass (name : Name) {superclass : Option ObjectClass}
    {ds : List FunctionDecl} (placed : ∀ c ∈ superclass, PlacedClass inputs m c)
    (code : ∀ d ∈ ds, Visited inputs (.function d)) :
    Stays inputs (Task.planOfClass name superclass ds) m fun _ _ => True := by
  refine .bind grounded
    (.prim [name.text] (lands_define grounded name.text (IsData.placed trivial))
      (Leaves.define (List.mem_singleton_self _) _)) ?_
  intro _ m₁ grounded₁ later₁ _
  have placed₁ : ∀ c ∈ superclass, PlacedClass inputs m₁ c :=
    fun c inside => (placed c inside).mono later₁
  refine .bind grounded₁ (.prim [] (lands_classScope grounded₁ placed₁) (Leaves.classScope _)) ?_
  intro scope m₂ grounded₂ _ opened
  refine .bind grounded₂ (.prim [] (lands_newClass grounded₂ name.text opened.1 code opened.2)
    (Leaves.newClass _ _ _)) ?_
  intro cls m₃ grounded₃ _ made
  exact .prim [] (lands_assign grounded₃ name made.value) (Leaves.assign _ _)

/-- What a statement hands on where it ends: the value that it returns. -/
abbrev Passes (inputs : List Input) (c : Completion) (m : State) : Prop :=
  ∀ closure, (∃ v, c = .returned v ∧ v.Has closure) → Placed inputs m closure

omit grounded in
theorem passes_of_not_returned {c : Completion} (other : ∀ v, c ≠ .returned v) :
    Passes inputs c m := by
  rintro closure ⟨v, same, -⟩
  exact absurd same (other v)

omit grounded in
/-- The methods of a visited class are visited. -/
theorem visited_method {ds : List FunctionDecl} (h : Visited inputs (.methods ds)) :
    ∀ d ∈ ds, Visited inputs (.function d) := by
  intro d inside
  obtain ⟨⟨_, c, w⟩, seen, rfl⟩ := h
  obtain ⟨c', w', found, -⟩ := seen_method seen inside
  exact ⟨_, found, rfl⟩

/-- Statements stay on the ground, and return placed values only. -/
theorem stays_planOfStmt {s : Stmt} (visited : Visited inputs (.statement s)) :
    Stays inputs (Task.planOfStmt s) m fun c m' => Passes inputs c m' := by
  have normal {m' : State} : Passes inputs .normal m' := passes_of_not_returned nofun
  cases s with
  | expression e => exact .bind grounded (.evaluate grounded e) fun _ _ _ _ _ => .ret normal
  | print e =>
    refine .bind grounded (.evaluate grounded e) ?_
    intro v m₁ grounded₁ _ _
    exact .bind grounded₁ (.prim [] (lands_print grounded₁ v) (Leaves.print _))
      fun _ _ _ _ _ => .ret normal
  | var name initializer =>
    refine .bind grounded (.evaluate? grounded initializer) ?_
    intro v m₁ grounded₁ _ placed
    exact .bind grounded₁ (.prim [name.text] (lands_define grounded₁ name.text placed)
      (Leaves.define (List.mem_singleton_self _) _)) fun _ _ _ _ _ => .ret normal
  | block body =>
    have leaves : Leaves (Grows []) innerScope := fun m => Grows.pushScope [] m (some m.current)
    refine .bind grounded (.prim [] (lands_innerScope grounded) leaves) ?_
    intro scope m₁ grounded₁ _ within
    have rows : Visited inputs (.statements body) := visited.child fun _ _ => ⟨_, _, .block⟩
    exact .inside (t := .executeAll body) grounded₁ within (by rintro _ ⟨⟩; exact rows)
      fun _ => id
  | branch condition yes no =>
    refine .bind grounded (.evaluate grounded condition) ?_
    intro v m₁ grounded₁ _ _
    split
    · exact .code (t := .execute yes) grounded₁ rfl
        (visited.child fun _ _ => ⟨_, _, .branchYes⟩) fun _ => id
    · cases no with
      | none => exact .ret normal
      | some no =>
        exact .code (t := .execute no) grounded₁ rfl
          (visited.child fun _ _ => ⟨_, _, .branchNo⟩) fun _ => id
  | loop condition body increment =>
    exact .code (t := .executeLoop condition body increment) grounded rfl visited fun _ => id
  | function d =>
    have code : Visited inputs (.function d) := visited.child fun _ _ => ⟨_, _, .functionStmt⟩
    refine .bind grounded (.prim [] (lands_newFunction grounded code) (Leaves.newFunction _)) ?_
    intro f m₁ grounded₁ _ placed
    exact .bind grounded₁ (.prim [d.name.text] (lands_define grounded₁ d.name.text placed)
      (Leaves.define (List.mem_singleton_self _) _)) fun _ _ _ _ _ => .ret normal
  | «return» line value =>
    refine .bind grounded (.evaluate? grounded value) ?_
    intro v m₁ _ _ placed
    refine .ret ?_
    rintro closure ⟨_, ⟨⟩, has⟩
    exact placed closure has
  | «break» line => exact .ret (passes_of_not_returned nofun)
  | «continue» line => exact .ret (passes_of_not_returned nofun)
  | classDecl name superclass methods =>
    -- behind the class, all that is left is to end normally
    have ends {p : Plan Unit} {m : State} (grounded : Grounded inputs m)
        (h : Stays inputs p m fun _ _ => True) :
        Stays inputs (p >>= fun _ => pure Completion.normal) m
          fun c m' => Passes inputs c m' :=
      .bind grounded h fun _ _ _ _ _ => .ret normal
    cases superclass with
    | none =>
      have code := visited_method (visited.child fun _ _ => ⟨_, _, .classMethods⟩)
      exact ends grounded (stays_planOfClass grounded name nofun code)
    | some superclass =>
      have code := visited_method (visited.child fun _ _ => ⟨_, _, .subclassMethods⟩)
      refine .bind grounded (.evaluate grounded _) ?_
      intro v m₁ grounded₁ _ placed
      refine .bind grounded₁ (.prim [] (lands_asSuperclass grounded₁ superclass.name.line placed)
        (Leaves.asSuperclass _ _)) ?_
      intro c m₂ grounded₂ _ inherited
      refine ends grounded₂ (stays_planOfClass grounded₂ name ?_ code)
      rintro _ ⟨⟩
      exact inherited

/-- So do statements in a row, each of which is visited behind the ones before it. -/
theorem stays_planOfRow {ss : List Stmt} (visited : Visited inputs (.statements ss)) :
    Stays inputs (Task.executeAll ss).plan m fun c m' => Passes inputs c m' := by
  cases ss with
  | nil => exact .ret (passes_of_not_returned nofun)
  | cons s rest =>
    refine .bind grounded (.code (t := .execute s) grounded rfl
      (visited.child fun _ _ => ⟨_, _, .statementsHead⟩) fun _ => id) ?_
    intro c m₁ grounded₁ _ passes
    cases c with
    | normal =>
      exact .code (t := .executeAll rest) grounded₁ rfl
        (visited.child fun _ _ => ⟨_, _, .statementsTail⟩) fun _ => id
    | _ => exact .ret passes

/-- A loop stays on the ground, round after round. -/
theorem stays_planOfLoop {condition : Expr} {body : Stmt} {increment : Option Expr}
    (visited : Visited inputs (.statement (.loop condition body increment))) :
    Stays inputs (Task.executeLoop condition body increment).plan m
      fun c m' => Passes inputs c m' := by
  refine .bind grounded (.evaluate grounded condition) ?_
  intro v m₁ grounded₁ _ _
  split
  · refine .bind grounded₁ (.code (t := .execute body) grounded₁ rfl
      (visited.child fun _ _ => ⟨_, _, .loopBody⟩) fun _ => id) ?_
    intro c m₂ grounded₂ _ passes
    have again : Stays inputs (Plan.sub (.evaluate? increment) >>= fun _ =>
        Plan.sub (.executeLoop condition body increment)) m₂
          fun c m' => Passes inputs c m' := by
      refine .bind grounded₂ (.evaluate? grounded₂ increment) ?_
      intro _ m₃ grounded₃ _ _
      exact .code (t := .executeLoop condition body increment) grounded₃ rfl visited fun _ => id
    cases c with
    | normal => exact again
    | continued => exact again
    | broke => exact .ret (passes_of_not_returned nofun)
    | returned v => exact .ret passes
  · exact .ret (passes_of_not_returned nofun)

/-- The body of a function runs in a new scope, inside the function's own one. -/
theorem stays_planOfInvoke {closure : Closure} {vs : List Value}
    (placed : Placed inputs m closure) (values : ∀ v ∈ vs, PlacedValue inputs m v) :
    Stays inputs (Task.invoke closure vs).plan m fun v m' => PlacedValue inputs m' v := by
  have leaves : Leaves (Grows []) (callScope closure vs) := by
    intro m
    obtain ⟨m', made, grows⟩ := makesScope_callScope closure vs m
    rw [made]
    exact grows
  refine .bind grounded (.prim [] (lands_callScope grounded placed values) leaves) ?_
  intro scope m₁ grounded₁ _ within
  -- the body run is that of the declaration, which was visited
  have rows : Visited inputs (.statements closure.declaration.body) := by
    obtain ⟨⟨name, parameters, body⟩, scope, isInitializer⟩ := closure
    exact placed.code.child fun _ _ => ⟨_, _, .functionBody⟩
  refine .bind grounded₁ (.inside (t := .executeAll closure.declaration.body) grounded₁ within
    (by rintro _ ⟨⟩; exact rows) fun _ => id) ?_
  intro c m₂ grounded₂ _ passes
  refine .prim [] (lands_callResult grounded₂ closure ?_) (Leaves.callResult _ _)
  rintro v rfl closure has
  exact passes closure ⟨v, rfl, has⟩

end Plans

/-! ## Runs -/

/-- Every run that begins on a grounded machine stays with grounded machines. -/
theorem followed_grounding (inputs : List Input) : (grounding inputs).Followed := by
  intro t m grounded carried
  have code {node : Node} (runs : t.code? = some node) : Visited inputs node :=
    carried.code node runs
  -- one lemma for each kind of task
  cases t with
  | evaluate e => exact stays_planOfExpr grounded e
  | evaluateAll es => exact stays_planOfArguments grounded es
  | call f vs line =>
    exact stays_planOfCall grounded line (fun c has => carried.held c (.inl has))
      fun v inside c has => carried.held c (.inr ⟨v, inside, has⟩)
  | invoke closure vs =>
    exact stays_planOfInvoke grounded (carried.held closure (.inl rfl))
      fun v inside c has => carried.held c (.inr ⟨v, inside, has⟩)
  | execute s => exact stays_planOfStmt grounded (code rfl)
  | evaluate? e =>
    cases e with
    | none => exact IsData.placed trivial
    | some e => exact Stays.evaluate grounded e
  | executeAll ss => exact stays_planOfRow grounded (code rfl)
  | executeLoop condition body increment => exact stays_planOfLoop grounded (code rfl)

end ClassScript.Machine
