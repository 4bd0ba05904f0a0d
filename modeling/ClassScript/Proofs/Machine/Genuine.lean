import ClassScript.Proofs.Machine.Ancestry
import ClassScript.Proofs.Machine.Values

/-!
# Objects that are there

Whatever object a run comes across, held by the machine, handed to a task or given by one, it
has its place among the objects of the machine, and its class was made; and so was every class
(`History.Genuine`). One plan at a time: objects and classes come from the two steps that make
them, and all other steps pass on what there was.
-/

namespace ClassScript.Machine

open Syntax Parsing Object Binding

/-! ## What tasks are handed, and what they give -/

/-- The values that the task is handed are of the kind. -/
def Task.Handed (kind : Value → Prop) : Task → Prop
  | .call f vs _ => kind f ∧ ∀ v ∈ vs, kind v
  | .invoke _ vs => ∀ v ∈ vs, kind v
  | _ => True

/-- The values that the task gives are of the kind. -/
def Task.HandsBack (kind : Value → Prop) : (t : Task) → t.Result → Prop
  | .evaluate _, v | .call .., v | .invoke .., v | .evaluate? _, v => kind v
  | .evaluateAll _, vs => ∀ v ∈ vs, kind v
  | .execute _, c | .executeAll _, c | .executeLoop .., c => ∀ v, c = .returned v → kind v

section Definitions

variable (H : History) (m : State)

/-- An object has its place on the machine, and its class was made. A class was made. -/
def History.Genuine : Value → Prop
  | .object o => o.id < m.objects.size ∧ H.Made o.cls
  | .cls c => H.Made c
  | _ => True

/-- There are no less objects than there were. -/
def NoLess (m m' : State) : Prop := m.objects.size ≤ m'.objects.size

/-- What holds along the runs of a history, of the objects and classes in them. -/
def existence : Course where
  inv m := Filled (H.Genuine m) m
  rel := NoLess
  refl m := Nat.le_refl m.objects.size
  trans := Nat.le_trans
  begins t m := t.Handed (H.Genuine m)
  ends t a m := t.HandsBack (H.Genuine m) a

/-- A plan deals with genuine values, up to what is to hold where it ends. The tasks that it
calls run with the given fuel. -/
abbrev Deals (n : Nat) {α : Type} (p : Plan α) (done : α → State → Prop) : Prop :=
  p.Heeds (existence H) (Task.tasksAt n) done m

end Definitions

variable {H : History} {m m' : State} {n : Nat} {α β : Type} {done : α → State → Prop}

theorem lenient_genuine (H : History) (m : State) : Lenient (H.Genuine m) where
  data v data := by cases v <;> trivial
  function _ _ := trivial

/-- A value that is genuine stays so. -/
theorem History.Genuine.mono {v : Value} (genuine : H.Genuine m v) (noLess : NoLess m m') :
    H.Genuine m' v := by
  cases v with
  | object o => exact ⟨Nat.lt_of_lt_of_le genuine.1 noLess, genuine.2⟩
  | _ => exact genuine

theorem SameObjects.noLess {x : Run α} (same : Leaves SameObjects x) : Leaves NoLess x :=
  fun m => Nat.le_of_eq (congrArg Array.size (same m)).symm

/-! ## Rules -/

/-- What is known behind a part of a plan: what it gave, and where. -/
structure Reached (H : History) (m : State) (gave : Prop) (m' : State) : Prop where
  gave : gave
  filled : Filled (H.Genuine m') m'
  noLess : NoLess m m'

namespace Deals

theorem ret {a : α} (holds : done a m) : Deals H m n (.ret a) done := holds

/-- Plans deal one after the other. -/
theorem bind {p : Plan β} {f : β → Plan α} {middle : β → State → Prop}
    (first : Deals H m n p middle) (rest : ∀ b m', middle b m' → Deals H m' n (f b) done) :
    Deals H m n (p >>= f) done :=
  Plan.heeds_bind.mpr (first.imp rest)

theorem prim {x : Run α} {good : α → Prop} (noLess : Leaves NoLess x)
    (handles : Handles (H.Genuine m) m x good) :
    Deals H m n (.prim x) fun a m' => Reached H m (x m = .ok a m') m' ∧ good a := by
  refine Plan.Heeds.prim ?_ ?_
  · intro a m' ran
    rw [Handles, ran] at handles
    have more : NoLess m m' := noLess.ok ran
    have filled := handles.1.mono fun v genuine => genuine.mono more
    exact ⟨filled, more, ⟨ran, filled, more⟩, handles.2⟩
  · intro e m' ran
    rw [Handles, ran] at handles
    have more : NoLess m m' := noLess.error ran
    exact ⟨handles.mono fun v genuine => genuine.mono more, more⟩

/-- A step that gives a value. -/
theorem value {x : Run Value} (same : Leaves SameObjects x)
    (handles : Handles (H.Genuine m) m x (H.Genuine m)) :
    Deals H m n (.prim x) fun v m' => H.Genuine m' v :=
  (prim (SameObjects.noLess same) handles).imp fun _ _ h => h.2.mono h.1.noLess

/-- A step that gives nothing. -/
theorem step {x : Run α} {good : α → Prop} (same : Leaves SameObjects x)
    (handles : Handles (H.Genuine m) m x good) :
    Deals H m n (.prim x) fun a m' => Reached H m (x m = .ok a m') m' ∧ good a :=
  prim (SameObjects.noLess same) handles

theorem sub {t : Task} (filled : Filled (H.Genuine m) m) (handed : t.Handed (H.Genuine m)) :
    Deals H m n (.sub t) fun a m' =>
      Reached H m (t.run n m = .ok a m') m' ∧ t.HandsBack (H.Genuine m') a := by
  simp only [Deals, Plan.sub, Plan.heeds_call, Plan.heeds_ret, id]
  refine ⟨⟨filled, Nat.le_refl _, handed⟩, ?_⟩
  cases ran : Task.tasksAt n t m with
  | ok a m' =>
    intro filled' noLess returns
    exact ⟨filled', Nat.le_refl _, ⟨ran, filled', noLess⟩, returns⟩
  | error e m' =>
    intro filled' noLess
    exact ⟨filled', Nat.le_refl _⟩

theorem inside {t : Task} {scope : ScopeId} (filled : Filled (H.Genuine m) m)
    (handed : t.Handed (H.Genuine m)) :
    Deals H m n (.inside scope t) fun a m' =>
      Reached H m True m' ∧ t.HandsBack (H.Genuine m') a := by
  have move {m : State} (filled : Filled (H.Genuine m) m) (scope : ScopeId) :
      Filled (H.Genuine m) { m with current := scope } := filled.congr rfl rfl rfl
  simp only [Deals, Plan.inside, Plan.heeds_call, Plan.heeds_ret]
  refine ⟨⟨move filled scope, Nat.le_refl _, handed⟩, ?_⟩
  cases ran : Task.tasksAt n t { m with current := scope } with
  | ok a m' =>
    intro filled' noLess returns
    exact ⟨move filled' _, Nat.le_refl _, ⟨trivial, move filled' _, noLess⟩, returns⟩
  | error e m' =>
    intro filled' noLess
    exact ⟨move filled' _, Nat.le_refl _⟩

end Deals

/-! ## Plans -/

section Plans

variable (filled : Filled (H.Genuine m) m)
include filled

/-- What an expression is evaluated to is genuine where it is evaluated in the run at hand. -/
theorem deals_evaluate (e : Expr) :
    Deals H m n (.sub (.evaluate e)) fun v m' =>
      Reached H m (evaluate n e m = .ok v m') m' ∧ H.Genuine m' v :=
  .sub (t := .evaluate e) filled trivial

theorem deals_stop (fault : Fault) {good : α → State → Prop} :
    Deals H m n (.prim (stop fault : Run α)) good := by
  have stops : Handles (H.Genuine m) m (stop fault : Run α) fun _ => False :=
    handles_stop filled fault
  refine (Deals.step SameObjects.stop stops).imp ?_
  intro _ _ never
  exact never.2.elim

/-- The value of an expression is genuine, and so are all that it hands to the tasks that it
calls. -/
theorem deals_planOfExpr (e : Expr) :
    Deals H m n (Task.planOfExpr e) fun v m' => H.Genuine m' v := by
  have lenient := lenient_genuine H
  cases e with
  | literal value => exact .ret ((lenient m).data _ (isData_ofLiteral value))
  | group inner => exact (deals_evaluate filled inner).imp fun _ _ h => h.2
  | unary op line operand =>
    refine .bind (deals_evaluate filled operand) ?_
    rintro a m₁ ⟨first, _⟩
    -- the result of an operator is data, which no object or class stands behind
    exact .value SameObjects.liftExcept
      (handles_givesData (lenient m₁) first.filled (givesData_applyUnary op line a))
  | binary op line left right =>
    refine .bind (deals_evaluate filled left) ?_
    rintro a m₁ ⟨first, _⟩
    refine .bind (deals_evaluate first.filled right) ?_
    rintro b m₂ ⟨second, _⟩
    exact .value SameObjects.liftExcept
      (handles_givesData (lenient m₂) second.filled (givesData_applyBinary op line a b))
  | logical op left right =>
    refine .bind (deals_evaluate filled left) ?_
    rintro a m₁ ⟨first, good⟩
    split
    · exact .ret good
    · exact (deals_evaluate first.filled right).imp fun _ _ h => h.2
  | «variable» o => exact .value SameObjects.readVariable (handles_readVariable filled o.id o.name)
  | assign target value =>
    refine .bind (deals_evaluate filled value) ?_
    rintro v m₁ ⟨first, good⟩
    refine .bind (.step SameObjects.writeVariable
      (handles_writeVariable first.filled target good)) ?_
    rintro _ m₂ ⟨second, _⟩
    exact .ret (good.mono second.noLess)
  | call callee line arguments =>
    refine .bind (deals_evaluate filled callee) ?_
    rintro f m₁ ⟨first, good⟩
    refine .bind (.sub (t := .evaluateAll arguments) first.filled trivial) ?_
    rintro vs m₂ ⟨second, values⟩
    refine .bind (.step SameObjects.checkCall (handles_checkCall second.filled f vs line)) ?_
    rintro _ m₃ ⟨third, _⟩
    -- callee and arguments were genuine when they were evaluated and still are when the call
    -- begins
    have callee : H.Genuine m₃ f := good.mono (Nat.le_trans second.noLess third.noLess)
    have arguments : ∀ v ∈ vs, H.Genuine m₃ v := fun v inside =>
      (values v inside).mono third.noLess
    exact (Deals.sub (t := .call f vs line) third.filled ⟨callee, arguments⟩).imp
      fun _ _ h => h.2
  | get object name =>
    refine .bind (deals_evaluate filled object) ?_
    rintro v m₁ ⟨first, good⟩
    exact .value SameObjects.readProperty (handles_readProperty (lenient m₁) first.filled name good)
  | set object name value =>
    refine .bind (deals_evaluate filled object) ?_
    rintro o m₁ ⟨first, _⟩
    cases o with
    | object o =>
      refine .bind (deals_evaluate first.filled value) ?_
      rintro v m₂ ⟨second, good⟩
      -- a write replaces a field and removes no object
      have noLess : Leaves NoLess (writeField o name.text v) := fun m => by
        simp [NoLess, writeField, left, State.setField]
      refine .bind (.prim noLess (handles_writeField second.filled o name.text good)) ?_
      rintro _ m₃ ⟨third, _⟩
      exact .ret (good.mono third.noLess)
    | _ => exact deals_stop first.filled _
  | this id line => exact .value SameObjects.readVariable (handles_readVariable filled id _)
  | super id line method =>
    exact .value SameObjects.readSuper (handles_readSuper (lenient m) filled id method)

/-- A call of a genuine value gives a genuine one: that of its class, or what its body returns.
-/
theorem deals_planOfCall {f : Value} {vs : List Value} (line : Nat) (callee : H.Genuine m f)
    (values : ∀ v ∈ vs, H.Genuine m v) :
    Deals H m n (Task.planOfCall f vs line) fun v m' => H.Genuine m' v := by
  have lenient := lenient_genuine H
  cases f with
  | host f => exact .value SameObjects.callHost (handles_callHost (lenient m) filled f vs line)
  | function id closure =>
    exact (Deals.sub (t := .invoke closure vs) filled values).imp fun _ _ h => h.2
  | cls c =>
    have one : Leaves NoLess (newObject c) := fun m => by
      simp [NoLess, newObject, left, State.newObject]
    refine .bind (.prim one (handles_newObject filled c)) ?_
    rintro o m₁ ⟨first, rfl⟩
    -- the new object has the place behind all that there were
    have there : H.Genuine m₁ (.object (m.newObject c).1) := by
      have gave := first.gave
      cases gave
      exact ⟨by simp [State.newObject], callee⟩
    cases c.method? initializerName with
    | none => exact .ret there
    | some initializer =>
      refine .bind (.step SameObjects.bindMethod
        (handles_bindMethod first.filled initializer there)) ?_
      rintro bound m₂ ⟨second, _⟩
      have arguments : ∀ v ∈ vs, H.Genuine m₂ v := fun v inside =>
        (values v inside).mono (Nat.le_trans first.noLess second.noLess)
      refine .bind (.sub (t := .invoke bound vs) second.filled arguments) ?_
      rintro _ m₃ ⟨third, _⟩
      exact .ret (there.mono (Nat.le_trans second.noLess third.noLess))
  | _ => exact deals_stop filled _

theorem deals_planOfInvoke (closure : Closure) {vs : List Value}
    (values : ∀ v ∈ vs, H.Genuine m v) :
    Deals H m n (Task.invoke closure vs).plan fun v m' => H.Genuine m' v := by
  refine .bind (.step SameObjects.callScope (handles_callScope filled closure values)) ?_
  rintro scope m₁ ⟨first, _⟩
  refine .bind (.inside first.filled trivial) ?_
  rintro completion m₂ ⟨second, passes⟩
  exact .value SameObjects.callResult
    (handles_callResult (lenient_genuine H m₂) second.filled closure passes)

/-- Making a class. -/
theorem deals_planOfClass {name : Name} {superclass : Option ObjectClass}
    {ds : List FunctionDecl} (above : ∀ c ∈ superclass, H.Made c)
    (made : H.Made (classOf m name superclass ds)) :
    Deals H m n (Task.planOfClass name superclass ds) fun _ _ => True := by
  have nothing : H.Genuine m .nil := trivial
  refine .bind (.step SameObjects.define (handles_define filled name.text nothing)) ?_
  rintro _ m₁ ⟨first, _⟩
  refine .bind (.step SameObjects.classScope (handles_classScope first.filled above)) ?_
  rintro scope m₂ ⟨second, _⟩
  refine .bind (.step SameObjects.newClass (handles_newClass second.filled ..)) ?_
  rintro cls m₃ ⟨third, _⟩
  -- the class made is the one described: the scopes it is told by were counted at the start
  have same : cls = classOf m name superclass ds := by
    obtain ⟨opened, ran, -, -, next⟩ := classScope_eq superclass m₁
    have gave := ran.symm.trans second.gave
    cases gave
    have gave := third.gave
    cases gave
    have gave := first.gave
    cases gave
    simp only [classOf, next, State.define, Scopes.size_define]
  subst same
  have genuine : H.Genuine m₃ (.cls (classOf m name superclass ds)) := made
  exact (Deals.step SameObjects.assign (handles_assign third.filled name genuine)).imp
    fun _ _ _ => trivial

omit filled in
/-- What does not return a value hands none back. -/
theorem nothing_returned {kind : Value → Prop} {c : Completion} (other : ∀ v, c ≠ .returned v) :
    ∀ v, c = .returned v → kind v :=
  fun v same => absurd same (other v)

theorem deals_evaluate? (e : Option Expr) :
    Deals H m n (.sub (.evaluate? e)) fun v m' =>
      Reached H m (evaluate? n e m = .ok v m') m' ∧ H.Genuine m' v :=
  .sub (t := .evaluate? e) filled trivial

/-- Statements in the current scope. -/
theorem deals_execute (s : Stmt) :
    Deals H m n (.sub (.execute s)) fun c m' =>
      Reached H m (execute n s m = .ok c m') m' ∧ ∀ v, c = .returned v → H.Genuine m' v :=
  .sub (t := .execute s) filled trivial

/-- A statement returns genuine values only. -/
theorem deals_planOfStmt (here : H.Inside) {s : Stmt} (ran : H.runs (n + 1) (.execute s) m) :
    Deals H m n (Task.planOfStmt s) fun c m' => ∀ v, c = .returned v → H.Genuine m' v := by
  have lenient := lenient_genuine H
  -- a statement that ends normally hands back nothing
  have normal {m : State} : ∀ v, Completion.normal = .returned v → H.Genuine m v :=
    nothing_returned nofun
  cases s with
  | expression e => exact .bind (deals_evaluate filled e) fun _ _ _ => .ret normal
  | print e =>
    refine .bind (deals_evaluate filled e) ?_
    rintro v m₁ ⟨first, _⟩
    exact .bind (.step SameObjects.print (handles_print first.filled v)) fun _ _ _ => .ret normal
  | var name initializer =>
    refine .bind (deals_evaluate? filled initializer) ?_
    rintro v m₁ ⟨first, good⟩
    exact .bind (.step SameObjects.define (handles_define first.filled name.text good))
      fun _ _ _ => .ret normal
  | block body =>
    refine .bind (.step SameObjects.innerScope (handles_innerScope filled)) ?_
    rintro scope m₁ ⟨first, _⟩
    exact (Deals.inside (t := .executeAll body) first.filled trivial).imp fun _ _ h => h.2
  | branch condition yes no =>
    refine .bind (deals_evaluate filled condition) ?_
    rintro v m₁ ⟨first, _⟩
    split
    · exact (deals_execute first.filled yes).imp fun _ _ h => h.2
    · cases no with
      | none => exact .ret normal
      | some no => exact (deals_execute first.filled no).imp fun _ _ h => h.2
  | loop condition body increment =>
    exact (Deals.sub (t := .executeLoop condition body increment) filled trivial).imp
      fun _ _ h => h.2
  | function d =>
    refine .bind (.step SameObjects.newFunction (handles_newFunction (lenient m) filled d)) ?_
    rintro f m₁ ⟨first, good⟩
    exact .bind (.step SameObjects.define
      (handles_define first.filled d.name.text (good.mono first.noLess))) fun _ _ _ => .ret normal
  | «return» line value =>
    refine .bind (deals_evaluate? filled value) ?_
    rintro v m₁ ⟨first, good⟩
    refine .ret ?_
    rintro _ ⟨⟩
    exact good
  | «break» line => exact .ret (nothing_returned nofun)
  | «continue» line => exact .ret (nothing_returned nofun)
  | classDecl name superclass ds =>
    have inside := here _ _ _ ran
    cases superclass with
    | none =>
      -- the run of the statement itself is the evidence that the class was made
      have made : H.Made (classOf m name none ds) := .of (.of_plain inside ran) nofun
      exact .bind (deals_planOfClass filled nofun made) fun _ _ _ => .ret normal
    | some occurrence =>
      refine .bind (deals_evaluate filled (.variable occurrence)) ?_
      rintro v m₁ ⟨first, good⟩
      refine .bind (.step SameObjects.asSuperclass
        (handles_asSuperclass first.filled v occurrence.name.line)) ?_
      rintro c m₂ ⟨second, rfl⟩
      -- asking whether the value is a class changes nothing
      obtain rfl : m₁ = m₂ := by
        have gave := second.gave
        cases gave
        rfl
      have grows := grows_of_ok (t := .evaluate _) first.gave
      have there : m₁.current < m₁.scopes.size := by
        rw [grows.current]
        exact Nat.lt_of_lt_of_le inside grows.scopes.size
      have above : ∀ c' ∈ some c, H.Made c' := by
        rintro _ ⟨⟩
        exact good
      have made : H.Made (classOf m₁ name (some c) ds) :=
        .of (.of_derived there ran first.gave) above
      exact .bind (deals_planOfClass first.filled above made) fun _ _ _ => .ret normal

/-- A loop returns what its body returns. -/
theorem deals_planOfLoop (condition : Expr) (body : Stmt) (increment : Option Expr) :
    Deals H m n (Task.executeLoop condition body increment).plan fun c m' =>
      ∀ v, c = .returned v → H.Genuine m' v := by
  refine .bind (deals_evaluate filled condition) ?_
  rintro v m₁ ⟨first, _⟩
  split
  · refine .bind (deals_execute first.filled body) ?_
    rintro completion m₂ ⟨second, passes⟩
    have again : Deals H m₂ n (Plan.sub (.evaluate? increment) >>= fun _ =>
        Plan.sub (.executeLoop condition body increment)) fun c m' =>
          ∀ v, c = .returned v → H.Genuine m' v := by
      refine .bind (deals_evaluate? second.filled increment) ?_
      rintro _ m₃ ⟨third, _⟩
      exact (Deals.sub (t := .executeLoop condition body increment) third.filled trivial).imp
        fun _ _ h => h.2
    cases completion with
    | normal => exact again
    | continued => exact again
    | broke => exact .ret (nothing_returned nofun)
    | returned v => exact .ret passes
  · exact .ret (nothing_returned nofun)

end Plans

/-! ## Runs -/

/-- Every run of a history deals with genuine values. -/
theorem heeded_existence (here : H.Inside) : (existence H).Heeded H.runs := by
  intro n t m ran filled handed
  cases t with
  | evaluate e => exact deals_planOfExpr filled e
  | evaluateAll es =>
    cases es with
    | nil => exact Deals.ret (by simp [existence, Task.HandsBack])
    | cons e rest =>
      refine Deals.bind (deals_evaluate filled e) ?_
      rintro v m₁ ⟨first, good⟩
      refine .bind (.sub (t := .evaluateAll rest) first.filled trivial) ?_
      rintro vs m₂ ⟨second, values⟩
      -- the first value is kept while the rest of the arguments is evaluated
      refine .ret (List.forall_mem_cons.mpr ⟨good.mono second.noLess, values⟩)
  | call f vs line => exact deals_planOfCall filled line handed.1 handed.2
  | invoke closure vs => exact deals_planOfInvoke filled closure handed
  | execute s => exact deals_planOfStmt filled here ran
  | evaluate? e =>
    cases e with
    | none => exact Deals.ret trivial
    | some e => exact (deals_evaluate filled e).imp fun _ _ h => h.2
  | executeAll ss =>
    cases ss with
    | nil => exact Deals.ret (nothing_returned nofun)
    | cons s rest =>
      refine Deals.bind (deals_execute filled s) ?_
      rintro completion m₁ ⟨first, passes⟩
      cases completion with
      | normal =>
        exact (Deals.sub (t := .executeAll rest) first.filled trivial).imp fun _ _ h => h.2
      | _ => exact .ret passes
  | executeLoop condition body increment => exact deals_planOfLoop filled condition body increment

end ClassScript.Machine
