import ClassScript.Proofs.Machine.Traced

/-!
# Where tasks stand

Every piece of a program that a run evaluates or executes stands somewhere, told by what
happened before, and every value that it gives is traced (`heeded_chronicle`). One plan at a
time: a part stands where the whole does, behind a block or a call it stands in the new
scope, and functions and methods keep where they were declared until they are called.
-/

namespace ClassScript.Machine

open Syntax Parsing Object Binding

section Definitions

variable (H : History) (m : State)

/-- The piece stands in the current scope, as code. -/
def History.At (node : Node) : Prop :=
  ∃ v receiver, v.node = node ∧ H.Stands v m.current (.code receiver)

def History.AtExpr (e : Expr) : Prop :=
  ∃ v receiver, evaluates? v.node = some e ∧ H.Stands v m.current (.code receiver)

/-- What the task runs stands in the current scope, and what it is handed is traced. -/
def Task.Begins : Task → Prop
  | .evaluate e => H.AtExpr m e
  | .evaluateAll es => H.At m (.expressions es)
  | .call f vs _ => H.Traced f ∧ ∀ v ∈ vs, H.Traced v
  | .invoke c vs => H.OfFunction c ∧ ∀ v ∈ vs, H.Traced v
  | .execute s => H.At m (.statement s)
  | .evaluate? e => ∀ e' ∈ e, H.AtExpr m e'
  | .executeAll ss => H.At m (.statements ss)
  | .executeLoop condition body increment =>
    H.At m (.statement (.loop condition body increment))

/-- What the statement hands on is traced. -/
def History.Passes (c : Completion) : Prop := ∀ v, c = .returned v → H.Traced v

/-- What the task gives is traced. -/
def Task.TracedResult : (t : Task) → t.Result → Prop
  | .evaluate _, v | .call .., v | .invoke .., v | .evaluate? _, v => H.Traced v
  | .evaluateAll _, vs => ∀ v ∈ vs, H.Traced v
  | .execute _, c | .executeAll _, c | .executeLoop .., c => H.Passes c

/-- What holds along the runs of a history. -/
def chronicle : Course where
  inv := H.Stored
  rel := Fixes
  refl := Fixes.refl
  trans := Fixes.trans
  begins t m := t.Begins H m
  ends t a _ := t.TracedResult H a

/-- A plan keeps to the chronicle, up to what is to hold where it ends. The tasks that it
calls run with the given fuel. -/
abbrev Recounts (n : Nat) {α : Type} (p : Plan α) (done : α → State → Prop) : Prop :=
  p.Heeds (chronicle H) (Task.tasksAt n) done m

end Definitions

variable {H : History} {m : State} {n : Nat} {α β : Type} {done : α → State → Prop}

/-! ## Rules -/

/-- What is known behind a part of a plan: where it led, which is the same scope, and what
it gave. -/
structure Behind (H : History) (m : State) (gave : Prop) (good : Prop) (m' : State) : Prop where
  gave : gave
  stored : H.Stored m'
  current : m'.current = m.current
  good : good

namespace Recounts

theorem ret {a : α} (holds : done a m) : Recounts H m n (.ret a) done := holds

/-- Recounts one after the other are a recount of the whole. -/
theorem bind {p : Plan β} {f : β → Plan α} {middle : β → State → Prop}
    (first : Recounts H m n p middle)
    (rest : ∀ b m', middle b m' → Recounts H m' n (f b) done) :
    Recounts H m n (p >>= f) done :=
  Plan.heeds_bind.mpr (first.imp rest)

theorem prim {x : Run α} {good : α → Prop} (tells : Tells H m x good) :
    Recounts H m n (.prim x) fun a m' => Behind H m (x m = .ok a m') (good a) m' := by
  refine Plan.Heeds.prim ?_ ?_
  · intro a m' ran
    obtain ⟨goes, holds⟩ := tells.ok a m' ran
    exact ⟨goes.stored, goes.fixes, ran, goes.stored, goes.current, holds⟩
  · intro e m' ran
    have goes := tells.error e m' ran
    exact ⟨goes.stored, goes.fixes⟩

theorem sub {t : Task} (stored : H.Stored m) (begins : t.Begins H m) :
    Recounts H m n (.sub t) fun a m' => Behind H m (t.run n m = .ok a m') (t.TracedResult H a) m' :=
  (Plan.Heeds.sub (C := chronicle H) stored begins).imp
    fun _ _ h => ⟨h.1, h.2.1, (grows_of_ok h.1).current, h.2.2⟩

theorem inside {t : Task} {scope : ScopeId} (stored : H.Stored m)
    (begins : t.Begins H { m with current := scope }) :
    Recounts H m n (.inside scope t) fun a m' => Behind H m True (t.TracedResult H a) m' := by
  have move {m : State} (stored : H.Stored m) (scope : ScopeId) :
      H.Stored { m with current := scope } := ⟨stored.bound, stored.field, stored.hosts⟩
  simp only [Recounts, Plan.inside, Plan.heeds_call, Plan.heeds_ret]
  refine ⟨⟨move stored scope, .of_scopes_eq rfl, begins⟩, ?_⟩
  cases Task.tasksAt n t { m with current := scope } with
  | ok a m' =>
    intro stored' _ good
    exact ⟨move stored' _, .of_scopes_eq rfl, trivial, move stored' _, rfl, good⟩
  | error e m' =>
    intro stored' _
    exact ⟨move stored' _, .of_scopes_eq rfl⟩

/-- What is left to do does not count for what was given. -/
theorem weaken {p : Plan α} {good : α → Prop} {gave : α → State → Prop}
    (h : Recounts H m n p fun a m' => Behind H m (gave a m') (good a) m') :
    Recounts H m n p fun a _ => good a :=
  h.imp fun _ _ behind => behind.good

end Recounts

/-! ## Expressions -/

section Parts

variable {v : Visit} {scope : ScopeId} {receiver : Option Receiver}
  (stands : H.Stands v scope (.code receiver))
include stands

/-- A part stands where the whole does. -/
theorem History.Stands.at {c : Visit} (child : Child v c)
    (level : c.walk.scopes.length = v.walk.scopes.length) (here : m.current = scope) :
    H.At m c.node := by
  subst here
  exact ⟨c, receiver, rfl, stands.part child level⟩

theorem History.Stands.atExpr {e : Expr} {c : Context} {w : Walk}
    (child : Child v ⟨.expression e, c, w⟩) (level : w.scopes.length = v.walk.scopes.length)
    (here : m.current = scope) : H.AtExpr m e := by
  subst here
  exact ⟨_, receiver, rfl, stands.part child level⟩

end Parts

/-- All code is plain. -/
def History.Plain (H : History) : Prop := ∀ v, Seen H.inputs v → v.node.Plain

section Plans

variable (plain : H.Plain) (stored : H.Stored m) {receiver : Option Receiver}
include plain stored

/-- An expression that stands somewhere has parts that stand there, and gives a traced value. -/
theorem recounts_planOfExpr {e : Expr} {c : Context} {w : Walk}
    (ran : H.runs (n + 1) (.evaluate e) m)
    (stands : H.Stands ⟨.expression e, c, w⟩ m.current (.code receiver)) :
    Recounts H m n (Task.planOfExpr e) fun v _ => H.Traced v := by
  have code := plain _ stands.seen
  cases e with
  | literal value => exact .ret (isData_ofLiteral value).traced
  | group inner =>
    exact (Recounts.sub (t := .evaluate inner) stored (stands.atExpr .group rfl rfl)).weaken
  | unary op line operand =>
    refine .bind (.sub stored (stands.atExpr .unary rfl rfl)) ?_
    intro a m₁ first
    exact (Recounts.prim (tells_givesData first.stored (givesData_applyUnary op line a))).weaken
  | binary op line left right =>
    refine .bind (.sub stored (stands.atExpr .binaryLeft rfl rfl)) ?_
    intro a m₁ first
    -- the right operand is reached by a later walk, with the same scopes
    refine .bind (.sub first.stored (stands.atExpr .binaryRight (by simp) first.current)) ?_
    intro b m₂ second
    exact (Recounts.prim (tells_givesData second.stored (givesData_applyBinary op line a b))).weaken
  | logical op left right =>
    refine .bind (.sub stored (stands.atExpr .logicalLeft rfl rfl)) ?_
    intro a m₁ first
    split
    · exact .ret first.good
    · exact (Recounts.sub (t := .evaluate right) first.stored
        (stands.atExpr .logicalRight (by simp) first.current)).weaken
  | «variable» o => exact (Recounts.prim (tells_readVariable stored o.id o.name)).weaken
  | assign target value =>
    refine .bind (.sub stored (stands.atExpr .assign rfl rfl)) ?_
    intro v m₁ first
    refine .bind (.prim (tells_writeVariable first.stored code.1 first.good)) ?_
    intro _ m₂ _
    exact .ret first.good
  | call callee line arguments =>
    refine .bind (.sub stored (stands.atExpr .callee rfl rfl)) ?_
    intro f m₁ first
    refine .bind (.sub (t := .evaluateAll arguments) first.stored
      (stands.at .arguments (by simp) first.current)) ?_
    intro vs m₂ second
    refine .bind (.prim (tells_checkCall second.stored f vs line)) ?_
    intro _ m₃ third
    exact (Recounts.sub (t := .call f vs line) third.stored ⟨first.good, second.good⟩).weaken
  | get object name =>
    refine .bind (.sub stored (stands.atExpr .get rfl rfl)) ?_
    intro v m₁ first
    refine (Recounts.prim (tells_readProperty first.stored first.good ?_)).weaken
    -- reading a method by its property binds it, which the history records
    rintro o method rfl unset found
    exact .property ran first.gave unset found
  | set object name value =>
    refine .bind (.sub stored (stands.atExpr .setObject (by simp) rfl)) ?_
    intro o m₁ first
    cases o with
    | object o =>
      refine .bind (.sub first.stored (stands.atExpr .setValue rfl first.current)) ?_
      intro v m₂ second
      refine .bind (.prim (tells_writeField second.stored o name.text second.good)) ?_
      intro _ m₃ _
      exact .ret second.good
    | _ => exact (Recounts.prim (tells_stop first.stored _)).weaken
  | this id line => exact (Recounts.prim (tells_readVariable stored id _)).weaken
  | super id line method =>
    exact (Recounts.prim (tells_readSuper stored fun o method' found =>
      .super ran found)).weaken

omit plain in
theorem recounts_planOfArguments {es : List Expr} {c : Context} {w : Walk}
    (stands : H.Stands ⟨.expressions es, c, w⟩ m.current (.code receiver)) :
    Recounts H m n (Task.evaluateAll es).plan fun vs _ => ∀ v ∈ vs, H.Traced v := by
  cases es with
  | nil => exact .ret (by simp)
  | cons e rest =>
    refine .bind (.sub stored (stands.atExpr .expressionsHead rfl rfl)) ?_
    intro v m₁ first
    refine .bind (.sub (t := .evaluateAll rest) first.stored
      (stands.at .expressionsTail (by simp) first.current)) ?_
    intro vs m₂ second
    refine .ret ?_
    rw [List.forall_mem_cons]
    exact ⟨first.good, second.good⟩

/-! ## Calls -/

omit plain in
/-- A call lets the body stand in the scope that it makes, with the receiver that the closure
has. -/
theorem recounts_planOfCall {f : Value} {vs : List Value} {line : Nat}
    (ran : H.runs (n + 1) (.call f vs line) m) (callee : H.Traced f)
    (values : ∀ v ∈ vs, H.Traced v) :
    Recounts H m n (Task.planOfCall f vs line) fun v _ => H.Traced v := by
  cases f with
  | host f => exact (Recounts.prim (tells_callHost stored f vs line)).weaken
  | function id closure =>
    exact (Recounts.sub (t := .invoke closure vs) stored ⟨callee, values⟩).weaken
  | cls c =>
    refine .bind (.prim (tells_newObject stored callee)) ?_
    intro o m₁ made
    obtain ⟨new, object⟩ := made.good
    have traced : H.Traced (.object o) := object
    cases found : c.method? initializerName with
    | none => exact .ret traced
    | some initializer =>
      have scopes : m₁.scopes = m.scopes := by
        have gave := made.gave
        cases gave
        rfl
      -- a construction binds the initializer to the new object in the next scope
      have binds : H.Binds initializer o m₁.scopes.size := by
        rw [scopes]
        exact .initializer ran new found
      refine .bind (.prim (tells_bindMethod made.stored (callee _ _ found) object binds)) ?_
      intro bound m₂ second
      refine .bind (.sub (t := .invoke bound vs) second.stored ⟨second.good, values⟩) ?_
      intro _ m₃ _
      exact .ret traced
  | _ => exact (Recounts.prim (tells_stop stored _)).weaken

omit plain in
/-- The body of a function stands in a new scope, as the function was declared. -/
theorem recounts_planOfInvoke {closure : Closure} {vs : List Value}
    (ran : H.runs (n + 1) (.invoke closure vs) m) (declared : H.OfFunction closure)
    (values : ∀ v ∈ vs, H.Traced v) :
    Recounts H m n (Task.invoke closure vs).plan fun v _ => H.Traced v := by
  obtain ⟨⟨node, c, w⟩, receiver, code, stands⟩ := declared
  refine .bind (.prim (tells_callScope stored values)) ?_
  intro scope m₁ first
  have body : (Task.executeAll closure.declaration.body).Begins H
      { m₁ with current := scope } := by
    obtain rfl := first.good
    obtain ⟨⟨name, parameters, body⟩, scope, isInitializer⟩ := closure
    obtain rfl : node = _ := code
    exact ⟨_, receiver, rfl, .call stands rfl ran .functionBody⟩
  refine .bind (.inside first.stored body) ?_
  intro completion m₂ second
  exact (Recounts.prim (tells_callResult second.stored closure second.good)).weaken

/-! ## Statements -/

omit plain in
/-- Making a class whose methods stand in the scope that it is given. -/
theorem recounts_planOfClass {name : Name} (named : name.text ∉ reserved)
    {superclass : Option ObjectClass} {ds : List FunctionDecl}
    (parent : ∀ c ∈ superclass, H.OfClass c)
    (declared : ∀ d ∈ ds, ∀ isInitializer,
      H.OfMethod ⟨d, if superclass.isSome then m.scopes.size else m.current, isInitializer⟩) :
    Recounts H m n (Task.planOfClass name superclass ds) fun _ _ => True := by
  have nil : H.Traced .nil := trivial
  refine .bind (.prim (tells_define stored named nil)) ?_
  intro _ m₁ first
  -- the scope of super is the next one, as binding the class name makes none
  have size : m₁.scopes.size = m.scopes.size := by
    have gave := first.gave
    cases gave
    exact Scopes.size_define ..
  refine .bind (.prim (tells_classScope first.stored parent)) ?_
  intro scope m₂ second
  have good := second.good
  rw [size, first.current] at good
  subst good
  refine .bind (.prim (tells_newClass second.stored name.text declared parent)) ?_
  intro cls m₃ third
  have made : H.Traced (.cls cls) := third.good
  exact (Recounts.prim (tells_assign third.stored named made)).weaken

omit plain stored in
theorem passing_of_not_returned {c : Completion} (other : ∀ v, c ≠ .returned v) : H.Passes c :=
  fun v same => absurd same (other v)

/-- A statement has parts that stand in its scope, or in the one that it opens. -/
theorem recounts_planOfStmt {s : Stmt} {c : Context} {w : Walk}
    (ran : H.runs (n + 1) (.execute s) m)
    (stands : H.Stands ⟨.statement s, c, w⟩ m.current (.code receiver)) :
    Recounts H m n (Task.planOfStmt s) fun c _ => H.Passes c := by
  have normal : H.Passes .normal := passing_of_not_returned nofun
  have code := plain _ stands.seen
  cases s with
  | expression e =>
    exact .bind (.sub stored (stands.atExpr .expressionStmt rfl rfl)) fun _ _ _ => .ret normal
  | print e =>
    refine .bind (.sub stored (stands.atExpr .print rfl rfl)) ?_
    intro v m₁ first
    exact .bind (.prim (tells_print first.stored v)) fun _ _ _ => .ret normal
  | var name initializer =>
    have begins : (Task.evaluate? initializer).Begins H m := by
      rintro e ⟨⟩
      exact stands.atExpr .varInitializer (by simp) rfl
    refine .bind (.sub stored begins) ?_
    intro v m₁ first
    exact .bind (.prim (tells_define first.stored code.1 first.good)) fun _ _ _ => .ret normal
  | block body =>
    refine .bind (.prim (tells_innerScope stored)) ?_
    intro scope m₁ first
    -- the statements of the block stand in the scope just made, with the same receiver
    have rows : (Task.executeAll body).Begins H { m₁ with current := scope } := by
      obtain rfl := first.good
      exact ⟨_, receiver, rfl, .block stands ran⟩
    exact (Recounts.inside first.stored rows).weaken
  | branch condition yes no =>
    refine .bind (.sub stored (stands.atExpr .branchCondition rfl rfl)) ?_
    intro v m₁ first
    split
    · exact (Recounts.sub (t := .execute yes) first.stored
        (stands.at .branchYes (by simp) first.current)).weaken
    · cases no with
      | none => exact .ret normal
      | some no =>
        -- the other part was walked before, which left as many scopes
        have level : ((w.expression c condition).statement c yes).scopes.length =
            w.scopes.length := by
          rw [Walk.scopes_statement, declared_length, Walk.scopes_expression]
        exact (Recounts.sub (t := .execute no) first.stored
          (stands.at .branchNo level first.current)).weaken
  | loop condition body increment =>
    exact (Recounts.sub (t := .executeLoop condition body increment) stored
      ⟨_, receiver, rfl, stands⟩).weaken
  | function d =>
    have declared : H.Stands ⟨.function d, c.inFunction .function, w.declareDefined d.name⟩
        m.current (.code receiver) := stands.part .functionStmt (by simp)
    refine .bind (.prim (tells_newFunction stored rfl declared)) ?_
    intro f m₁ first
    exact .bind (.prim (tells_define first.stored (FunctionDecl.plain_name code) first.good))
      fun _ _ _ => .ret normal
  | «return» line value =>
    have begins : (Task.evaluate? value).Begins H m := by
      rintro e ⟨⟩
      exact stands.atExpr .returnValue (by simp) rfl
    refine .bind (.sub stored begins) ?_
    intro v m₁ first
    refine .ret ?_
    rintro _ ⟨⟩
    exact first.good
  | «break» line => exact .ret (passing_of_not_returned nofun)
  | «continue» line => exact .ret (passing_of_not_returned nofun)
  | classDecl name superclass methods =>
    cases superclass with
    | none =>
      -- without a superclass the methods are declared in the current scope
      have rows : H.Stands ⟨.methods methods, { c with enclosing := .plain },
          ((w.declareDefined name).enter).define "this"⟩ m.current (.methods none) :=
        .methods stands rfl (.plain ran rfl) .classMethods rfl
      refine .bind (recounts_planOfClass stored code.1 nofun ?_) fun _ _ _ => .ret normal
      intro d among isInitializer
      obtain ⟨f, node, declared⟩ := rows.method rfl among
      exact ⟨f, none, node, declared⟩
    | some occurrence =>
      have begins : H.AtExpr m (.variable occurrence) :=
        ⟨_, receiver, rfl, stands.part .classSuperclass (by simp)⟩
      refine .bind (.sub stored begins) ?_
      intro v m₁ first
      refine .bind (.prim (tells_asSuperclass first.stored occurrence.name.line first.good)) ?_
      intro parent m₂ second
      obtain ⟨rfl, inherited⟩ := second.good
      -- asking whether the value is a class changes nothing
      have same : m₂ = m₁ := by
        have gave := second.gave
        cases gave
        rfl
      subst same
      -- with one they are declared in the scope of super, which is made next
      have rows : H.Stands ⟨.methods methods, { c with enclosing := .derived },
          (((w.declareDefined name).superclass name occurrence).enter).define "this"⟩
          m₂.scopes.size (.methods (some parent)) :=
        .methods stands rfl (.derived ran rfl first.gave) .subclassMethods rfl
      have above : ∀ c ∈ some parent, H.OfClass c := by
        rintro _ ⟨⟩
        exact inherited
      refine .bind (recounts_planOfClass second.stored code.1 above ?_) fun _ _ _ => .ret normal
      intro d among isInitializer
      obtain ⟨f, node, declared⟩ := rows.method rfl among
      exact ⟨f, some parent, node, declared⟩

omit plain in
/-- Statements in a row stand in one scope. -/
theorem recounts_planOfRow {ss : List Stmt} {c : Context} {w : Walk}
    (stands : H.Stands ⟨.statements ss, c, w⟩ m.current (.code receiver)) :
    Recounts H m n (Task.executeAll ss).plan fun c _ => H.Passes c := by
  cases ss with
  | nil => exact .ret (passing_of_not_returned nofun)
  | cons s rest =>
    refine .bind (.sub (t := .execute s) stored (stands.at .statementsHead rfl rfl)) ?_
    intro completion m₁ first
    cases completion with
    | normal =>
      have level : (w.statement c s).scopes.length = w.scopes.length := by
        rw [Walk.scopes_statement, declared_length]
      exact (Recounts.sub (t := .executeAll rest) first.stored
        (stands.at .statementsTail level first.current)).weaken
    | _ => exact .ret first.good

omit plain in
/-- The parts of a loop stand where it does, in every round. -/
theorem recounts_planOfLoop {condition : Expr} {body : Stmt} {increment : Option Expr}
    {c : Context} {w : Walk}
    (stands : H.Stands ⟨.statement (.loop condition body increment), c, w⟩ m.current
      (.code receiver)) :
    Recounts H m n (Task.executeLoop condition body increment).plan fun c _ => H.Passes c := by
  refine .bind (.sub stored (stands.atExpr .loopCondition rfl rfl)) ?_
  intro v m₁ first
  split
  · refine .bind (.sub (t := .execute body) first.stored
      (stands.at .loopBody (by simp) first.current)) ?_
    intro completion m₂ second
    have current : m₂.current = m.current := second.current.trans first.current
    have again : Recounts H m₂ n (Plan.sub (.evaluate? increment) >>= fun _ =>
        Plan.sub (.executeLoop condition body increment)) fun c _ => H.Passes c := by
      have begins : (Task.evaluate? increment).Begins H m₂ := by
        rintro e ⟨⟩
        refine stands.atExpr .loopIncrement ?_ current
        rw [Walk.scopes_statement, declared_length, Walk.scopes_expression]
      refine .bind (.sub second.stored begins) ?_
      intro _ m₃ third
      have here : H.At m₃ (.statement (.loop condition body increment)) := by
        refine ⟨⟨_, c, w⟩, receiver, rfl, ?_⟩
        rw [third.current, current]
        exact stands
      exact (Recounts.sub (t := .executeLoop condition body increment) third.stored here).weaken
    cases completion with
    | normal => exact again
    | continued => exact again
    | broke => exact .ret (passing_of_not_returned nofun)
    | returned v => exact .ret second.good
  · exact .ret (passing_of_not_returned nofun)

end Plans

/-! ## Runs -/

/-- Every run of a history keeps to its chronicle. -/
theorem heeded_chronicle (plain : H.Plain) : (chronicle H).Heeded H.runs := by
  intro n t m ran stored begins
  cases t with
  | evaluate e =>
    obtain ⟨⟨node, c, w⟩, receiver, evaluated, stands⟩ := begins
    -- a superclass is evaluated as a variable, from the place of the class
    rcases evaluates?_eq evaluated with rfl | ⟨name, o, rfl, rfl⟩
    · exact recounts_planOfExpr plain stored ran stands
    · exact (Recounts.prim (tells_readVariable stored o.id o.name)).weaken
  | evaluateAll es =>
    obtain ⟨⟨node, c, w⟩, receiver, rfl, stands⟩ := begins
    exact recounts_planOfArguments stored stands
  | call f vs line => exact recounts_planOfCall stored ran begins.1 begins.2
  | invoke closure vs => exact recounts_planOfInvoke stored ran begins.1 begins.2
  | execute s =>
    obtain ⟨⟨node, c, w⟩, receiver, rfl, stands⟩ := begins
    exact recounts_planOfStmt plain stored ran stands
  | evaluate? e =>
    cases e with
    | none =>
      have nil : H.Traced .nil := trivial
      exact nil
    | some e => exact (Recounts.sub (t := .evaluate e) stored (begins e rfl)).weaken
  | executeAll ss =>
    obtain ⟨⟨node, c, w⟩, receiver, rfl, stands⟩ := begins
    exact recounts_planOfRow stored stands
  | executeLoop condition body increment =>
    obtain ⟨⟨node, c, w⟩, receiver, rfl, stands⟩ := begins
    exact recounts_planOfLoop stored stands

end ClassScript.Machine
