import ClassScript.Proofs.Binding.Jump
import ClassScript.Proofs.Machine.Jumps
import ClassScript.Proofs.Machine.Safe

/-!
# Runs of accepted programs

A task is ready where the machine stands as resolution stood when it visited the piece
that the task runs. From there on, every task that is run is ready where it begins,
and the machine stays healthy throughout (`kept_sound`). One thing can go wrong: an
assignment to the variable whose initializer it stands in, which resolution lets pass
(`SelfAssigned`).
-/

namespace ClassScript.Machine

open Syntax Parsing Object Binding

/-- The expression that is evaluated for a piece. -/
def evaluates? : Node → Option Expr
  | .expression e => some e
  | .superclass _ occurrence => some (.variable occurrence)
  | _ => none

/-- A node that is evaluated is an expression, or the variable for a superclass. -/
theorem evaluates?_eq {node : Node} {e : Expr} (h : evaluates? node = some e) :
    node = .expression e ∨ ∃ name o, node = .superclass name o ∧ e = .variable o := by
  cases node with
  | expression e' => exact .inl (congrArg _ (Option.some.inj h))
  | superclass name o => exact .inr ⟨name, o, rfl, (Option.some.inj h).symm⟩
  | _ => cases h

variable (inputs : List Input)

/-- The machine is where resolution visited the expression. -/
def AtExpr (m : State) (e : Expr) : Prop :=
  ∃ v, Seen inputs v ∧ evaluates? v.node = some e ∧ At m v

/-- The machine is where resolution visited the piece. -/
def AtNode (m : State) (node : Node) : Prop := ∃ v, Seen inputs v ∧ v.node = node ∧ At m v

/-- A task may begin. -/
def Task.Ready (m : State) : Task → Prop
  | .evaluate e => AtExpr inputs m e
  | .evaluateAll es => AtNode inputs m (.expressions es)
  | .call f vs _ => GoodValue inputs m f ∧ (∀ v ∈ vs, GoodValue inputs m v) ∧
      ∀ arity, f.arity? = some arity → vs.length = arity
  | .invoke c vs => GoodClosure inputs m c ∧ (∀ v ∈ vs, GoodValue inputs m v) ∧
      vs.length = c.arity
  | .execute s => AtNode inputs m (.statement s)
  | .evaluate? e => ∀ e' ∈ e, AtExpr inputs m e'
  | .executeAll ss => AtNode inputs m (.statements ss)
  | .executeLoop condition body increment =>
    AtNode inputs m (.statement (.loop condition body increment))

/-- What a completion hands on is good, and a normal one means that the names are
bound which the statement declares. -/
def GoodCompletion (declares : List String) (c : Completion) (m : State) : Prop :=
  (∀ v, c = .returned v → GoodValue inputs m v) ∧
    (c = .normal → ∀ name ∈ declares, (m.scopes.own? m.current name).isSome)

/-- What a task gives is good. -/
def Task.GoodResult (m : State) : (t : Task) → t.Result → Prop
  | .evaluate _, v | .call .., v | .invoke .., v | .evaluate? _, v => GoodValue inputs m v
  | .evaluateAll _, vs => ∀ v ∈ vs, GoodValue inputs m v
  | .execute s, c => GoodCompletion inputs s.declares c m
  | .executeAll ss, c => GoodCompletion inputs (Stmt.declaresAll ss) c m
  | .executeLoop _ body _, c => GoodCompletion inputs body.declares c m

/-- The task assigns to a variable in whose own initializer it stands. -/
def SelfAssigned (t : Task) (m : State) : Prop :=
  ∃ target value v, t = .evaluate (.assign target value) ∧ Seen inputs v ∧
    v.node = .expression (.assign target value) ∧ At m v ∧
    v.walk.innermost? target.name.text = some false

/-- What holds of the runs of accepted programs. -/
def sound : Spec where
  pre t m := Healthy inputs m ∧ t.Ready inputs m
  post t _ a m' := Healthy inputs m' ∧ t.GoodResult inputs m' a
  stopped _ _ _ m' := Healthy inputs m'
  own t m e := e.External ∨ SelfAssigned inputs t m

/-- What holds of all runs. -/
def always : Spec := frame.and jumps

/-- At every moment the machine is healthy, and the task is ready for it. -/
theorem always_holds : always.HoldsAlways := by
  intro fuel t m
  have jumped : (jumps.and .top).Outcome t m (t.run fuel m) :=
    kept_jumps.holds fuel t m trivial
  refine Spec.Outcome.and (frame_holds fuel t m) ?_
  cases h : t.run fuel m with
  | ok a m' => rw [h] at jumped; exact jumped.1
  | error _ _ => trivial

/-- A plan goes on soundly, up to what is to hold where it ends. -/
abbrev Goes {α : Type} (own : Stop → Prop) (p : Plan α) (m : State)
    (done : α → State → Prop) : Prop :=
  p.Meets ((sound inputs).and always) own (fun a m' => Healthy inputs m' ∧ done a m')
    (fun _ m' => Healthy inputs m') m

variable {inputs}

section Steps

variable {α β : Type} {own : Stop → Prop} {m : State} {done : α → State → Prop}

theorem Goes.ret {a : α} (healthy : Healthy inputs m) (holds : done a m) :
    Goes inputs own (.ret a) m done :=
  ⟨healthy, holds⟩

/-- A step goes if it is safe, and the rest goes from all that it may end in. -/
theorem Goes.prim {x : Run α} {good : α → State → Prop} (safe : Safe inputs m x good)
    (external : ∀ e, e.External → own e)
    (rest : ∀ a m', x m = .ok a m' → Healthy inputs m' → good a m' → done a m') :
    Goes inputs own (.prim x) m done := by
  refine Plan.meets_prim.mpr ⟨?_, ?_⟩
  · intro a m' h
    obtain ⟨healthy, holds⟩ := safe.ok a m' h
    exact ⟨healthy, rest a m' h healthy holds⟩
  · intro e m' h
    obtain ⟨healthy, outside⟩ := safe.error e m' h
    exact ⟨external e outside, healthy⟩

theorem Goes.sub {t : Task} {done : t.Result → State → Prop} (healthy : Healthy inputs m)
    (ready : t.Ready inputs m)
    (rest : ∀ a m', Healthy inputs m' → t.GoodResult inputs m' a → Grows t.declares m m' →
      done a m') : Goes inputs own (.sub t) m done := by
  refine Plan.meets_sub.mpr ⟨⟨healthy, ready⟩, ?_, fun _ _ h => h.1⟩
  intro a m' h
  obtain ⟨⟨healthy', good⟩, grows, -⟩ := h
  exact ⟨healthy', rest a m' healthy' good grows⟩

/-- A call in another scope, which may say how the statements ended. -/
theorem Goes.inside {t : Task} {scope : ScopeId} {done : t.Result → State → Prop}
    (healthy : Healthy inputs m) (ready : t.Ready inputs { m with current := scope })
    (rest : ∀ a m', Healthy inputs m' → t.GoodResult inputs m' a →
      Grows t.declares { m with current := scope } m' →
      (∀ d, t.completion? a = some d → ∀ exit, d.exit? = some exit → t.Escapes exit) →
      done a { m' with current := m.current }) :
    Goes inputs own (.inside scope t) m done := by
  refine Plan.meets_inside.mpr ⟨⟨healthy.move scope, ready⟩, ?_, fun _ _ h => h.1.move _⟩
  intro a m' h
  obtain ⟨⟨healthy', good⟩, grows, jumps⟩ := h
  exact ⟨healthy'.move _, rest a m' healthy' good grows jumps⟩

/-- Plans go one after the other. -/
theorem Goes.bind {p : Plan β} {f : β → Plan α}
    (h : Goes inputs own p m fun b m' => Goes inputs own (f b) m' done) :
    Goes inputs own (p >>= f) m done :=
  Plan.meets_bind.mpr <| h.imp (fun _ h => h) (fun _ _ h => h.2) fun _ _ h => h

/-- A weaker condition at the end is reached as well. -/
theorem Goes.imp {done' : α → State → Prop} {p : Plan α} (h : Goes inputs own p m done)
    (hdone : ∀ a m', Healthy inputs m' → done a m' → done' a m') :
    Goes inputs own p m done' :=
  Plan.Meets.imp (fun _ h => h) (fun a m' ends => ⟨ends.1, hdone a m' ends.1 ends.2⟩)
    (fun _ _ h => h) h

end Steps

/-! ## Expressions -/

/-- A name that resolution found, and that it does not leave undefined in the innermost
scope, is bound where it was found. -/
theorem At.find {m : State} {v : Visit} (here : At m v)
    (inOrder : InOrder v.node v.walk.scopes) {name : String} {depth : Nat}
    (found : depthOf name v.walk.scopes = some depth)
    (defined : ∀ names ∈ v.walk.scopes.head?, names[name]? ≠ some false)
    (other : v.node.pending ≠ some name) :
    ∃ scope, m.scopes.ancestor? depth m.current = some scope ∧
      (m.scopes.own? scope name).isSome := by
  refine here.mirrors.find found ?_ fun _ => other
  intro names level
  cases depth with
  | zero =>
    rw [← List.head?_eq_getElem?] at level
    exact defined names level
  | succ depth =>
    -- in the outer scopes every name is defined
    refine inOrder.outer names ?_ name
    rw [← List.getElem?_tail] at level
    exact List.mem_of_getElem? level

/-- What resolution found for a name is there for the run. -/
theorem At.found {m : State} {v : Visit} (here : At m v)
    (inOrder : InOrder v.node v.walk.scopes) {id : NodeId} {name : String}
    (noted : m.locals.depth? id = depthOf name v.walk.scopes)
    (defined : v.walk.innermost? name ≠ some false) (other : v.node.pending ≠ some name) :
    Found m id name := by
  intro depth found
  rw [noted] at found
  refine here.find inOrder found ?_ other
  intro names first open_
  apply defined
  rw [Walk.innermost?, Option.mem_def.mp first]
  exact open_

/-- A variable that is read is there, and so is a superclass. -/
theorem At.found_variable {m : State} {v : Visit} (here : At m v) (sound : Sound m.locals v)
    {o : Occurrence} (node : evaluates? v.node = some (.variable o)) :
    Found m o.id o.name.text := by
  obtain ⟨piece, c, w⟩ := v
  rcases evaluates?_eq node with rfl | ⟨name, o', rfl, same⟩
  · exact here.found sound.inOrder sound.variable.1 sound.variable.2 nofun
  · cases same
    obtain ⟨noted, differ⟩ := sound.superclass
    refine here.found sound.inOrder noted (fun open_ => ?_) fun pending => ?_
    · simp only [Walk.innermost?, Option.bind_eq_some_iff] at open_
      obtain ⟨names, first, state⟩ := open_
      exact (sound.inOrder.innermost names first _ state).1
    · exact differ (Option.some.inj pending).symm

/-- The scope of a reserved word is there where resolution found it. -/
theorem At.reserved {m : State} {v : Visit} (here : At m v)
    (inOrder : InOrder v.node v.walk.scopes) {word : String} (special : word ∈ reserved)
    (calm : v.node.pending = none) {depth : Nat}
    (found : depthOf word v.walk.scopes = some depth) :
    ∃ scope, m.scopes.ancestor? depth m.current = some scope ∧
      (m.scopes.own? scope word).isSome := by
  refine here.find inOrder found ?_ (by simp [calm])
  intro names first open_
  exact (inOrder.innermost names first _ open_).2 special

/-- A write to a variable that is declared and not defined finds its scope, and in it
no binding. -/
theorem writeVariable_undefined {m : State} {v : Visit} (here : At m v) {target : Occurrence}
    (noted : m.locals.depth? target.id = depthOf target.name.text v.walk.scopes)
    (open_ : v.walk.innermost? target.name.text = some false) (value : Value) :
    writeVariable target value m =
      .error (.fault (.internal (.missing target.name.text 0))) m := by
  simp only [Walk.innermost?, Option.bind_eq_some_iff] at open_
  obtain ⟨names, first, state⟩ := open_
  -- the table sends the write to the scope on top
  have nearest : depthOf target.name.text v.walk.scopes = some 0 := by
    cases shape : v.walk.scopes with
    | nil => rw [shape] at first; cases first
    | cons top outer =>
      rw [shape] at first
      obtain rfl := Option.some.inj first
      have has : top.contains target.name.text = true := by
        rw [← Std.ExtTreeMap.isSome_getElem?_eq_contains, state]
        rfl
      rw [depthOf_cons, if_pos has]
  -- but there the name is declared only, and the machine binds what is defined
  have unbound : m.scopes.contains m.current target.name.text = false := by
    cases bound : m.scopes.contains m.current target.name.text with
    | false => rfl
    | true =>
      have defined := here.tight names first target.name.text bound
      rw [state] at defined
      cases defined
  rw [nearest] at noted
  have here_scope : m.scopes.ancestor 0 m.current = .ok m.current := rfl
  simp only [writeVariable, writeTarget, noted, Scopes.targetAt, here_scope, unbound]
  rfl

section Expressions

variable {own : Stop → Prop} {m : State} (external : ∀ e, e.External → own e)
  (healthy : Healthy inputs m)
include external healthy

theorem goes_variable {o : Occurrence} (here : AtExpr inputs m (.variable o)) :
    Goes inputs own (Task.planOfExpr (.variable o)) m fun v m' => GoodValue inputs m' v := by
  obtain ⟨v, seen, evaluated, place⟩ := here
  have found := place.found_variable (healthy.sound v seen) evaluated
  exact .prim (safe_readVariable healthy found) external fun _ _ _ _ good => good

/-- A variable that is written to is there, unless it is about to be defined. -/
theorem goes_assign {target : Occurrence} {value : Expr} {c : Context} {w : Walk}
    (seen : Seen inputs ⟨.expression (.assign target value), c, w⟩)
    (place : At m ⟨.expression (.assign target value), c, w⟩)
    (selfish : w.innermost? target.name.text = some false → ∀ e, own e) :
    Goes inputs own (Task.planOfExpr (.assign target value)) m
      fun v m' => GoodValue inputs m' v := by
  have part : AtExpr inputs m value := ⟨_, seen.child .assign, rfl, place.same rfl rfl⟩
  refine .bind (.sub healthy part ?_)
  intro v m₁ healthy₁ good grows
  have place₁ : At m₁ ⟨.expression (.assign target value), c, w⟩ :=
    place.still healthy.inside rfl grows rfl
  have sound₁ := healthy₁.sound _ seen
  by_cases open_ : w.innermost? target.name.text = some false
  · -- the one internal fault that a run may end with
    have missing := writeVariable_undefined place₁ sound₁.assign open_ v
    refine .bind (Plan.meets_prim.mpr ⟨?_, ?_⟩)
    · intro _ m₂ h
      rw [missing] at h
      cases h
    · intro e m₂ h
      rw [missing] at h
      cases h
      exact ⟨selfish open_ _, healthy₁⟩
  · have found := place₁.found sound₁.inOrder sound₁.assign open_ nofun
    refine .bind (.prim (safe_writeVariable healthy₁ found sound₁.plain.1 good) external ?_)
    intro _ m₂ h healthy₂ _
    have grows₂ : Grows [] m₁ m₂ := (Leaves.writeVariable target v).ok h
    exact .ret healthy₂ (good.mono grows₂.scopes grows₂.globals)

/-- An expression goes if its place has the bindings that resolution saw, since its parts stand
at places of their own. -/
theorem goes_expression {e : Expr} {c : Context} {w : Walk}
    (seen : Seen inputs ⟨.expression e, c, w⟩) (place : At m ⟨.expression e, c, w⟩)
    (selfish : ∀ target value, e = .assign target value →
      w.innermost? target.name.text = some false → ∀ e, own e) :
    Goes inputs own (Task.planOfExpr e) m fun v m' => GoodValue inputs m' v := by
  have sound := healthy.sound _ seen
  -- the part that is evaluated first stands where the expression does
  have first {e' : Expr} (part : Child ⟨.expression e, c, w⟩ ⟨.expression e', c, w⟩) :
      AtExpr inputs m e' := ⟨_, seen.child part, rfl, place.same rfl rfl⟩
  -- a later part stands there too, since no part binds a name
  have later {e' : Expr} {w' : Walk} {m' : State}
      (part : Child ⟨.expression e, c, w⟩ ⟨.expression e', c, w'⟩)
      (scopes : w'.scopes = w.scopes) (grows : Grows [] m m') : AtExpr inputs m' e' :=
    ⟨_, seen.child part, rfl, place.still healthy.inside rfl grows scopes⟩
  cases e with
  | literal value => exact .ret healthy (isData_ofLiteral value).good
  | group inner => exact .sub healthy (first .group) fun _ _ _ good _ => good
  | unary op line operand =>
    refine .bind (.sub healthy (first .unary) ?_)
    intro a m₁ healthy₁ _ _
    exact .prim (safe_liftExcept healthy₁ (givesData_applyUnary op line a)) external
      fun _ _ _ _ good => good
  | binary op line left right =>
    refine .bind (.sub healthy (first .binaryLeft) ?_)
    intro a m₁ healthy₁ _ grows
    refine .bind (.sub healthy₁ (later .binaryRight (by simp) grows) ?_)
    intro b m₂ healthy₂ _ _
    exact .prim (safe_liftExcept healthy₂ (givesData_applyBinary op line a b)) external
      fun _ _ _ _ good => good
  | logical op left right =>
    refine .bind (.sub healthy (first .logicalLeft) ?_)
    intro a m₁ healthy₁ good grows
    split
    · exact .ret healthy₁ good
    · exact .sub healthy₁ (later .logicalRight (by simp) grows) fun _ _ _ good _ => good
  | «variable» o => exact goes_variable external healthy ⟨_, seen, rfl, place⟩
  | assign target value =>
    exact goes_assign external healthy seen place (selfish target value rfl)
  | call callee line arguments =>
    refine .bind (.sub healthy (first .callee) ?_)
    intro f m₁ healthy₁ function grows
    have row : AtNode inputs m₁ (.expressions arguments) :=
      ⟨_, seen.child .arguments, rfl, place.still healthy.inside rfl grows (by simp)⟩
    refine .bind (.sub healthy₁ row ?_)
    intro vs m₂ healthy₂ values grows₂
    have function₂ : GoodValue inputs m₂ f := function.mono grows₂.scopes grows₂.globals
    refine .bind (.prim (safe_checkCall healthy₂ f vs line) external ?_)
    intro _ m₃ _ healthy₃ checked
    obtain ⟨rfl, arity, found, enough⟩ := checked
    have ready : Task.Ready inputs m₃ (.call f vs line) := by
      refine ⟨function₂, values, ?_⟩
      intro n same
      rw [found] at same
      cases same
      exact enough
    exact .sub healthy₃ ready fun _ _ _ good _ => good
  | get object name =>
    refine .bind (.sub healthy (first .get) ?_)
    intro o m₁ healthy₁ good _
    exact .prim (safe_readProperty healthy₁ name good) external fun _ _ _ _ good => good
  | set object name value =>
    have start : AtExpr inputs m object :=
      ⟨_, seen.child .setObject, rfl, place.same (by simp) rfl⟩
    refine .bind (.sub healthy start ?_)
    intro o m₁ healthy₁ good grows
    cases o with
    | object o =>
      refine .bind (.sub healthy₁ (later .setValue rfl grows) ?_)
      intro v m₂ healthy₂ good₂ _
      refine .bind (.prim (safe_writeField healthy₂ o name.text good₂) external ?_)
      intro _ m₃ h healthy₃ _
      have grows₃ : Grows [] m₂ m₃ := (Leaves.writeField o name.text v).ok h
      exact .ret healthy₃ (good₂.mono grows₃.scopes grows₃.globals)
    | _ =>
      exact .prim (.of_error rfl healthy₁ fun _ => nofun) external fun _ _ _ _ good => good
  | this id line =>
    obtain ⟨depth, noted, found⟩ := sound.this
    refine .prim (safe_readVariable healthy fun hops same => ?_) external
      fun _ _ _ _ good => good
    rw [noted] at same
    cases same
    exact place.reserved sound.inOrder (by simp [reserved]) rfl found
  | super id line method =>
    obtain ⟨depth, noted, this, super⟩ := sound.super
    refine .prim (safe_readSuper healthy method noted ?_ ?_) external fun _ _ _ _ good => good
    · exact place.reserved sound.inOrder (by simp [reserved]) rfl this
    · exact place.reserved sound.inOrder (by simp [reserved]) rfl super

omit external in
/-- Arguments go one after the other. -/
theorem goes_arguments {es : List Expr} {c : Context} {w : Walk}
    (seen : Seen inputs ⟨.expressions es, c, w⟩) (place : At m ⟨.expressions es, c, w⟩) :
    Goes inputs own (Task.evaluateAll es).plan m fun vs m' =>
      ∀ v ∈ vs, GoodValue inputs m' v := by
  cases es with
  | nil => exact .ret healthy (by simp)
  | cons e rest =>
    refine .bind (.sub healthy ⟨_, seen.child .expressionsHead, rfl, place.same rfl rfl⟩ ?_)
    intro v m₁ healthy₁ good grows
    have next : AtNode inputs m₁ (.expressions rest) :=
      ⟨_, seen.child .expressionsTail, rfl, place.still healthy.inside rfl grows (by simp)⟩
    refine .bind (.sub healthy₁ next ?_)
    intro vs m₂ healthy₂ values grows₂
    have good₂ : GoodValue inputs m₂ v := good.mono grows₂.scopes grows₂.globals
    exact .ret healthy₂ (List.forall_mem_cons.mpr ⟨good₂, values⟩)

end Expressions

/-! ## Statements -/

section Statements

variable {own : Stop → Prop} {m : State} (external : ∀ e, e.External → own e)
  (healthy : Healthy inputs m)

/-- A completion that hands nothing on. -/
theorem goodCompletion_jump {declares : List String} {c : Completion} {m : State}
    (normal : c ≠ .normal) (returned : ∀ v, c ≠ .returned v) :
    GoodCompletion inputs declares c m :=
  ⟨fun v same => absurd same (returned v), fun same => absurd same normal⟩

theorem goodCompletion_normal {declares : List String} {m : State}
    (bound : ∀ name ∈ declares, (m.scopes.own? m.current name).isSome) :
    GoodCompletion inputs declares .normal m :=
  ⟨fun _ => nofun, fun _ => bound⟩

/-- A normal completion binds nothing where nothing is declared. -/
theorem GoodCompletion.nothing {declares : List String} {c : Completion} {m : State}
    (h : GoodCompletion inputs declares c m) : GoodCompletion inputs [] c m :=
  ⟨h.1, fun _ => by simp⟩

include external healthy

/-- Making a class: its name is bound, and its methods have the scopes of their
visits. -/
theorem goes_class {name : Name} {superclass : Option ObjectClass} {ds : List FunctionDecl}
    {levels : List Names} {c : Context} {w : Walk}
    (mirrors : Mirrors m.globals m.scopes none levels m.current)
    (plain : name.text ∉ reserved) (good : ∀ c ∈ superclass, GoodClass inputs m c)
    (seen : Seen inputs ⟨.methods ds, c, w⟩)
    (scopes : w.scopes =
      marked "this" true (∅ :: superScopes superclass (marked name.text true levels))) :
    Goes inputs own (Task.planOfClass name superclass ds) m fun _ m' =>
      (m'.scopes.own? m'.current name.text).isSome := by
  have inside := mirrors.inside healthy.inside
  refine .bind (.prim (safe_define healthy inside plain trivial) external ?_)
  intro _ m₁ h healthy₁ bound
  have grows₁ : Grows [name.text] m m₁ :=
    (Leaves.define (List.mem_singleton_self _) .nil).ok h
  -- once its name is bound, the class is made under scopes that know it
  have named : Mirrors m₁.globals m₁.scopes none (marked name.text true levels) m₁.current := by
    have old : Mirrors m.globals m₁.scopes none levels m₁.current := by
      rw [grows₁.current]
      exact mirrors.mono grows₁.scopes
    rw [grows₁.globals, show marked name.text true levels = declared [name.text] levels from rfl]
    exact old.declare (by simpa using bound)
  have good₁ : ∀ c ∈ superclass, GoodClass inputs m₁ c :=
    fun c mem => (good c mem).mono grows₁.scopes grows₁.globals
  refine .bind (.prim (safe_classScope healthy₁ good₁ named) external ?_)
  intro scope m₂ h healthy₂ opened
  have grows₂ : Grows [] m₁ m₂ := (Leaves.classScope superclass).ok h
  refine .bind (.prim (safe_newClass healthy₂ name.text seen scopes opened.1 opened.2) external ?_)
  intro cls m₃ h healthy₃ class_good
  have grows₃ : Grows [] m₂ m₃ := (Leaves.newClass name.text superclass _).ok h
  refine .prim (safe_assign healthy₃ plain class_good) external ?_
  intro _ m₄ h _ _
  have grows₄ : Grows [] m₃ m₄ := (Leaves.assign name (.cls cls)).ok h
  -- the steps after the first bind no further name in this scope
  have grows : Grows [] m₁ m₄ := (grows₂.trans grows₃).trans grows₄
  rw [grows.current]
  exact grows.scopes.bound _ _ bound

/-- The variable is declared for the initializer, and bound behind it. -/
theorem goes_var {name : Name} {initializer : Option Expr} {c : Context} {w : Walk}
    (seen : Seen inputs ⟨.statement (.var name initializer), c, w⟩)
    (place : At m ⟨.statement (.var name initializer), c, w⟩) :
    Goes inputs own (Task.planOfStmt (.var name initializer)) m fun completion m' =>
      GoodCompletion inputs [name.text] completion m' := by
  have sound := healthy.sound _ seen
  -- the initializer runs with the name declared in the walk and unbound in the machine
  have ready : Task.Ready inputs m (.evaluate? initializer) := by
    rintro e ⟨⟩
    have inner := sound.child .varInitializer
    have new := Walk.declare_accepted ((Walk.notes_expression c e _).accepted inner.accepted)
    refine ⟨_, seen.child .varInitializer, rfl,
      place.mark rfl (by simp) (fun _ names top => ?_) (w.scopes_declare name)⟩
    simpa [Walk.innermost?, Option.mem_def.mp top] using new
  refine .bind (.sub healthy ready ?_)
  intro v m₁ healthy₁ good grows
  have inside : m₁.current < m₁.scopes.size := by
    rw [grows.current]
    exact Nat.lt_of_lt_of_le (place.inside healthy.inside) grows.scopes.size
  refine .bind (.prim (safe_define healthy₁ inside sound.plain.1 (good.define ..)) external ?_)
  intro _ m₂ _ healthy₂ bound
  exact .ret healthy₂ (goodCompletion_normal (by simpa using bound))

/-- A function is bound in the scope that it is declared in, so it may call itself. -/
theorem goes_function {d : FunctionDecl} {c : Context} {w : Walk}
    (seen : Seen inputs ⟨.statement (.function d), c, w⟩)
    (place : At m ⟨.statement (.function d), c, w⟩) :
    Goes inputs own (Task.planOfStmt (.function d)) m fun completion m' =>
      GoodCompletion inputs [d.name.text] completion m' := by
  have sound := healthy.sound _ seen
  have inside := place.inside healthy.inside
  refine .bind (.prim (safe_newFunction healthy d) external ?_)
  intro f m₁ h healthy₁ made
  have grows : Grows [] m m₁ := (Leaves.newFunction d).ok h
  obtain ⟨rfl, scopes⟩ := made
  have inside₁ : m₁.current < m₁.scopes.size := by
    rw [grows.current, scopes]
    exact inside
  refine .bind (.prim (safe_define healthy₁ inside₁ ?_ ?_) external
    fun _ m₂ _ healthy₂ bound => ?_)
  -- the name of a function is plain
  · obtain ⟨name, parameters, body⟩ := d
    exact sound.plain.1
  · -- its visit has the name already, and so does the machine once it is bound
    let value : Value := .function m.nextId ⟨d, m.current, false⟩
    let m₂ := m₁.define m₁.current d.name.text value
    have grows₂ : m.scopes.Extends m₂.scopes := grows.scopes.trans (.define ..)
    have bound : (m₂.scopes.own? m.current d.name.text).isSome := by
      show ((m₁.scopes.define m₁.current _ _).own? _ _).isSome
      rw [Scopes.own?_define, if_pos ⟨grows.current, rfl, inside₁⟩]
      rfl
    refine ⟨⟨_, seen.child .functionStmt, rfl, ?_⟩, by simp⟩
    rw [Walk.scopes_declareDefined]
    show Mirrors m₁.globals m₂.scopes none (declared [d.name.text] w.scopes) m.current
    rw [grows.globals]
    exact (place.mirrors.mono grows₂).declare (by simpa using bound)
  · exact .ret healthy₂ (goodCompletion_normal (by simpa using bound))

omit external in
/-- Neither branch declares a name, so the scopes are the same behind both. -/
theorem goes_branch {condition : Expr} {yes : Stmt} {no : Option Stmt} {c : Context} {w : Walk}
    (seen : Seen inputs ⟨.statement (.branch condition yes no), c, w⟩)
    (place : At m ⟨.statement (.branch condition yes no), c, w⟩) :
    Goes inputs own (Task.planOfStmt (.branch condition yes no)) m fun completion m' =>
      GoodCompletion inputs (Stmt.branch condition yes no).declares completion m' := by
  obtain ⟨whole, first, -⟩ := branch_declares (healthy.sound _ seen).plain
  rw [whole]
  refine .bind (.sub healthy ⟨_, seen.child .branchCondition, rfl, place.same rfl rfl⟩ ?_)
  intro v m₁ healthy₁ _ grows
  -- either part is run in the scopes of the branch
  have done {s : Stmt} {w' : Walk}
      (part : Child ⟨.statement (.branch condition yes no), c, w⟩ ⟨.statement s, c, w'⟩)
      (scopes : w'.scopes = w.scopes) :
      Goes inputs own (Plan.sub (.execute s)) m₁ fun completion m' =>
        GoodCompletion inputs [] completion m' :=
    .sub healthy₁ ⟨_, seen.child part, rfl, place.still healthy.inside rfl grows scopes⟩
      fun _ _ _ good _ => GoodCompletion.nothing good
  split
  · exact done .branchYes (by simp)
  · cases no with
    | none => exact .ret healthy₁ (goodCompletion_normal (by simp))
    | some no =>
      refine done .branchNo ?_
      rw [Walk.scopes_statement, first]
      simp

/-- A statement goes, and behind it the names that it declares are bound. -/
theorem goes_statement {s : Stmt} {c : Context} {w : Walk}
    (seen : Seen inputs ⟨.statement s, c, w⟩) (place : At m ⟨.statement s, c, w⟩) :
    Goes inputs own (Task.planOfStmt s) m fun completion m' =>
      GoodCompletion inputs s.declares completion m' := by
  have sound := healthy.sound _ seen
  have first {e : Expr} {w' : Walk} (part : Child ⟨.statement s, c, w⟩ ⟨.expression e, c, w'⟩)
      (scopes : w'.scopes = w.scopes) : AtExpr inputs m e :=
    ⟨_, seen.child part, rfl, place.same scopes rfl⟩
  cases s with
  | expression e =>
    refine .bind (.sub healthy (first .expressionStmt rfl) ?_)
    intro _ m₁ healthy₁ _ _
    exact .ret healthy₁ (goodCompletion_normal (by simp [Stmt.declares]))
  | print e =>
    refine .bind (.sub healthy (first .print rfl) ?_)
    intro v m₁ healthy₁ _ _
    refine .bind (.prim (safe_print healthy₁ v) external ?_)
    intro _ _ _ healthy₂ _
    exact .ret healthy₂ (goodCompletion_normal (by simp [Stmt.declares]))
  | var name initializer => exact goes_var external healthy seen place
  | block body =>
    refine .bind (.prim (safe_innerScope (c := ⟨.statements body, c, w.enter⟩) healthy place
      rfl rfl) external ?_)
    intro scope m₁ _ healthy₁ inner
    refine .inside healthy₁ ⟨_, seen.child .block, rfl, inner⟩ ?_
    intro completion m₂ healthy₂ good _ _
    exact ⟨fun v same => (good.1 v same).move _, fun _ => by simp [Stmt.declares]⟩
  | branch condition yes no => exact goes_branch healthy seen place
  | loop condition body increment =>
    exact .sub healthy ⟨_, seen, rfl, place⟩ fun _ _ _ good _ => good
  | function declaration => exact goes_function external healthy seen place
  | «return» line value =>
    have ready : Task.Ready inputs m (.evaluate? value) := by
      rintro e ⟨⟩
      exact first .returnValue (by simp)
    refine .bind (.sub healthy ready ?_)
    intro v m₁ healthy₁ good _
    refine .ret healthy₁ ⟨fun v' same => ?_, nofun⟩
    cases same
    exact good
  | «break» line => exact .ret healthy (goodCompletion_jump nofun nofun)
  | «continue» line => exact .ret healthy (goodCompletion_jump nofun nofun)
  | classDecl name superclass methods =>
    -- behind the class, all that is left is to end normally
    have ends {p : Plan Unit} {m : State}
        (h : Goes inputs own p m fun _ m' => (m'.scopes.own? m'.current name.text).isSome) :
        Goes inputs own (p >>= fun _ => pure Completion.normal) m fun completion m' =>
          GoodCompletion inputs (Stmt.classDecl name superclass methods).declares
            completion m' :=
      .bind <| h.imp fun _ _ healthy bound =>
        .ret healthy (goodCompletion_normal (by simpa [Stmt.declares] using bound))
    cases superclass with
    | none =>
      exact ends (goes_class external healthy place.mirrors sound.plain.1 (by simp)
        (seen.child .classMethods) (by simp [superScopes]))
    | some superclass =>
      have ready : AtExpr inputs m (.variable superclass) :=
        ⟨_, seen.child .classSuperclass, rfl,
          place.mark rfl (fun _ => rfl) (fun h : true = false => nomatch h) (by simp)⟩
      refine .bind (.sub healthy ready ?_)
      intro v m₁ healthy₁ good grows
      refine .bind (.prim (safe_asSuperclass healthy₁ _ good) external ?_)
      intro parent m₂ _ healthy₂ inherited
      obtain ⟨rfl, class_good⟩ := inherited
      have place₂ : At m₂ ⟨.statement (.classDecl name (some superclass) methods), c, w⟩ :=
        place.still healthy.inside rfl grows rfl
      have parent_good : ∀ c ∈ some parent, GoodClass inputs m₂ c := by
        rintro _ ⟨⟩
        exact class_good
      exact ends (goes_class external healthy₂ place₂.mirrors sound.plain.1 parent_good
        (seen.child .subclassMethods) (by simp [superScopes]))

omit external in
/-- Statements in a row go one after the other, each with the names of those before it. -/
theorem goes_row {ss : List Stmt} (ready : AtNode inputs m (.statements ss)) :
    Goes inputs own (Task.executeAll ss).plan m fun completion m' =>
      GoodCompletion inputs (Stmt.declaresAll ss) completion m' := by
  obtain ⟨⟨node, c, w⟩, seen, rfl, place⟩ := ready
  cases ss with
  | nil => exact .ret healthy (goodCompletion_normal (by simp [Stmt.declaresAll]))
  | cons s rest =>
    refine .bind (.sub healthy ⟨_, seen.child .statementsHead, rfl, place.same rfl rfl⟩ ?_)
    intro completion m₁ healthy₁ good grows
    cases completion with
    | normal =>
      -- a statement that ended normally has bound what it declares, so the rest mirrors its own
      -- walk
      have bound := good.2 rfl
      have next : AtNode inputs m₁ (.statements rest) :=
        ⟨_, seen.child .statementsTail, rfl,
          place.after healthy.inside rfl grows bound (Walk.scopes_statement ..)⟩
      refine .sub healthy₁ next fun completion m₂ _ good₂ grows₂ => ⟨good₂.1, fun same => ?_⟩
      intro name mem
      rw [Stmt.declaresAll, List.flatMap_cons, List.mem_append] at mem
      rcases mem with first | later
      · rw [grows₂.current]
        exact grows₂.scopes.bound _ _ (bound name first)
      · exact good₂.2 same name later
    | returned v => exact .ret healthy₁ ⟨good.1, fun same => by cases same⟩
    | broke => exact .ret healthy₁ (goodCompletion_jump (by simp) (by simp))
    | continued => exact .ret healthy₁ (goodCompletion_jump (by simp) (by simp))

omit external in
/-- A loop goes round after round, in one scope. -/
theorem goes_loop {condition : Expr} {body : Stmt} {increment : Option Expr}
    (ready : AtNode inputs m (.statement (.loop condition body increment))) :
    Goes inputs own (Task.executeLoop condition body increment).plan m fun completion m' =>
      GoodCompletion inputs body.declares completion m' := by
  obtain ⟨⟨node, c, w⟩, seen, rfl, place⟩ := ready
  have nothing : body.declares = [] := (healthy.sound _ seen).plain.2.1.2
  rw [nothing]
  refine .bind (.sub healthy ⟨_, seen.child .loopCondition, rfl, place.same rfl rfl⟩ ?_)
  intro v m₁ healthy₁ _ grows₁
  split
  · refine .bind (.sub healthy₁ ⟨_, seen.child .loopBody, rfl,
      place.still healthy.inside rfl grows₁ (by simp)⟩ ?_)
    intro completion m₂ healthy₂ good grows₂
    -- the body declares nothing, so the scopes are as the condition found them
    have grows₂ : Grows [] m m₂ := by
      have round : Grows body.declares m₁ m₂ := grows₂
      rw [nothing] at round
      exact grows₁.trans round
    -- the same round follows a body that ended normally and one that continued
    have again : Goes inputs own (Plan.sub (.evaluate? increment) >>= fun _ =>
        Plan.sub (.executeLoop condition body increment)) m₂ fun completion m' =>
          GoodCompletion inputs [] completion m' := by
      have ready : Task.Ready inputs m₂ (.evaluate? increment) := by
        rintro e ⟨⟩
        refine ⟨_, seen.child .loopIncrement, rfl, place.still healthy.inside rfl grows₂ ?_⟩
        rw [Walk.scopes_statement, nothing]
        simp
      refine .bind (.sub healthy₂ ready ?_)
      intro _ m₃ healthy₃ _ grows₃
      refine .sub healthy₃ ⟨_, seen, rfl, place.still healthy.inside rfl (grows₂.trans grows₃) rfl⟩
        fun completion m₄ _ good _ => GoodCompletion.nothing good
    cases completion with
    | normal => exact again
    | continued => exact again
    | broke => exact .ret healthy₂ (goodCompletion_normal (by simp))
    | returned v => exact .ret healthy₂ ⟨good.1, nofun⟩
  · exact .ret healthy₁ (goodCompletion_normal (by simp))

end Statements

/-! ## Calls -/

section Calls

variable {own : Stop → Prop} {m : State} (external : ∀ e, e.External → own e)
  (healthy : Healthy inputs m)
include external healthy

/-- A call goes since the body of the closure was visited where the closure was made. -/
theorem goes_call {f : Value} {vs : List Value} {line : Nat}
    (ready : Task.Ready inputs m (.call f vs line)) :
    Goes inputs own (Task.planOfCall f vs line) m fun v m' => GoodValue inputs m' v := by
  obtain ⟨good, values, enough⟩ := ready
  cases f with
  | host f =>
    exact .prim (safe_callHost healthy f vs line) external fun _ _ _ _ good => good
  | function id closure =>
    exact .sub healthy ⟨good, values, enough _ rfl⟩ fun _ _ _ good _ => good
  | cls c =>
    refine .bind (.prim (safe_newObject healthy good) external ?_)
    intro o m₁ h healthy₁ made
    obtain ⟨rfl, class_good⟩ := made
    have grows₁ : Grows [] m m₁ := (Leaves.newObject o.cls).ok h
    cases found : o.cls.method? initializerName with
    | none => exact .ret healthy₁ class_good
    | some initializer =>
      refine .bind (.prim (safe_bindMethod healthy₁ (class_good _ _ found) class_good) external ?_)
      intro bound m₂ h healthy₂ binds
      obtain ⟨closure_good, declaration⟩ := binds
      have grows₂ : Grows [] m₁ m₂ := (Leaves.bindMethod initializer o).ok h
      have grows : Grows [] m m₂ := grows₁.trans grows₂
      -- the arguments were counted against the class, whose arity is that of its initializer
      have arity : vs.length = bound.arity := by
        rw [Closure.arity, declaration]
        refine enough _ ?_
        simp only [Value.arity?, ObjectClass.arity, found]
        rfl
      have ready : Task.Ready inputs m₂ (.invoke bound vs) :=
        ⟨closure_good, fun v mem => (values v mem).mono grows.scopes grows.globals, arity⟩
      refine .bind (.sub healthy₂ ready ?_)
      intro _ m₃ healthy₃ _ grows₃
      have grown : Grows [] m₁ m₃ := grows₂.trans grows₃
      exact .ret healthy₃ (class_good.mono grown.scopes grown.globals)
  | _ => exact .prim (.of_error rfl healthy fun _ => nofun) external fun _ _ _ _ good => good

omit external in
/-- A jump that led out of the body of a visited function, and is no `return`, would
have been an error. -/
theorem return_of_body {f body : Visit} {d : FunctionDecl} (seen : Seen inputs f)
    (node : f.node = .function d) (part : Child f body) {ss : List Stmt}
    (rows : body.node = .statements ss) (context : body.context = f.context) {s : Stmt}
    (inside : s ∈ ss) {exit : Exit} (escapes : s.Escapes exit) : exit = .return := by
  have accepted := (healthy.sound body (seen.child part)).accepted
  rw [Visit.after, rows] at accepted
  obtain ⟨input, entered, reached⟩ := seen
  refine return_of_escapes accepted ?_ inside escapes
  rw [context]
  exact (reached.of_function node).2

/-- The body of a function ends normally or by returning a value. -/
theorem goes_invoke {closure : Closure} {vs : List Value}
    (ready : Task.Ready inputs m (.invoke closure vs)) :
    Goes inputs own (Task.invoke closure vs).plan m fun v m' => GoodValue inputs m' v := by
  obtain ⟨good, values, enough⟩ := ready
  refine .bind (.prim (safe_callScope healthy good values enough) external ?_)
  intro scope m₁ h healthy₁ called
  obtain ⟨f, body, seen, node, part, rows, context, place⟩ := called
  have grows₁ : Grows [] m m₁ := by
    obtain ⟨m', made, grows⟩ := makesScope_callScope closure vs m
    rw [made] at h
    cases h
    exact grows
  refine .bind (.inside healthy₁ ⟨body, seen.child part, rows, place⟩ ?_)
  intro completion m₂ healthy₂ good₂ grows₂ jumps
  -- a body that was accepted lets no break and no continue out
  have only_return (exit : Exit) (ends : completion.exit? = some exit) : exit = .return := by
    obtain ⟨s, inside, escapes⟩ := jumps completion rfl exit ends
    exact return_of_body healthy seen node part rows context inside escapes
  obtain ⟨broke, continued⟩ := Completion.not_for_loop only_return
  have good₃ : GoodClosure inputs { m₂ with current := m₁.current } closure :=
    (good.mono (grows₁.scopes.trans grows₂.scopes)
      (grows₂.globals.trans grows₁.globals)).move _
  refine .prim (safe_callResult (healthy₂.move _) good₃ broke continued ?_) external
    fun _ _ _ _ result => result
  intro v same
  exact (good₂.1 v same).move _

end Calls

/-! ## Runs -/

/-- A run of an accepted program keeps the machine healthy, and every task of it is
ready where it begins. A task stops of itself with an internal fault only if it
assigns to a variable in whose own initializer it stands. -/
theorem kept_sound (inputs : List Input) : Kept (sound inputs) always where
  given := always_holds
  out _ _ begins := begins.1
  plans t m begins := by
    obtain ⟨healthy, ready⟩ := begins
    have external (e : Stop) (h : e.External) : (sound inputs).own t m e := .inl h
    cases t with
    | evaluate e =>
      obtain ⟨⟨node, c, w⟩, seen, evaluated, place⟩ := ready
      rcases evaluates?_eq evaluated with rfl | ⟨name, o, rfl, rfl⟩
      · apply goes_expression external healthy seen place
        -- an assignment to a name that is declared only may fail on its own account
        intro target value same open_ e
        subst same
        exact .inr ⟨target, value, _, rfl, seen, rfl, place, open_⟩
      · exact goes_variable external healthy ⟨_, seen, evaluated, place⟩
    | evaluateAll es =>
      obtain ⟨⟨node, c, w⟩, seen, rfl, place⟩ := ready
      exact goes_arguments healthy seen place
    | call f vs line => exact goes_call external healthy ready
    | invoke closure vs => exact goes_invoke external healthy ready
    | execute s =>
      obtain ⟨⟨node, c, w⟩, seen, rfl, place⟩ := ready
      exact goes_statement external healthy seen place
    | evaluate? e =>
      cases e with
      | none => exact ⟨healthy, trivial⟩
      | some e =>
        exact Goes.sub (t := .evaluate e) healthy (ready e rfl) fun _ _ _ good _ => good
    | executeAll ss => exact goes_row healthy ready
    | executeLoop condition body increment => exact goes_loop healthy ready

end ClassScript.Machine
