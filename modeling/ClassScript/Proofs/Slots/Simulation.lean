import ClassScript.Proofs.Machine.Soundness
import ClassScript.Proofs.Slots.Frames

/-!
# Runs side by side

With the same fuel, both evaluators end alike on every piece of an accepted program,
from any pair that stands where resolution visited the piece (`simAt`). The induction
is on the fuel; one lemma for each function of the evaluators takes a step of it.
-/

namespace ClassScript.Slots

open Syntax Parsing Object Binding Machine

/-- A related pair that stands where a walk was. Scopes from `base` on are not there
yet, or belong to what is run inside. -/
structure Fit (inputs : List Input) (base : Nat) (p : Pair) (levels : List Names) : Prop where
  related : Related inputs p
  place : Place p levels
  below : p.machine.current < base
  size : base ≤ p.machine.scopes.size

/-- Statements end alike, and normally only with their names declared. -/
structure Ended (inputs : List Input) (names : List String) (p : Pair)
    (left right : Completion) : Prop where
  same : SameCompletion inputs p left right
  named : left = .normal → Named p names

variable {inputs : List Input} {base fuel : Nat} {names : List String} {p q : Pair}
  {levels levels' : List Names}

namespace Fit

theorem tracks (fit : Fit inputs base p levels) :
    Tracks p levels p.machine.current p.store.map :=
  fit.place.stands.tracks

/-- Behind a run that declared nothing. -/
theorem still (fit : Fit inputs base p levels) (onto : To base [] p q)
    (related : Related inputs q) (same : levels' = levels) : Fit inputs base q levels' where
  related := related
  place := same ▸ fit.place.still onto fit.below
  below := by rw [onto.current]; exact fit.below
  size := Nat.le_trans fit.size onto.scopes.size

/-- Behind a run that declared names. -/
theorem after (fit : Fit inputs base p levels) (onto : To base names p q)
    (related : Related inputs q) (named : Named q names) (same : levels' = declared names levels) :
    Fit inputs base q levels' where
  related := related
  place := same ▸ fit.place.after related onto named fit.below
  below := by rw [onto.current]; exact fit.below
  size := Nat.le_trans fit.size onto.scopes.size

/-- Scopes that differ in what is defined. -/
theorem congr (fit : Fit inputs base p levels) (length : levels'.length = levels.length)
    (depths : ∀ name, depthOf name levels' = depthOf name levels) :
    Fit inputs base p levels' :=
  { fit with place := fit.place.congr length depths }

end Fit

/-- The expression was visited where the pair stands. -/
def FitExpr (inputs : List Input) (base : Nat) (p : Pair) (e : Expr) : Prop :=
  ∃ v, Seen inputs v ∧ evaluates? v.node = some e ∧ Fit inputs base p v.walk.scopes

/-- The piece was visited where the pair stands. -/
def FitNode (inputs : List Input) (base : Nat) (p : Pair) (node : Node) : Prop :=
  ∃ v, Seen inputs v ∧ v.node = node ∧ Fit inputs base p v.walk.scopes

/-- With the given fuel, both evaluators end alike. -/
structure SimAt (inputs : List Input) (fuel : Nat) : Prop where
  evaluate {base p e} (fit : FitExpr inputs base p e) :
    Sim inputs base [] p (Machine.evaluate fuel e) (evaluate fuel e) fun q => Same inputs q
  evaluateAll {base p es} (fit : FitNode inputs base p (.expressions es)) :
    Sim inputs base [] p (Machine.evaluateAll fuel es) (evaluateAll fuel es)
      fun q => SameRow inputs q
  call {base p f g vs ws} (line : Nat) (related : Related inputs p)
    (size : base ≤ p.machine.scopes.size) (same : Same inputs p f g)
    (row : SameRow inputs p vs ws) (enough : ∀ n, f.arity? = some n → vs.length = n) :
    Sim inputs base [] p (Machine.call fuel f vs line) (call fuel g ws line)
      fun q => Same inputs q
  invoke {base p c d vs ws} (related : Related inputs p)
    (size : base ≤ p.machine.scopes.size) (same : SameClosure inputs p c d)
    (row : SameRow inputs p vs ws) (enough : vs.length = c.arity) :
    Sim inputs base [] p (Machine.invoke fuel c vs) (invoke fuel d ws) fun q => Same inputs q
  execute {base p s} (fit : FitNode inputs base p (.statement s)) :
    Sim inputs base s.declares p (Machine.execute fuel s) (execute fuel s)
      (Ended inputs s.declares)
  evaluate? {base p e} (related : Related inputs p) (fit : ∀ e' ∈ e, FitExpr inputs base p e') :
    Sim inputs base [] p (Machine.evaluate? fuel e) (evaluate? fuel e) fun q => Same inputs q
  executeAll {base p ss} (fit : FitNode inputs base p (.statements ss)) :
    Sim inputs base (Stmt.declaresAll ss) p (Machine.executeAll fuel ss) (executeAll fuel ss)
      (Ended inputs (Stmt.declaresAll ss))
  executeLoop {base p condition body increment}
    (fit : FitNode inputs base p (.statement (.loop condition body increment))) :
    Sim inputs base [] p (Machine.executeLoop fuel condition body increment)
      (executeLoop fuel condition body increment) (Ended inputs [])

/-! ## Expressions -/

/-- A variable is read where it was visited, also one that names a superclass. -/
theorem sim_variable {o : Occurrence} (fit : FitExpr inputs base p (.variable o)) :
    Sim inputs base names p (readVariable o.id o.name) (read o.name) fun q => Same inputs q := by
  obtain ⟨⟨node, c, w⟩, seen, evaluated, fit⟩ := fit
  have sound := fit.related.sound _ seen
  refine sim_read fit.related fit.tracks ?_
  rcases evaluates?_eq evaluated with rfl | ⟨name, o', rfl, same⟩
  · exact sound.variable.1
  · cases same
    exact sound.superclass.1

section Expressions

variable (ih : SimAt inputs fuel)
include ih

/-- Every expression that was visited is evaluated alike, by cases on the expression. -/
theorem sim_expression {e : Expr} {c : Context} {w : Walk}
    (seen : Seen inputs ⟨.expression e, c, w⟩) (fit : Fit inputs base p w.scopes) :
    Sim inputs base [] p (Machine.evaluate (fuel + 1) e) (evaluate (fuel + 1) e)
      fun q => Same inputs q := by
  have sound := fit.related.sound _ seen
  -- the part that is evaluated first stands where the expression does
  have first {e' : Expr} (part : Child ⟨.expression e, c, w⟩ ⟨.expression e', c, w⟩) :
      FitExpr inputs base p e' := ⟨_, seen.child part, rfl, fit⟩
  -- a later part stands there too, since no part declares a name
  have later {e' : Expr} {w' : Walk} {q : Pair}
      (part : Child ⟨.expression e, c, w⟩ ⟨.expression e', c, w'⟩)
      (scopes : w'.scopes = w.scopes) (onto : To base [] p q) (related : Related inputs q) :
      FitExpr inputs base q e' := ⟨_, seen.child part, rfl, fit.still onto related scopes⟩
  cases e with
  | literal value =>
    exact .pure fit.related (.data (isData_ofLiteral value))
  | group inner =>
    exact ih.evaluate (first .group)
  | unary op line operand =>
    apply (ih.evaluate (first .unary)).bind
    intro q v w _ related same
    rw [same.looks.applyUnary]
    exact sim_liftExcept related (givesData_applyUnary op line v)
  | binary op line left right =>
    apply (ih.evaluate (first .binaryLeft)).bind
    intro q v w onto related same
    apply (ih.evaluate (later .binaryRight (by simp) onto related)).bind
    intro q₂ v₂ w₂ to₂ related₂ same₂
    rw [(same.mono to₂.toWidens).looks.applyBinary same₂.looks]
    exact sim_liftExcept related₂ (givesData_applyBinary op line v v₂)
  | logical op left right =>
    apply (ih.evaluate (first .logicalLeft)).bind
    intro q v w onto related same
    rw [same.looks.decides]
    split
    · exact .pure related same
    · exact ih.evaluate (later .logicalRight (by simp) onto related)
  | «variable» o =>
    exact sim_variable ⟨_, seen, rfl, fit⟩
  | assign target value =>
    apply (ih.evaluate (first .assign)).bind
    intro q v w onto related same
    have fit₁ := fit.still onto related rfl
    apply (sim_write related fit₁.tracks (related.sound _ seen).assign same).bind
    intro q₂ _ _ to₂ related₂ _
    exact .pure related₂ (same.mono to₂.toWidens)
  | call callee line arguments =>
    apply (ih.evaluate (first .callee)).bind
    intro q f g onto related same
    have row : FitNode inputs base q (.expressions arguments) :=
      ⟨_, seen.child .arguments, rfl, fit.still onto related (by simp)⟩
    apply (ih.evaluateAll row).bind
    intro q₂ vs ws to₂ related₂ values
    have same₂ := same.mono to₂.toWidens
    apply (sim_checkCall related₂ same₂ values.length line).bind
    intro q₃ _ _ to₃ related₃ fits
    obtain ⟨arity, found, enough⟩ := fits
    have size := (fit.still ((onto.trans to₂).trans to₃) related₃ rfl).size
    refine ih.call line related₃ size (same₂.mono to₃.toWidens) (values.mono to₃.toWidens) ?_
    intro n other
    rw [found] at other
    cases other
    exact enough
  | get object name =>
    apply (ih.evaluate (first .get)).bind
    intro q v w onto related same
    exact sim_readProperty related same name (fit.still onto related rfl).size
  | set object name value =>
    have start : FitExpr inputs base p object := by
      refine ⟨_, seen.child .setObject, rfl, fit.still (.refl ..) fit.related ?_⟩
      simp
    apply (ih.evaluate start).bind
    intro q o o' onto related same
    cases same with
    | object id of =>
      apply (ih.evaluate (later .setValue rfl onto related)).bind
      intro q₂ v w to₂ related₂ same₂
      have object := Same.mono to₂.toWidens (.object id of)
      apply (sim_writeField related₂ object name.text same₂).bind
      intro q₃ _ _ to₃ related₃ _
      exact .pure related₃ (same₂.mono to₃.toWidens)
    | data data =>
      cases o <;> first
        | exact data.elim
        | exact .fault (f := .noFields name.line) related rfl rfl (.refl _)
    | _ => exact .fault (f := .noFields name.line) related rfl rfl (.refl _)
  | this id line =>
    obtain ⟨depth, noted, found⟩ := sound.this
    exact sim_read fit.related fit.tracks (noted.trans found.symm)
  | super id line method =>
    obtain ⟨depth, noted, this, super⟩ := sound.super
    exact sim_readSuper fit.related fit.tracks method noted this super fit.size

theorem sim_evaluate {e : Expr} (fit : FitExpr inputs base p e) :
    Sim inputs base [] p (Machine.evaluate (fuel + 1) e) (evaluate (fuel + 1) e)
      fun q => Same inputs q := by
  obtain ⟨⟨node, c, w⟩, seen, evaluated, place⟩ := fit
  rcases evaluates?_eq evaluated with rfl | ⟨name, o, rfl, rfl⟩
  · exact sim_expression ih seen place
  · exact sim_variable ⟨_, seen, evaluated, place⟩

theorem sim_evaluateAll {es : List Expr} (fit : FitNode inputs base p (.expressions es)) :
    Sim inputs base [] p (Machine.evaluateAll (fuel + 1) es) (evaluateAll (fuel + 1) es)
      fun q => SameRow inputs q := by
  obtain ⟨⟨node, c, w⟩, seen, rfl, fit⟩ := fit
  cases es with
  | nil =>
    exact .pure fit.related .nil
  | cons e rest =>
    apply (ih.evaluate ⟨_, seen.child .expressionsHead, rfl, fit⟩).bind
    intro q v w onto related same
    have next : FitNode inputs base q (.expressions rest) :=
      ⟨_, seen.child .expressionsTail, rfl, fit.still onto related (by simp)⟩
    apply (ih.evaluateAll next).bind
    intro q₂ vs ws to₂ related₂ values
    exact .pure related₂ (.cons (same.mono to₂.toWidens) values)

theorem sim_evaluate? {e : Option Expr} (related : Related inputs p)
    (fit : ∀ e' ∈ e, FitExpr inputs base p e') :
    Sim inputs base [] p (Machine.evaluate? (fuel + 1) e) (evaluate? (fuel + 1) e)
      fun q => Same inputs q := by
  cases e with
  | none =>
    exact .pure related (.data trivial)
  | some e =>
    exact ih.evaluate (fit e rfl)

end Expressions

/-! ## Calls -/

section Calls

variable (ih : SimAt inputs fuel) (related : Related inputs p)
include ih related

/-- Statements that are run in a new scope. -/
theorem sim_body {scope : ScopeId} {map : Map} {v : Visit} (seen : Seen inputs v)
    {ss : List Stmt} (rows : v.node = .statements ss) (stands : Stands p v.walk.scopes scope map)
    (inner : v.walk.scopes ≠ []) (new : base ≤ scope) :
    Sim inputs base [] p (Machine.within scope (Machine.executeAll fuel ss))
      (within map (executeAll fuel ss)) fun q => SameCompletion inputs q := by
  have run (q : Pair) (related' : Related inputs q) (place : Place q v.walk.scopes)
      (current : q.machine.current = scope) (scopes : q.machine.scopes = p.machine.scopes) :
      Sim inputs (scope + 1) (Stmt.declaresAll ss) q (Machine.executeAll fuel ss)
        (executeAll fuel ss) fun q => SameCompletion inputs q := by
    have fit : Fit inputs (scope + 1) q v.walk.scopes := by
      refine ⟨related', place, ?_, ?_⟩
      · rw [current]
        exact Nat.lt_succ_self scope
      · rw [scopes]
        exact stands.tracks.inside related.rooted
    exact (ih.executeAll ⟨v, seen, rows, fit⟩).imp fun _ _ _ _ _ ended => ended.same
  exact sim_within related stands inner new run

variable (size : base ≤ p.machine.scopes.size)
include size

theorem sim_invoke {c d : Closure} (same : SameClosure inputs p c d) {vs ws : List Value}
    (row : SameRow inputs p vs ws) (enough : vs.length = c.arity) :
    Sim inputs base [] p (Machine.invoke (fuel + 1) c vs) (invoke (fuel + 1) d ws)
      fun q => Same inputs q := by
  apply (sim_callScope related same row enough size).bind
  intro q scope map onto related₁ entered
  obtain ⟨body, seen, rows, inner, stands, new⟩ := entered
  rw [same.declaration]
  apply (sim_body ih related₁ seen rows stands inner new).bind
  intro q₂ a b to₂ related₂ ended
  exact sim_callResult related₂ (same.mono (onto.trans to₂).toWidens) ended

/-- A call of the same value ends alike, whether of a function, a class or the clock. -/
theorem sim_call {f g : Value} (same : Same inputs p f g) {vs ws : List Value}
    (row : SameRow inputs p vs ws) (enough : ∀ n, f.arity? = some n → vs.length = n)
    (line : Nat) :
    Sim inputs base [] p (Machine.call (fuel + 1) f vs line) (call (fuel + 1) g ws line)
      fun q => Same inputs q := by
  cases same with
  | host f =>
    exact sim_callHost related f vs ws line
  | function id same =>
    exact ih.invoke related size same row (enough _ rfl)
  -- a class makes an object, and its initializer runs with the arguments
  | @cls c d same =>
    apply (sim_newObject related same).bind
    intro q o o' onto related₁ made
    obtain ⟨of, of', object⟩ := made
    rcases rel_cases (same.methods initializerName) with
      ⟨missing, missing'⟩ | ⟨m, m', found, found', method⟩
    · rw [missing, missing']
      exact .pure related₁ object
    · have size₁ := Nat.le_trans size onto.scopes.size
      rw [found, found']
      apply (sim_bindMethod related₁ (method.mono onto.toWidens) object size₁).bind
      intro q₂ b b' to₂ related₂ method
      obtain ⟨declaration, bound⟩ := method
      have arity : vs.length = b.arity := by
        rw [Closure.arity, declaration]
        refine enough _ ?_
        simp only [Value.arity?, ObjectClass.arity, found]
        rfl
      have size₂ := Nat.le_trans size₁ to₂.scopes.size
      apply (ih.invoke related₂ size₂ bound (row.mono (onto.trans to₂).toWidens) arity).bind
      intro q₃ _ _ to₃ related₃ _
      exact .pure related₃ (object.mono (to₂.trans to₃).toWidens)
  -- objects and data are not called, on either side
  | object id of =>
    exact .fault (f := .notCallable line) related rfl rfl (.refl _)
  | data data =>
    cases f <;> first
      | exact data.elim
      | exact .fault (f := .notCallable line) related rfl rfl (.refl _)

end Calls

/-! ## Statements -/

theorem Ended.normal (named : Named p names) : Ended inputs names p .normal .normal :=
  ⟨.normal, fun _ => named⟩

/-- A jump declares nothing. -/
theorem Ended.jump {a b : Completion} (same : SameCompletion inputs p a b) (jumps : a ≠ .normal) :
    Ended inputs names p a b :=
  ⟨same, fun normal => absurd normal jumps⟩

/-- Where there is nothing to declare. -/
theorem Ended.nothing {a b : Completion} (same : SameCompletion inputs p a b) :
    Ended inputs [] p a b :=
  ⟨same, fun _ => by simp [Named]⟩

theorem IsSlot.named {name : String} {slot : Option Nat} (declared : IsSlot p name slot) :
    Named p [name] := by
  intro other among
  obtain rfl := List.mem_singleton.mp among
  exact ⟨slot, declared⟩

/-- A statement that declares one name: the store gives the name its slot first. -/
theorem sim_declare {α : Type} {name : String} {x : Machine.Run α} {next : Option Nat → Run α}
    {good : Pair → α → α → Prop} (fit : Fit inputs base p levels)
    (new : depthOf name levels ≠ some 0)
    (rest : ∀ q slot, IsSlot q name slot → Fit inputs base q (marked name false levels) →
      Sim inputs base [name] q x (next slot) good) :
    Sim inputs base [name] p x (declare name >>= next) good := by
  obtain ⟨q, slot, taken, machine, onto, related, declared, place⟩ :=
    declare_ok fit.related base fit.place new
  refine .right taken machine onto related (rest q slot declared ⟨related, place, ?_, ?_⟩)
  · rw [machine]
    exact fit.below
  · rw [machine]
    exact fit.size

section Statements

variable (ih : SimAt inputs fuel)
include ih

/-- A variable declaration declares its name on both sides and fills it after the initializer.
-/
theorem sim_var {name : Name} {initializer : Option Expr} {c : Context} {w : Walk}
    (seen : Seen inputs ⟨.statement (.var name initializer), c, w⟩)
    (fit : Fit inputs base p w.scopes) :
    Sim inputs base [name.text] p (Machine.execute (fuel + 1) (.var name initializer))
      (execute (fuel + 1) (.var name initializer)) (Ended inputs [name.text]) := by
  have accepted : ((w.declare name).expression? c initializer).errors = [] := by
    have accepted := (fit.related.sound _ seen).accepted
    simpa [Visit.after, Walk.statement] using accepted
  have new := depthOf_ne_zero ((Walk.notes_expression? _ c initializer).accepted accepted)
  apply sim_declare fit new
  intro q slot declared fit'
  -- the initializer is resolved with the name declared, so it is evaluated there
  have ready : ∀ e ∈ initializer, FitExpr inputs base q e := by
    rintro e ⟨⟩
    refine ⟨_, seen.child .varInitializer, rfl, ?_⟩
    rw [Walk.scopes_declare]
    exact fit'
  apply (ih.evaluate? fit'.related ready).bind_of_subset (List.nil_subset _)
  intro q₁ v v' to₁ related₁ same
  apply (sim_fill related₁ (declared.mono to₁ (by simp)) same).bind
  intro q₂ _ _ _ related₂ filled
  exact .pure related₂ (.normal filled.1.named)

omit ih in
/-- A function declaration declares its name before the body is closed over. -/
theorem sim_function {d : FunctionDecl} {c : Context} {w : Walk}
    (seen : Seen inputs ⟨.statement (.function d), c, w⟩) (fit : Fit inputs base p w.scopes) :
    Sim inputs base [d.name.text] p (Machine.execute (fuel + 1) (.function d))
      (execute (fuel + 1) (.function d)) (Ended inputs [d.name.text]) := by
  have visited := seen.child .functionStmt
  have accepted := (Visit.notes _).accepted (fit.related.sound _ visited).accepted
  have new : depthOf d.name.text w.scopes ≠ some 0 := by
    refine depthOf_ne_zero ?_
    simpa [Walk.declareDefined] using accepted
  apply sim_declare fit new
  intro q slot declared fit'
  have tracks : Tracks q (w.declareDefined d.name).scopes q.machine.current q.store.map := by
    rw [Walk.scopes_declareDefined]
    exact fit'.tracks.congr (by simp) fun name => depthOf_marked_state ..
  apply (sim_newFunction fit'.related visited rfl tracks).bind_of_subset (List.nil_subset _)
  intro q₁ v v' to₁ related₁ same
  apply (sim_fill related₁ (declared.mono to₁ (by simp)) same).bind
  intro q₂ _ _ _ related₂ filled
  exact .pure related₂ (.normal filled.1.named)

/-- A class declaration declares its name, and fills it once its methods are made. -/
theorem sim_class {name : Name} {superclass : Option Occurrence} {ds : List FunctionDecl}
    {c : Context} {w : Walk} (seen : Seen inputs ⟨.statement (.classDecl name superclass ds), c, w⟩)
    (fit : Fit inputs base p w.scopes) :
    Sim inputs base [name.text] p (Machine.execute (fuel + 1) (.classDecl name superclass ds))
      (execute (fuel + 1) (.classDecl name superclass ds)) (Ended inputs [name.text]) := by
  have new (accepted : (w.declareDefined name).errors = []) :
      depthOf name.text w.scopes ≠ some 0 := by
    refine depthOf_ne_zero ?_
    simpa [Walk.declareDefined] using accepted
  -- the scopes with the name as resolution has them behind the declaration
  have open_ {q : Pair} (fit : Fit inputs base q (marked name.text false w.scopes)) :
      Fit inputs base q (w.declareDefined name).scopes := by
    rw [Walk.scopes_declareDefined]
    exact fit.congr (by simp) fun other => depthOf_marked_state ..
  cases superclass with
  | none =>
    have accepted :=
      (Visit.notes _).accepted (fit.related.sound _ (seen.child .classMethods)).accepted
    apply sim_declare fit (new (by simpa using accepted))
    intro q slot declared fit'
    have fit₁ := open_ fit'
    apply (sim_makeClass fit₁.related declared fit₁.tracks .none (seen.child .classMethods)
      (by simp [superScopes]) fit₁.size).bind_of_subset (List.nil_subset _)
    intro q₁ _ _ to₁ related₁ declared₁
    exact .pure related₁ (.normal declared₁.named)
  | some superclass =>
    have accepted :=
      (Visit.notes _).accepted (fit.related.sound _ (seen.child .classSuperclass)).accepted
    apply sim_declare fit (new accepted)
    intro q slot declared fit'
    have fit₁ := open_ fit'
    apply (ih.evaluate ⟨_, seen.child .classSuperclass, rfl, fit₁⟩).bind_of_subset
      (List.nil_subset _)
    intro q₁ v v' to₁ related₁ same
    apply (sim_asSuperclass related₁ same superclass.name.line).bind_of_subset
      (List.nil_subset _)
    intro q₂ parent parent' to₂ related₂ same
    have onto : To base [] q q₂ := to₁.trans to₂
    have fit₂ := fit₁.still onto related₂ rfl
    apply (sim_makeClass related₂ (declared.mono onto (by simp)) fit₂.tracks (.some same)
      (seen.child .subclassMethods) (by simp [superScopes]) fit₂.size).bind_of_subset
      (List.nil_subset _)
    intro q₃ _ _ to₃ related₃ declared₃
    exact .pure related₃ (.normal declared₃.named)

/-- A branch takes the same side, in a block of its own where it has to. -/
theorem sim_branch {condition : Expr} {yes : Stmt} {no : Option Stmt} {c : Context} {w : Walk}
    (seen : Seen inputs ⟨.statement (.branch condition yes no), c, w⟩)
    (fit : Fit inputs base p w.scopes) :
    Sim inputs base (Stmt.branch condition yes no).declares p
      (Machine.execute (fuel + 1) (.branch condition yes no))
      (execute (fuel + 1) (.branch condition yes no))
      (Ended inputs (Stmt.branch condition yes no).declares) := by
  obtain ⟨whole, first, second⟩ := branch_declares (fit.related.sound _ seen).plain
  rw [whole]
  apply (ih.evaluate ⟨_, seen.child .branchCondition, rfl, fit⟩).bind
  intro q v v' onto related same
  -- both sides take the same branch
  rw [same.looks.isTruthy]
  split
  · have ran := ih.execute ⟨_, seen.child .branchYes, rfl, fit.still onto related (by simp)⟩
    rw [first] at ran
    exact ran
  · cases no with
    | none => exact .pure related (.nothing .normal)
    | some no =>
      have scopes : ((w.expression c condition).statement c yes).scopes = w.scopes := by
        rw [Walk.scopes_statement, first]
        simp
      have ran := ih.execute ⟨_, seen.child .branchNo, rfl, fit.still onto related scopes⟩
      rw [second no rfl] at ran
      exact ran

/-- Every statement that was visited ends alike, by cases on the statement. -/
theorem sim_statement {s : Stmt} {c : Context} {w : Walk}
    (seen : Seen inputs ⟨.statement s, c, w⟩) (fit : Fit inputs base p w.scopes) :
    Sim inputs base s.declares p (Machine.execute (fuel + 1) s) (execute (fuel + 1) s)
      (Ended inputs s.declares) := by
  -- a loop body declares nothing, as the text was accepted
  have plain := (fit.related.sound _ seen).plain
  cases s with
  | expression e =>
    show Sim inputs base [] _ _ _ (Ended inputs [])
    apply (ih.evaluate ⟨_, seen.child .expressionStmt, rfl, fit⟩).bind
    intro q _ _ _ related _
    exact .pure related (.nothing .normal)
  | print e =>
    show Sim inputs base [] _ _ _ (Ended inputs [])
    apply (ih.evaluate ⟨_, seen.child .print, rfl, fit⟩).bind
    intro q _ _ _ related same
    apply (sim_print related same).bind
    intro q₂ _ _ _ related₂ _
    exact .pure related₂ (.nothing .normal)
  | var name initializer => exact sim_var ih seen fit
  | block body =>
    show Sim inputs base [] _ _ _ (Ended inputs [])
    apply (sim_innerScope fit.related fit.tracks fit.size).bind
    intro q scope map _ related entered
    obtain ⟨stands, new⟩ := entered
    exact (sim_body ih related (seen.child .block) rfl stands (by simp) new).imp
      fun _ _ _ _ _ same => .nothing same
  | branch condition yes no => exact sim_branch ih seen fit
  | loop condition body increment =>
    have nothing : (Stmt.loop condition body increment).declares = [] := plain.2.1.2
    rw [nothing]
    exact ih.executeLoop ⟨_, seen, rfl, fit⟩
  | function declaration => exact sim_function seen fit
  | «return» line value =>
    show Sim inputs base [] _ _ _ (Ended inputs [])
    have ready : ∀ e ∈ value, FitExpr inputs base p e := by
      rintro e ⟨⟩
      exact ⟨_, seen.child .returnValue, rfl, fit.still (.refl ..) fit.related (by simp)⟩
    apply (ih.evaluate? fit.related ready).bind
    intro q _ _ _ related same
    exact .pure related (.nothing (.returned same))
  | «break» line =>
    show Sim inputs base [] _ _ _ (Ended inputs [])
    exact .pure fit.related (.nothing .broke)
  | «continue» line =>
    show Sim inputs base [] _ _ _ (Ended inputs [])
    exact .pure fit.related (.nothing .continued)
  | classDecl name superclass methods => exact sim_class ih seen fit

/-- A row of statements ends alike, each standing where the ones before it ended. -/
theorem sim_executeAll {ss : List Stmt} (fit : FitNode inputs base p (.statements ss)) :
    Sim inputs base (Stmt.declaresAll ss) p (Machine.executeAll (fuel + 1) ss)
      (executeAll (fuel + 1) ss) (Ended inputs (Stmt.declaresAll ss)) := by
  obtain ⟨⟨node, c, w⟩, seen, rfl, fit⟩ := fit
  cases ss with
  | nil =>
    exact .pure fit.related (.nothing .normal)
  | cons s rest =>
    have all : Stmt.declaresAll (s :: rest) = s.declares ++ Stmt.declaresAll rest :=
      List.flatMap_cons
    rw [all]
    apply (ih.execute ⟨_, seen.child .statementsHead, rfl, fit⟩).bind_of_subset (by simp)
    intro q a b onto related ended
    obtain ⟨same, named⟩ := ended
    cases same with
    -- the rest stands where the names of the first statement are declared
    | normal =>
      have next : FitNode inputs base q (.statements rest) :=
        ⟨_, seen.child .statementsTail, rfl,
          fit.after onto related (named rfl) (Walk.scopes_statement ..)⟩
      refine ((ih.executeAll next).imp fun q₂ a b to₂ _ ended => ?_).mono (Nat.le_refl _)
        (by simp)
      exact ⟨ended.same, fun normal => (named rfl).append to₂ (ended.named normal)⟩
    | returned same => exact .pure related (.jump (.returned same) (by simp))
    | broke => exact .pure related (.jump .broke (by simp))
    | continued => exact .pure related (.jump .continued (by simp))

/-- A loop ends alike: the condition is asked, the body run and the increment made in turn. -/
theorem sim_executeLoop {condition : Expr} {body : Stmt} {increment : Option Expr}
    (fit : FitNode inputs base p (.statement (.loop condition body increment))) :
    Sim inputs base [] p (Machine.executeLoop (fuel + 1) condition body increment)
      (executeLoop (fuel + 1) condition body increment) (Ended inputs []) := by
  obtain ⟨⟨node, c, w⟩, seen, rfl, fit⟩ := fit
  have nothing : body.declares = [] := (fit.related.sound _ seen).plain.2.1.2
  apply (ih.evaluate ⟨_, seen.child .loopCondition, rfl, fit⟩).bind
  intro q v v' onto related same
  rw [same.looks.isTruthy]
  split
  · have round := ih.execute ⟨_, seen.child .loopBody, rfl, fit.still onto related (by simp)⟩
    rw [nothing] at round
    apply round.bind
    intro q₂ a b to₂ related₂ ended
    have fit₂ := fit.still (onto.trans to₂) related₂ rfl
    -- the increment is run, and then the loop again
    have again : Sim inputs base [] q₂
        (Machine.evaluate? fuel increment >>= fun _ =>
          Machine.executeLoop fuel condition body increment)
        (evaluate? fuel increment >>= fun _ => executeLoop fuel condition body increment)
        (Ended inputs []) := by
      have ready : ∀ e ∈ increment, FitExpr inputs base q₂ e := by
        rintro e ⟨⟩
        refine ⟨_, seen.child .loopIncrement, rfl, fit₂.still (.refl ..) related₂ ?_⟩
        rw [Walk.scopes_statement, nothing]
        simp
      apply (ih.evaluate? related₂ ready).bind
      intro q₃ _ _ to₃ related₃ _
      exact ih.executeLoop ⟨_, seen, rfl, fit₂.still to₃ related₃ rfl⟩
    cases ended.same with
    | normal => exact again
    | continued => exact again
    | broke => exact .pure related₂ (.nothing .normal)
    | returned same => exact .pure related₂ (.nothing (.returned same))
  · exact .pure related (.nothing .normal)

end Statements

/-! ## All fuels -/

/-- Without fuel both sides stop where they are. -/
theorem sim_outOfFuel {α β : Type} {good : Pair → α → β → Prop} (related : Related inputs p) :
    Sim inputs base names p (throw .outOfFuel) (throw .outOfFuel) good :=
  .of_error rfl rfl .outOfFuel related.sink

/-- Without fuel, both sides run out of it at once. -/
theorem simAt_zero (inputs : List Input) : SimAt inputs 0 where
  evaluate := fun ⟨_, _, _, fit⟩ => sim_outOfFuel fit.related
  evaluateAll := fun ⟨_, _, _, fit⟩ => sim_outOfFuel fit.related
  call := fun _ related _ _ _ _ => sim_outOfFuel related
  invoke := fun related _ _ _ _ => sim_outOfFuel related
  execute := fun ⟨_, _, _, fit⟩ => sim_outOfFuel fit.related
  evaluate? := fun related _ => sim_outOfFuel related
  executeAll := fun ⟨_, _, _, fit⟩ => sim_outOfFuel fit.related
  executeLoop := fun ⟨_, _, _, fit⟩ => sim_outOfFuel fit.related

/-- With any fuel, both evaluators end alike on the pieces of accepted programs. -/
theorem simAt (inputs : List Input) (fuel : Nat) : SimAt inputs fuel := by
  induction fuel with
  | zero => exact simAt_zero inputs
  | succ fuel ih =>
    exact {
      evaluate := fun fit => sim_evaluate ih fit
      evaluateAll := fun fit => sim_evaluateAll ih fit
      call := fun line related size same row enough =>
        sim_call ih related size same row enough line
      invoke := fun related size same row enough => sim_invoke ih related size same row enough
      execute := by
        intro base p s fit
        obtain ⟨⟨_, _, _⟩, seen, rfl, fit⟩ := fit
        exact sim_statement ih seen fit
      evaluate? := fun related fit => sim_evaluate? ih related fit
      executeAll := fun fit => sim_executeAll ih fit
      executeLoop := fun fit => sim_executeLoop ih fit }

/-- The statements of a program, one after another. -/
theorem sim_program {ss : List Stmt} {c : Context} {w : Walk}
    (seen : Seen inputs ⟨.statements ss, c, w⟩) (fit : Fit inputs base p w.scopes) (fuel : Nat) :
    Sim inputs base (Stmt.declaresAll ss) p (runStatements fuel ss) (runProgram fuel ss)
      fun _ _ _ => True := by
  induction ss generalizing p w with
  | nil => exact .pure fit.related trivial
  | cons s rest ih =>
    have all : Stmt.declaresAll (s :: rest) = s.declares ++ Stmt.declaresAll rest :=
      List.flatMap_cons
    simp only [runStatements, runProgram]
    rw [all]
    apply ((simAt inputs fuel).execute
      ⟨_, seen.child .statementsHead, rfl, fit⟩).bind_of_subset (by simp)
    intro q a b onto related ended
    obtain ⟨same, named⟩ := ended
    cases same with
    | normal =>
      have next : Fit inputs base q (w.statement c s).scopes :=
        fit.after onto related (named rfl) (Walk.scopes_statement ..)
      exact (ih (seen.child .statementsTail) next).mono (Nat.le_refl _) (by simp)
    | _ => exact .fault related rfl rfl (.internal _ nofun)

end ClassScript.Slots
