import ClassScript.Proofs.Machine.Standing

/-!
# Scopes carry receivers

What happened can be read off the scopes. Wherever a piece stands, the scopes above it bind
`this` to its receiver's object, and the next one binds `super` to the superclass, at the
levels where resolution has these names (`History.Stands.carries`). For a scope is made once,
reserved names are bound when it is made, and never again: any two machines that the runs go
through agree on the scopes that both have (`Agree`).
-/

namespace ClassScript.Machine

open Syntax Parsing Object Binding

/-! ## Machines behind steps -/

namespace Plan

variable {α β : Type} {tasks : (t : Task) → Run t.Result} {inner : Task → State → List State}
  {m m' : State} {b : β}

/-- A trace begins with the state that the plan starts in. -/
theorem mem_trace (p : Plan α) (m : State) : m ∈ p.trace tasks inner m := by
  cases p <;> simp [trace]

/-- What a plan goes through behind a step. -/
theorem trace_prim {x : Run β} (ran : x m = .ok b m') (f : β → Plan α) :
    (f b).trace tasks inner m' ⊆ (prim x >>= f).trace tasks inner m := by
  show _ ⊆ (step x f).trace tasks inner m
  rw [trace, ran]
  exact List.subset_cons_self ..

/-- What a plan goes through behind a call. -/
theorem trace_sub {t : Task} {b : t.Result} (ran : tasks t m = .ok b m')
    (f : t.Result → Plan α) :
    (f b).trace tasks inner m' ⊆ (sub t >>= f).trace tasks inner m := by
  show _ ⊆ (call id (fun _ m => m) t f).trace tasks inner m
  rw [trace, id, ran]
  exact List.subset_append_right ..

theorem mem_trace_prim {x : Run β} (ran : x m = .ok b m') :
    m' ∈ (prim x).trace tasks inner m := by
  simp [prim, trace, ran]

end Plan

/-! ## Machines that agree -/

/-- The machines have the same parents and the same bindings of reserved names, where both
have a scope. -/
def Agree (a b : State) : Prop :=
  ∀ id, id < a.scopes.size → id < b.scopes.size →
    a.scopes.parent? id = b.scopes.parent? id ∧
      ∀ name ∈ reserved, a.scopes.own? id name = b.scopes.own? id name

/-- A machine that fixes the scopes of another one agrees with it. -/
theorem Fixes.agree {a b : State} (fixes : Fixes a b) : Agree a b := fun id inside _ =>
  ⟨(fixes.scopes.parent id inside).symm, fun name special =>
    (fixes.reserved id inside name special).symm⟩

theorem Agree.refl (m : State) : Agree m m := fun _ _ _ => ⟨rfl, fun _ _ => rfl⟩

theorem Agree.symm {a b : State} (h : Agree a b) : Agree b a := fun id first second => by
  obtain ⟨parent, own⟩ := h id second first
  exact ⟨parent.symm, fun name special => (own name special).symm⟩

/-- The machines that a history goes through: they agree, and their scopes lie inside older
ones. -/
structure History.Through (H : History) (states : List State) : Prop where
  plain : H.Plain
  trace : ∀ n t m, H.runs n t m → t.trace n m ⊆ states
  agree : ∀ a ∈ states, ∀ b ∈ states, Agree a b
  older : ∀ m ∈ states, ∀ id up, m.scopes.parent? id = some up → up < id

/-! ## What scopes carry -/

/-- The scope binds `super` to the superclass, where there is one. Where there is none,
resolution has no `super` at this level. -/
def BindsSuper (m : State) (levels : List Names) (depth : Nat) (scope : ScopeId) :
    Option ObjectClass → Prop
  | none => depthOf "super" levels ≠ some (depth + 1)
  | some c => m.scopes.own? scope "super" = some (.cls c)

/-- The scopes have the receiver where resolution has `this` and `super`. -/
def Carries (m : State) (levels : List Names) (scope : ScopeId) : Standing → Prop
  | .code none => depthOf "this" levels = none
  | .code (some receiver) => ∃ depth inner outer, depthOf "this" levels = some depth ∧
      m.scopes.ancestor? depth scope = some inner ∧
      m.scopes.own? inner "this" = some (.object receiver.object) ∧
      m.scopes.parent? inner = some outer ∧ BindsSuper m levels depth outer receiver.superclass
  | .methods superclass => depthOf "this" levels = some 0 ∧ BindsSuper m levels 0 scope superclass

section Carries

variable {m : State} {levels levels' : List Names} {scope outer : ScopeId}

/-- What `super` is bound to depends on its depth alone. -/
theorem BindsSuper.congr {depth depth' : Nat} {superclass : Option ObjectClass}
    (h : BindsSuper m levels depth scope superclass)
    (same : depthOf "super" levels' = some (depth' + 1) →
      depthOf "super" levels = some (depth + 1)) :
    BindsSuper m levels' depth' scope superclass := by
  cases superclass with
  | none => exact fun found => h (same found)
  | some c => exact h

/-- Only where the reserved names are counts. -/
theorem Carries.congr {standing : Standing} (h : Carries m levels scope standing)
    (depths : ∀ text ∈ reserved, depthOf text levels' = depthOf text levels) :
    Carries m levels' scope standing := by
  have this := depths "this" (by simp [reserved])
  have super := depths "super" (by simp [reserved])
  cases standing with
  | code receiver =>
    cases receiver with
    | none => exact this.trans h
    | some receiver =>
      obtain ⟨depth, inner, outer, found, above, bound, parent, next⟩ := h
      exact ⟨depth, inner, outer, this.trans found, above, bound, parent,
        next.congr fun found => super.symm.trans found⟩
  | methods superclass => exact ⟨this.trans h.1, h.2.congr fun found => super.symm.trans found⟩

/-- A scope more, without reserved names. -/
theorem Carries.inside {receiver : Option Receiver}
    (h : Carries m levels outer (.code receiver)) (up : m.scopes.parent? scope = some outer)
    (depths : ∀ text ∈ reserved, depthOf text levels' = (depthOf text levels).map (· + 1)) :
    Carries m levels' scope (.code receiver) := by
  have this := depths "this" (by simp [reserved])
  have super := depths "super" (by simp [reserved])
  cases receiver with
  | none =>
    have none : depthOf "this" levels = none := h
    exact this.trans (by rw [none]; rfl)
  | some receiver =>
    obtain ⟨depth, inner, next, found, above, bound, parent, binds⟩ := h
    -- one more scope to climb before the old position is reached
    refine ⟨depth + 1, inner, next, by rw [this, found]; rfl, ?_, bound, parent, ?_⟩
    · simp only [Scopes.ancestor?, up]
      exact above
    · refine binds.congr fun found => ?_
      rw [super] at found
      obtain ⟨depth', found', same⟩ := Option.map_eq_some_iff.mp found
      rw [found', Nat.succ.inj same]

/-- The scope of a bound method, which binds `this`. -/
theorem Carries.bound {superclass : Option ObjectClass} {o : Instance}
    (h : Carries m levels outer (.methods superclass))
    (up : m.scopes.parent? scope = some outer)
    (this : m.scopes.own? scope "this" = some (.object o)) :
    Carries m levels scope (.code (some ⟨o, superclass⟩)) :=
  ⟨0, scope, outer, h.1, rfl, this, up, h.2⟩

end Carries

/-! ## What happened, in the scopes -/

namespace History

variable {H : History} {states : List State} (through : H.Through states)
  {n : Nat} {m : State}
include through

/-- Behind the execution of a block its scope is inside the one around. -/
theorem Through.block {body : List Stmt} (ran : H.runs (n + 1) (.execute (.block body)) m) :
    ∃ m' ∈ states, m'.scopes.parent? m.scopes.size = some m.current := by
  refine ⟨(m.pushScope (some m.current)).2, through.trace _ _ _ ran ?_, ?_⟩
  · have opened : innerScope m = .ok m.scopes.size (m.pushScope (some m.current)).2 := rfl
    exact Plan.trace_prim opened _ (Plan.mem_trace _ _)
  · exact Scopes.parent?_push_self m.scopes _

/-- Behind a call its scope is inside the one of the function. -/
theorem Through.call {closure : Closure} {arguments : List Value}
    (ran : H.runs (n + 1) (.invoke closure arguments) m) :
    ∃ m' ∈ states, m'.scopes.parent? m.scopes.size = some closure.scope := by
  refine ⟨_, through.trace _ _ _ ran
    (Plan.trace_prim (callScope_eq closure arguments m) _ (Plan.mem_trace _ _)), ?_⟩
  refine (extends_bindAll _ _ _).parent? ?_
  exact Scopes.parent?_push_self m.scopes _

omit through in
/-- The scopes behind the binding of a method. -/
theorem bindMethod_scopes (method : Closure) (o : Instance) (m : State) :
    (m.bindMethod method o).2.scopes.parent? m.scopes.size = some method.scope ∧
      (m.bindMethod method o).2.scopes.own? m.scopes.size "this" = some (.object o) := by
  refine ⟨?_, ?_⟩
  · show ((m.scopes.push (some method.scope)).2.define m.scopes.size "this" _).parent? _ = _
    rw [Scopes.parent?_define, Scopes.parent?_push_self]
  · show ((m.scopes.push (some method.scope)).2.define m.scopes.size "this" _).own? _ _ = _
    rw [Scopes.own?_define, if_pos ⟨rfl, rfl, by simp⟩]

/-- Behind the binding of a method its scope binds `this` to the object, inside the scope
that the method was declared in. -/
theorem Through.binds {method : Closure} {o : Instance} {scope : ScopeId}
    (binds : H.Binds method o scope) :
    ∃ m' ∈ states, m'.scopes.parent? scope = some method.scope ∧
      m'.scopes.own? scope "this" = some (.object o) := by
  -- a method that is read is bound and then made a value, which leaves the scopes alone
  let value (m : State) : Value × State :=
    (m.bindMethod method o).2.newFunction (m.bindMethod method o).1
  cases binds with
  | @property n e name m m₁ ran evaluated unset found =>
    have read : readProperty (.object o) name m₁ = .ok (value m₁).1 (value m₁).2 := by
      simp only [readProperty, unset, found]
      rfl
    exact ⟨_, through.trace _ _ _ ran
      (Plan.trace_sub (t := .evaluate e) evaluated _ (Plan.mem_trace_prim read)),
      bindMethod_scopes method o m₁⟩
  | @super n id line name m ran found =>
    have read : readSuper id name m = .ok (value m).1 (value m).2 := found
    exact ⟨_, through.trace _ _ _ ran (Plan.mem_trace_prim read), bindMethod_scopes method o m⟩
  | @initializer n c arguments line m ran new found =>
    have made : newObject c m = .ok o (m.newObject c).2 := by rw [← new]; rfl
    have bound : bindMethod method o (m.newObject c).2 =
        .ok _ ((m.newObject c).2.bindMethod method o).2 := rfl
    refine ⟨_, through.trace _ _ _ ran (Plan.trace_prim made _ ?_),
      bindMethod_scopes method o (m.newObject c).2⟩
    simp only [found]
    exact Plan.trace_prim bound _ (Plan.mem_trace _ _)

/-- Behind the execution of a class declaration the scope of its methods binds `super` to
the superclass. -/
theorem Through.declares {outer scope : ScopeId} {s : Stmt} {c : ObjectClass}
    (declares : H.Declares outer s (some c) scope) :
    ∃ m' ∈ states, m'.scopes.own? scope "super" = some (.cls c) := by
  cases declares with
  | @derived n m m₁ name occurrence methods c ran here evaluated =>
    let named := m₁.define m₁.current name.text .nil
    have size : named.scopes.size = m₁.scopes.size := Scopes.size_define ..
    have parent : asSuperclass (.cls c) occurrence.name.line m₁ = .ok c m₁ := rfl
    have bound : define name.text .nil m₁ = .ok () named := rfl
    have opened : classScope (some c) named = .ok named.scopes.size
        ((named.pushScope (some named.current)).2.define named.scopes.size "super" (.cls c)) := rfl
    refine ⟨_, through.trace _ _ _ ran (Plan.trace_sub (t := .evaluate (.variable occurrence))
      evaluated _ (Plan.trace_prim parent _ (Plan.trace_prim bound _
        (Plan.trace_prim opened _ (Plan.mem_trace _ _))))), ?_⟩
    rw [← size]
    show ((named.scopes.push (some named.current)).2.define _ "super" _).own? _ _ = _
    rw [Scopes.own?_define, if_pos ⟨rfl, rfl, by simp⟩]

omit through in
/-- Only the methods of a class have `super` in the innermost scope but one, and nothing has
it in the innermost one. -/
theorem Stands.super_ne_zero (plain : H.Plain) {v : Visit} {scope : ScopeId}
    {standing : Standing} (stands : H.Stands v scope standing) :
    depthOf "super" v.walk.scopes ≠ some 0 := by
  have special : "super" ∈ reserved := by simp [reserved]
  have further {d : Option Nat} : d.map (· + 1) ≠ some 0 := by cases d <;> simp
  induction stands with
  | @input input known => cases input <;> exact nofun
  | part whole child level ih =>
    rw [child.depthOf_reserved (plain _ whole.seen) level special]
    exact ih
  -- whatever is opened here moves super one level outwards
  | block _ _ ih =>
    rw [Walk.scopes_enter, depthOf_enter]
    exact further
  | call declared code _ child ih =>
    rw [child.depthOf_body code (plain _ declared.seen) special]
    exact further
  -- the scope of super lies outside the one of this
  | methods around code declared child rows ih =>
    cases declared <;>
      rw [(child.depths_methods code rows (plain _ around.seen)).2] <;>
      first | exact further | simp
  | bound _ _ _ ih => exact ih

/-- Where a piece stands, the scopes have its receiver, on every machine that has its
scope. -/
theorem Stands.carries {v : Visit} {scope : ScopeId} {standing : Standing}
    (stands : H.Stands v scope standing) (later : m ∈ states) (inside : scope < m.scopes.size) :
    Carries m v.walk.scopes scope standing := by
  -- what one machine has in a scope, the machine at hand has there too
  have parent {m' : State} (among : m' ∈ states) {id up : ScopeId} (there : id < m.scopes.size)
      (above : m'.scopes.parent? id = some up) :
      m.scopes.parent? id = some up ∧ up < m.scopes.size := by
    have same := (through.agree m later m' among id there (Scopes.lt_size_of_parent? above)).1
    have above := same.trans above
    exact ⟨above, Nat.lt_trans (through.older m later id up above) there⟩
  have own {m' : State} (among : m' ∈ states) {id : ScopeId} {name : String} {value : Value}
      (there : id < m.scopes.size) (special : name ∈ reserved)
      (bound : m'.scopes.own? id name = some value) : m.scopes.own? id name = some value :=
    ((through.agree m later m' among id there (Scopes.lt_size_of_own? bound)).2 name
      special).trans bound
  induction stands with
  | @input input known =>
    cases input <;> rfl
  | @part v c scope standing whole child level ih =>
    exact (ih inside).congr fun text special =>
      child.depthOf_reserved (through.plain _ whole.seen) level special
  | @block n m₀ body c w receiver around ran ih =>
    obtain ⟨m', among, above⟩ := through.block ran
    obtain ⟨up, there⟩ := parent among inside above
    exact (ih there).inside up fun text _ => depthOf_enter text w.scopes
  | @call n m₀ f body closure arguments receiver declared code ran child ih =>
    obtain ⟨m', among, above⟩ := through.call ran
    obtain ⟨up, there⟩ := parent among inside above
    exact (ih there).inside up fun text special =>
      child.depthOf_body code (through.plain _ declared.seen) special
  | @methods v c s ds outer scope receiver superclass around code declared child rows ih =>
    have plain := through.plain _ around.seen
    have above := around.super_ne_zero through.plain
    cases declared with
    | plain ran here =>
      obtain ⟨this, super⟩ := child.depths_methods code rows plain
      refine ⟨this, ?_⟩
      show depthOf "super" c.walk.scopes ≠ some 1
      rw [super]
      intro found
      obtain ⟨depth, found', same⟩ := Option.map_eq_some_iff.mp found
      exact above (found'.trans (congrArg some (Nat.succ.inj same)))
    | derived ran here evaluated =>
      obtain ⟨this, -⟩ := child.depths_methods code rows plain
      obtain ⟨m', among, bound⟩ := through.declares (.derived ran here evaluated)
      exact ⟨this, own among inside (by simp [reserved]) bound⟩
  | @bound f method o scope superclass declared code binds ih =>
    obtain ⟨m', among, above, bound⟩ := through.binds binds
    obtain ⟨up, there⟩ := parent among inside above
    exact (ih there).bound up (own among inside (by simp [reserved]) bound)

end History

/-! ## What `this` and `super` read -/

section Reads

variable {m : State} {receiver : Option Receiver} {context : Context} {w : Walk} {id : NodeId}
  {line : Nat}

/-- One hop more leads to the parent. -/
theorem ancestor?_parent {scopes : Scopes} {hops : Nat} {scope inner outer : ScopeId}
    (above : scopes.ancestor? hops scope = some inner) (up : scopes.parent? inner = some outer) :
    scopes.ancestor? (hops + 1) scope = some outer := by
  induction hops generalizing scope with
  | zero =>
    cases above
    simp only [Scopes.ancestor?, up]
  | succ hops ih =>
    simp only [Scopes.ancestor?] at above
    cases parent : scopes.parent? scope with
    | none => simp [parent] at above
    | some next =>
      rw [parent] at above
      rw [Scopes.ancestor?, parent]
      exact ih above

/-- Where the scopes carry a receiver, `this` is its object. -/
theorem Carries.this (carries : Carries m w.scopes m.current (.code receiver))
    (sound : Sound m.locals ⟨.expression (.this id line), context, w⟩) (n : Nat) :
    ∃ o superclass, receiver = some ⟨o, superclass⟩ ∧
      evaluate (n + 1) (.this id line) m = .ok (.object o) m := by
  obtain ⟨depth, noted, found⟩ := sound.this
  cases receiver with
  | none =>
    have nowhere : depthOf "this" w.scopes = none := carries
    rw [nowhere] at found
    cases found
  | some receiver =>
    obtain ⟨depth', inner, outer, found', above, bound, -⟩ := carries
    obtain rfl : depth' = depth := Option.some.inj (found'.symm.trans found)
    refine ⟨receiver.object, receiver.superclass, rfl, ?_⟩
    simp only [evaluate, readVariable, noted, Scopes.getAt_of_found above bound]
    rfl

/-- There `super` looks in its superclass, and binds what it finds to its object. -/
theorem Carries.super {name : Name}
    (carries : Carries m w.scopes m.current (.code receiver))
    (sound : Sound m.locals ⟨.expression (.super id line name), context, w⟩) (n : Nat) :
    ∃ o c, receiver = some ⟨o, some c⟩ ∧
      (∀ method, c.method? name.text = some method →
        evaluate (n + 1) (.super id line name) m = methodValue method o m) ∧
      (c.method? name.text = none →
        evaluate (n + 1) (.super id line name) m =
          .error (.fault (.undefinedProperty name.text name.line)) m) := by
  obtain ⟨depth, noted, this, super⟩ := sound.super
  cases receiver with
  | none =>
    have nowhere : depthOf "this" w.scopes = none := carries
    rw [nowhere] at this
    cases this
  | some receiver =>
    obtain ⟨depth', inner, outer, found, above, bound, up, binds⟩ := carries
    obtain rfl : depth' = depth := Option.some.inj (found.symm.trans this)
    obtain ⟨o, superclass⟩ := receiver
    cases superclass with
    -- super was found one scope outside, so there is a superclass
    | none => exact absurd super binds
    | some c =>
      have object := Scopes.getAt_of_found above bound
      have class_ := Scopes.getAt_of_found (ancestor?_parent above up) binds
      refine ⟨o, c, rfl, ?_, ?_⟩
      · intro method found
        simp only [evaluate, readSuper, noted, class_, object, found]
      · intro missing
        simp only [evaluate, readSuper, noted, class_, object, missing]

end Reads

end ClassScript.Machine
