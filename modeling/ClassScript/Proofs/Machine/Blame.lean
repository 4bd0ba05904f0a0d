import ClassScript.Proofs.Machine.Soundness

/-!
# The pieces that runs fail at

Where a run of an accepted program stops with a fault that cites a line, there is a piece of
the program at which it stops: a step of the piece itself fails, or, of a call, the call that
it makes (`Task.FailsItself`, `Moment.fails`). The fault is one that such a piece can raise,
and its line is that of the operator, the name, the closing parenthesis or the superclass
that the piece has for that purpose (`raises_of_fails`).
-/

namespace ClassScript.Machine

open Syntax Parsing Object Binding

/-- What can go wrong at a piece itself, with the line that is cited. -/
inductive Raises : Task → Fault → Prop
  | operand {line e} : Raises (.evaluate (.unary .negate line e)) (.operandNotNumber line)
  | operands {op line a b} : Raises (.evaluate (.binary op line a b)) (.operandsNotNumbers line)
  | sum {line a b} : Raises (.evaluate (.binary .add line a b)) (.operandsNotAddable line)
  | quotient {line a b} : Raises (.evaluate (.binary .divide line a b)) (.divisionByZero line)
  | read {o : Occurrence} :
      Raises (.evaluate (.variable o)) (.undefinedVariable o.name.text o.name.line)
  | write {o : Occurrence} {e} :
      Raises (.evaluate (.assign o e)) (.undefinedVariable o.name.text o.name.line)
  | callee {e line es} : Raises (.evaluate (.call e line es)) (.notCallable line)
  | arity {e line es expected got} :
      Raises (.evaluate (.call e line es)) (.arityMismatch expected got line)
  | host {e line es name message} :
      Raises (.evaluate (.call e line es)) (.host name message line)
  | owner {e} {name : Name} : Raises (.evaluate (.get e name)) (.noProperties name.line)
  | property {e} {name : Name} :
      Raises (.evaluate (.get e name)) (.undefinedProperty name.text name.line)
  | field {o e} {name : Name} : Raises (.evaluate (.set o name e)) (.noFields name.line)
  | method {id line} {name : Name} :
      Raises (.evaluate (.super id line name)) (.undefinedProperty name.text name.line)
  | superclass {name} {o : Occurrence} {ds} :
      Raises (.execute (.classDecl name (some o) ds)) (.notAClass o.name.line)

/-- The task calls a value. -/
def Task.IsCall : Task → Prop
  | .call .. => True
  | _ => False

/-- The task, run with one fuel more than given, stops of itself: at a step of its own, or at
a step of the call that it makes. -/
def Task.FailsItself (t : Task) (n : Nat) (m : State) (e : Stop) : Prop :=
  ¬ t.IsCall ∧ (t.plan.Breaks (tasksAt n) e m ∨
    ∃ f vs line k m₁, n = k + 1 ∧ t.plan.Calls (tasksAt n) (.call f vs line) m₁ m ∧
      (planOfCall f vs line).Breaks (tasksAt k) e m₁)

/-! ## Steps that fail -/

section Steps

variable {m m' : State} {fault : Fault}

theorem liftExcept_fault {α : Type} {r : Except Fault α}
    (h : liftExcept r m = .error (.fault fault) m') : r = .error fault := by
  cases r with
  | ok a => cases h
  | error f => cases h; rfl

theorem stop_fault {α : Type} {f : Fault} (h : (stop f : Run α) m = .error (.fault fault) m') :
    fault = f := by
  cases h
  rfl

/-- Of the prefix operators only the negation fails. -/
theorem applyUnary_fault {op : UnaryOp} {line : Nat} {v : Value}
    (h : applyUnary op line v = .error fault) :
    op = .negate ∧ fault = .operandNotNumber line := by
  cases op with
  | not => cases h
  | negate => cases v <;> cases h <;> exact ⟨rfl, rfl⟩

/-- An operator on numbers fails as its computation does, or for want of numbers. -/
theorem onNumbers_fault {line : Nat} {f : Float → Float → Except Fault Value} {v w : Value}
    (h : onNumbers line f v w = .error fault) :
    fault = .operandsNotNumbers line ∨ ∃ a b, f a b = .error fault := by
  unfold onNumbers at h
  split at h
  · exact .inr ⟨_, _, h⟩
  · exact .inl (Except.error.inj h).symm

/-- An infix operator fails with the fault that its node raises. -/
theorem applyBinary_fault {op : BinaryOp} {line : Nat} {v w : Value}
    (h : applyBinary op line v w = .error fault) (a b : Expr) :
    Raises (.evaluate (.binary op line a b)) fault := by
  -- an operator that is defined on all numbers fails on its operands only
  have plain {f : Float → Float → Value}
      (h : onNumbers line (fun a b => .ok (f a b)) v w = .error fault) :
      Raises (.evaluate (.binary op line a b)) fault := by
    rcases onNumbers_fault h with rfl | ⟨_, _, none⟩
    · exact .operands
    · cases none
  cases op with
  | add =>
    change add line v w = .error fault at h
    unfold add at h
    split at h <;> cases h
    exact .sum
  | divide =>
    rcases onNumbers_fault h with rfl | ⟨x, y, zero⟩
    · exact .operands
    · unfold divide at zero
      split at zero <;> cases zero
      exact .quotient
  | equal => cases h
  | notEqual => cases h
  | _ => exact plain h

/-- A name that is looked up through all scopes is missing by its own name and line. -/
theorem get_fault {scopes : Scopes} {id : ScopeId} {name : String} {line : Nat}
    (h : scopes.get id name line = .error fault) : fault = .undefinedVariable name line := by
  unfold Scopes.get at h
  split at h <;> cases h
  rfl

theorem target_fault {scopes : Scopes} {id : ScopeId} {name : String} {line : Nat}
    (h : scopes.target id name line = .error fault) : fault = .undefinedVariable name line := by
  unfold Scopes.target at h
  split at h <;> cases h
  rfl

/-- Where the table leads, only internal faults are met. -/
theorem ancestor_fault {scopes : Scopes} {hops : Nat} {id : ScopeId}
    (h : scopes.ancestor hops id = .error fault) : fault.line? = none := by
  unfold Scopes.ancestor at h
  split at h <;> cases h
  rfl

/-- Where the hops are known, a missing name is an internal fault, without a line. -/
theorem getAt_fault {scopes : Scopes} {hops : Nat} {id : ScopeId} {name : String}
    (h : scopes.getAt hops id name = .error fault) : fault.line? = none := by
  unfold Scopes.getAt at h
  split at h
  · next f short => cases h; exact ancestor_fault short
  · split at h <;> cases h
    rfl

theorem targetAt_fault {scopes : Scopes} {hops : Nat} {id : ScopeId} {name : String}
    (h : scopes.targetAt hops id name = .error fault) : fault.line? = none := by
  unfold Scopes.targetAt at h
  split at h
  · next f short => cases h; exact ancestor_fault short
  · split at h <;> cases h
    rfl

/-- A variable whose line is cited is one that has no hops. -/
theorem readVariable_fault {id : NodeId} {name : Name} (cites : fault.line? ≠ none)
    (h : readVariable id name m = .error (.fault fault) m') :
    m.locals.depth? id = none ∧ fault = .undefinedVariable name.text name.line := by
  cases depth : m.locals.depth? id with
  | some hops =>
    rw [readVariable_local depth] at h
    exact absurd (getAt_fault (liftExcept_fault h)) cites
  | none =>
    rw [readVariable_global depth] at h
    exact ⟨rfl, get_fault (liftExcept_fault h)⟩

/-- An assignment fails for its own name, or internally. -/
theorem writeVariable_fault {target : Occurrence} {v : Value} (cites : fault.line? ≠ none)
    (h : writeVariable target v m = .error (.fault fault) m') :
    fault = .undefinedVariable target.name.text target.name.line := by
  unfold writeVariable at h
  split at h
  · cases h
  · next f missing =>
    cases h
    unfold writeTarget at missing
    split at missing
    · exact absurd (targetAt_fault missing) cites
    · exact target_fault missing

/-- A call is refused since the value cannot be called, or for the number of arguments. -/
theorem checkCall_fault {f : Value} {vs : List Value} {line : Nat}
    (h : checkCall f vs line m = .error (.fault fault) m') :
    fault = .notCallable line ∨ ∃ expected got, fault = .arityMismatch expected got line := by
  unfold checkCall at h
  generalize f.arity? = arity at h
  cases arity with
  | none => exact .inl (stop_fault h)
  | some expected =>
    dsimp only at h
    split at h
    · cases h
    · exact .inr ⟨_, _, stop_fault h⟩

/-- A call of a host function fails since there is none, or with its own message. -/
theorem callHost_fault {f : HostRef} {vs : List Value} {line : Nat}
    (h : callHost f vs line m = .error (.fault fault) m') :
    fault = .notCallable line ∨ ∃ name message, fault = .host name message line := by
  unfold callHost at h
  generalize m.hosts[f.id]? = action at h
  cases action with
  | none =>
    cases h
    exact .inl rfl
  -- the clock never fails, a computing host fails with its own message
  | some action =>
    cases action with
    | clock => cases h
    | compute run =>
      dsimp only at h
      generalize run vs = result at h
      cases result with
      | ok v => cases h
      | error message =>
        cases h
        exact .inr ⟨_, _, rfl⟩

theorem methodValue_ok (method : Closure) (o : Instance) (m : State) :
    ∃ v m', methodValue method o m = .ok v m' := ⟨_, _, rfl⟩

/-- A property access fails since the value has no properties, or not this one. -/
theorem readProperty_fault {subject : Value} {name : Name}
    (h : readProperty subject name m = .error (.fault fault) m') :
    fault = .noProperties name.line ∨ fault = .undefinedProperty name.text name.line := by
  unfold readProperty at h
  split at h
  · split at h
    · cases h
    · split at h
      · obtain ⟨v, m₁, ok⟩ := methodValue_ok ‹Closure› ‹Instance› m
        rw [ok] at h
        cases h
      · cases h
        exact .inr rfl
  · cases h
    exact .inl rfl

/-- A method of a superclass is missing by its own name and line. -/
theorem readSuper_fault {id : NodeId} {method : Name} (cites : fault.line? ≠ none)
    (h : readSuper id method m = .error (.fault fault) m') :
    fault = .undefinedProperty method.text method.line := by
  -- an internal fault cites no line, so none of them is the fault here
  have internal {f : InternalFault} {m : State}
      (h : (.error (.fault (.internal f)) m : EStateM.Result Stop State Value) =
        .error (.fault fault) m') : False := by
    cases h
    exact cites rfl
  unfold readSuper at h
  split at h
  · exact (internal h).elim
  · split at h
    · next f missing => cases h; exact absurd (getAt_fault missing) cites
    · split at h
      · exact (internal h).elim
      · split at h
        · next f missing => cases h; exact absurd (getAt_fault missing) cites
        · split at h
          · obtain ⟨v, m₁, ok⟩ := methodValue_ok ‹Closure› ‹Instance› m
            rw [ok] at h
            cases h
          · cases h
            rfl
        · exact (internal h).elim
    · exact (internal h).elim

end Steps

/-! ## Plans that stop of themselves -/

namespace Plan

variable {α : Type} {tasks : (t : Task) → Run t.Result} {e : Stop} {m : State}

/-- A plan that is one step stops of itself where the step does. -/
theorem breaks_last {x : Run α} : (prim x).Breaks tasks e m ↔ ∃ m', x m = .error e m' := by
  unfold prim Breaks
  cases x m with
  | ok b m' => simp [Breaks]
  | error e' m' => simp

/-- A plan that is one call does not stop of itself. -/
theorem not_breaks_sub {t : Task} : ¬ (sub t).Breaks tasks e m := by
  intro broken
  simp only [sub, Breaks, id] at broken
  split at broken <;> exact broken

/-- A plan that runs one task in another scope does not fail of itself. -/
theorem not_breaks_inside {scope : ScopeId} {t : Task} :
    ¬ (inside scope t).Breaks tasks e m := by
  intro broken
  simp only [inside, Breaks] at broken
  split at broken <;> exact broken

/-- Giving a result does not stop a plan. -/
theorem breaks_of_ret {β : Type} {p : Plan α} {b : β}
    (broken : (p >>= fun _ => ret b).Breaks tasks e m) : p.Breaks tasks e m := by
  induction p generalizing m with
  | ret a => exact broken
  | step x next ih =>
    simp only [bind_step, Breaks] at broken ⊢
    cases hx : x m with
    | ok a m' => rw [hx] at broken; exact ih a broken
    | error e' m' => rw [hx] at broken; exact broken
  | call enter leave t next ih =>
    simp only [bind_call, Breaks] at broken ⊢
    cases ht : tasks t (enter m) with
    | ok a m' => rw [ht] at broken; exact ih a broken
    | error e' m' => rw [ht] at broken; exact broken

/-- Behind a call in another scope a plan stops of itself where the rest of it does. -/
theorem breaks_inside {scope : ScopeId} {t : Task} {f : t.Result → Plan α}
    (broken : (inside scope t >>= f).Breaks tasks e m) :
    ∃ b m', (f b).Breaks tasks e m' := by
  simp only [inside, bind_call, bind_ret, Breaks] at broken
  split at broken
  · exact ⟨_, _, broken⟩
  · exact broken.elim

end Plan

section Pieces

open Plan

variable {inputs : List Input} {tasks : (t : Task) → Run t.Result} {m : State} {fault : Fault}

/-- An expression other than a call. A call can fail at the call that it makes. -/
theorem raises_evaluate {e : Expr} (healthy : Healthy inputs m) (here : AtExpr inputs m e)
    (cites : fault.line? ≠ none)
    (broken : (Task.planOfExpr e).Breaks tasks (.fault fault) m) : Raises (.evaluate e) fault := by
  cases e with
  | literal value => exact broken.elim
  | group inner => exact (not_breaks_sub broken).elim
  | unary op line operand =>
    obtain ⟨v, m₁, -, last⟩ := breaks_sub.mp broken
    obtain ⟨m₂, failed⟩ := breaks_last.mp last
    obtain ⟨rfl, rfl⟩ := applyUnary_fault (liftExcept_fault failed)
    exact .operand
  | binary op line left right =>
    obtain ⟨v, m₁, -, rest⟩ := breaks_sub.mp broken
    obtain ⟨w, m₂, -, last⟩ := breaks_sub.mp rest
    obtain ⟨m₃, failed⟩ := breaks_last.mp last
    exact applyBinary_fault (liftExcept_fault failed) left right
  | logical op left right =>
    obtain ⟨v, m₁, -, rest⟩ := breaks_sub.mp broken
    split at rest
    · exact rest.elim
    · exact (not_breaks_sub rest).elim
  | «variable» o =>
    obtain ⟨m₁, failed⟩ := breaks_last.mp broken
    obtain ⟨-, rfl⟩ := readVariable_fault cites failed
    exact .read
  | assign target value =>
    obtain ⟨v, m₁, -, rest⟩ := breaks_sub.mp broken
    rcases breaks_prim.mp rest with ⟨_, _, _, none⟩ | ⟨m₂, failed⟩
    · exact none.elim
    · obtain rfl := writeVariable_fault cites failed
      exact .write
  | call callee line arguments =>
    obtain ⟨f, m₁, -, rest⟩ := breaks_sub.mp broken
    obtain ⟨vs, m₂, -, rest⟩ := breaks_sub.mp rest
    rcases breaks_prim.mp rest with ⟨_, _, _, made⟩ | ⟨m₃, failed⟩
    · exact (not_breaks_sub made).elim
    · rcases checkCall_fault failed with rfl | ⟨expected, got, rfl⟩
      · exact .callee
      · exact .arity
  | get object name =>
    obtain ⟨v, m₁, -, last⟩ := breaks_sub.mp broken
    obtain ⟨m₂, failed⟩ := breaks_last.mp last
    rcases readProperty_fault failed with rfl | rfl
    · exact .owner
    · exact .property
  | set object name value =>
    obtain ⟨o, m₁, -, rest⟩ := breaks_sub.mp broken
    have refused
        (last : (prim (stop (.noFields name.line)) : Plan Value).Breaks tasks (.fault fault) m₁) :
        Raises (.evaluate (.set object name value)) fault := by
      obtain ⟨m₂, failed⟩ := breaks_last.mp last
      obtain rfl := stop_fault failed
      exact .field
    cases o with
    | object o =>
      obtain ⟨v, m₂, -, rest⟩ := breaks_sub.mp rest
      rcases breaks_prim.mp rest with ⟨_, _, _, none⟩ | ⟨_, none⟩
      · exact none.elim
      · cases none
    | _ => exact refused rest
  | this id line =>
    -- the table has a depth for every `this`
    obtain ⟨m₁, failed⟩ := breaks_last.mp broken
    obtain ⟨unknown, -⟩ := readVariable_fault cites failed
    obtain ⟨⟨node, context, w⟩, seen, node', -⟩ := here
    rcases evaluates?_eq node' with rfl | ⟨_, _, -, none⟩
    · obtain ⟨depth, noted, -⟩ := (healthy.sound _ seen).this
      rw [noted] at unknown
      cases unknown
    · cases none
  | super id line method =>
    obtain ⟨m₁, failed⟩ := breaks_last.mp broken
    obtain rfl := readSuper_fault cites failed
    exact .method

/-- A class is made: its name is bound before it is written to. -/
theorem not_breaks_class {name : Name} {superclass : Option ObjectClass}
    {ds : List FunctionDecl} {e : Stop} (inside : m.current < m.scopes.size) :
    ¬ (Task.planOfClass name superclass ds).Breaks tasks e m := by
  intro broken
  -- the class name is bound first, so the assignment at the end finds it
  have bound : ((m.define m.current name.text .nil).scopes.own? m.current name.text).isSome := by
    simp [State.define, Scopes.own?_define, inside]
  rcases breaks_prim.mp broken with ⟨_, _, ⟨⟩, rest⟩ | ⟨_, none⟩
  · let named := m.define m.current name.text .nil
    have grows : Grows [] named (left (classScope superclass named)) :=
      Leaves.classScope superclass named
    rcases breaks_prim.mp rest with ⟨scope, m₁, opened, rest⟩ | ⟨_, none⟩
    · rw [opened] at grows
      have grows : Grows [] named m₁ := grows
      rcases breaks_prim.mp rest with ⟨cls, _, ⟨⟩, last⟩ | ⟨_, none⟩
      · obtain ⟨m₂, failed⟩ := breaks_last.mp last
        have there : (m₁.scopes.own? m₁.current name.text).isSome := by
          rw [grows.current]
          exact grows.scopes.bound _ _ bound
        let taken := { m₁ with nextId := m₁.nextId + 1 }
        cases (assign_eq_define (m := taken) there _).symm.trans failed
      · cases none
    · cases superclass <;> cases none
  · cases none

/-- A statement, once its parts have ended. -/
theorem raises_execute {s : Stmt} (inside : m.current < m.scopes.size)
    (cites : fault.line? ≠ none)
    (kept : ∀ e v m', tasks (.evaluate e) m = .ok v m' → m'.current < m'.scopes.size)
    (broken : (Task.planOfStmt s).Breaks tasks (.fault fault) m) : Raises (.execute s) fault := by
  cases s with
  | expression e =>
    obtain ⟨v, m₁, -, none⟩ := breaks_sub.mp broken
    exact none.elim
  | print e =>
    obtain ⟨v, m₁, -, rest⟩ := breaks_sub.mp broken
    rcases breaks_prim.mp rest with ⟨_, _, _, none⟩ | ⟨m₂, failed⟩
    · exact none.elim
    -- a print fails with the sink, which cites no line
    · unfold print at failed
      dsimp only at failed
      split at failed <;> cases failed
      exact absurd rfl cites
  | var name initializer =>
    obtain ⟨v, m₁, -, rest⟩ := breaks_sub.mp broken
    rcases breaks_prim.mp rest with ⟨_, _, _, none⟩ | ⟨_, none⟩
    · exact none.elim
    · cases none
  | block body =>
    rcases breaks_prim.mp broken with ⟨_, _, _, none⟩ | ⟨_, none⟩
    · exact (not_breaks_inside none).elim
    · cases none
  | branch condition yes no =>
    obtain ⟨v, m₁, -, rest⟩ := breaks_sub.mp broken
    split at rest
    · exact (not_breaks_sub rest).elim
    · cases no with
      | none => exact rest.elim
      | some no => exact (not_breaks_sub rest).elim
  | loop condition body increment => exact (not_breaks_sub broken).elim
  | function declaration =>
    rcases breaks_prim.mp broken with ⟨_, _, _, rest⟩ | ⟨_, none⟩
    · rcases breaks_prim.mp rest with ⟨_, _, _, none⟩ | ⟨_, none⟩
      · exact none.elim
      · cases none
    · cases none
  | «return» line value =>
    obtain ⟨v, m₁, -, none⟩ := breaks_sub.mp broken
    exact none.elim
  | «break» line => exact broken.elim
  | «continue» line => exact broken.elim
  | classDecl name superclass methods =>
    -- with the superclass at hand the class itself cannot fail
    have made {c : Option ObjectClass} {m : State} (inside : m.current < m.scopes.size) :
        ¬ (Task.planOfClass name c methods >>= fun _ => pure Completion.normal).Breaks tasks
          (.fault fault) m := fun broken => not_breaks_class inside (breaks_of_ret broken)
    cases superclass with
    | none => exact (made inside broken).elim
    | some o =>
      obtain ⟨v, m₁, ran, rest⟩ := breaks_sub.mp broken
      rcases breaks_prim.mp rest with ⟨c, m₂, found, rest⟩ | ⟨m₂, failed⟩
      · have same : m₂ = m₁ := by
          cases v <;> cases found
          rfl
        exact (made (same ▸ kept _ v m₁ ran) rest).elim
      -- the one fault of a statement itself: a superclass that is not a class
      · have refused : fault = .notAClass o.name.line := by
          cases v <;> cases failed <;> rfl
        exact refused ▸ .superclass

/-- The result of a call fails internally only. -/
theorem callResult_fault {c : Closure} {completion : Completion} {m' : State}
    (h : callResult c completion m = .error (.fault fault) m') : fault.line? = none := by
  unfold callResult at h
  split at h
  · exact getAt_fault (liftExcept_fault h)
  · split at h
    · cases h
    · cases h
    · obtain rfl := stop_fault h
      rfl
    · obtain rfl := stop_fault h
      rfl

/-- What a task raises of itself that is no call. -/
theorem raises_of_breaks {t : Task} {n : Nat} (healthy : Healthy inputs m)
    (ready : t.Ready inputs m) (cites : fault.line? ≠ none) (piece : ¬ t.IsCall)
    (broken : t.plan.Breaks (Task.tasksAt n) (.fault fault) m) : Raises t fault := by
  cases t with
  | evaluate e => exact raises_evaluate healthy ready cites broken
  | evaluateAll es =>
    cases es with
    | nil => exact broken.elim
    | cons e rest =>
      obtain ⟨v, m₁, -, rest⟩ := breaks_sub.mp broken
      obtain ⟨vs, m₂, -, none⟩ := breaks_sub.mp rest
      exact none.elim
  | call f vs line => exact absurd trivial piece
  -- what a function hands back fails only by an internal fault
  | invoke c vs =>
    rcases breaks_prim.mp broken with ⟨scope, m₁, -, rest⟩ | ⟨_, none⟩
    · obtain ⟨completion, m₂, last⟩ := breaks_inside rest
      obtain ⟨m₃, failed⟩ := breaks_last.mp last
      exact absurd (callResult_fault failed) cites
    · cases none
  | execute s =>
    obtain ⟨v, -, -, here⟩ := ready
    have inside := here.inside healthy.inside
    refine raises_execute inside cites (fun e v m' ran => ?_) broken
    have grows : Grows [] m m' := grows_of_ok (t := .evaluate e) ran
    rw [grows.current]
    exact Nat.lt_of_lt_of_le inside grows.scopes.size
  | evaluate? e =>
    cases e with
    | none => exact broken.elim
    | some e => exact (not_breaks_sub broken).elim
  | executeAll ss =>
    cases ss with
    | nil => exact broken.elim
    | cons s rest =>
      obtain ⟨completion, m₁, -, rest⟩ := breaks_sub.mp broken
      cases completion with
      | normal => exact (not_breaks_sub rest).elim
      | _ => exact rest.elim
  | executeLoop condition body increment =>
    obtain ⟨v, m₁, -, rest⟩ := breaks_sub.mp broken
    split at rest
    · obtain ⟨completion, m₂, -, rest⟩ := breaks_sub.mp rest
      -- the same round follows a body that ended normally and one that continued
      have again (rest : (Plan.sub (.evaluate? increment) >>= fun _ =>
          Plan.sub (.executeLoop condition body increment) : Plan Completion).Breaks
            (Task.tasksAt n) (.fault fault) m₂) : False := by
        obtain ⟨_, _, -, none⟩ := breaks_sub.mp rest
        exact not_breaks_sub none
      cases completion with
      | normal => exact (again rest).elim
      | continued => exact (again rest).elim
      | broke => exact rest.elim
      | returned v => exact rest.elim
    · exact rest.elim

/-- What the call of a value raises, at the line that it is given. -/
theorem raises_of_call {f : Value} {vs : List Value} {line : Nat} (callee : Expr)
    (es : List Expr) (broken : (Task.planOfCall f vs line).Breaks tasks (.fault fault) m) :
    Raises (.evaluate (.call callee line es)) fault := by
  have refused (last : (prim (stop (.notCallable line)) : Plan Value).Breaks tasks
      (.fault fault) m) : Raises (.evaluate (.call callee line es)) fault := by
    obtain ⟨m₁, failed⟩ := breaks_last.mp last
    obtain rfl := stop_fault failed
    exact .callee
  cases f with
  | host f =>
    obtain ⟨m₁, failed⟩ := breaks_last.mp broken
    rcases callHost_fault failed with rfl | ⟨name, message, rfl⟩
    · exact .callee
    · exact .host
  | function id c => exact (not_breaks_sub broken).elim
  -- making an object and calling its initializer are tasks of their own, so nothing fails here
  | cls c =>
    rcases breaks_prim.mp broken with ⟨o, m₁, -, rest⟩ | ⟨_, none⟩
    · cases h : c.method? initializerName with
      | none =>
        rw [h] at rest
        exact rest.elim
      | some initializer =>
        rw [h] at rest
        rcases breaks_prim.mp rest with ⟨bound, m₂, -, rest⟩ | ⟨_, none⟩
        · obtain ⟨_, _, -, none⟩ := breaks_sub.mp rest
          exact none.elim
        · cases none
    · cases none
  | _ => exact refused broken

end Pieces

/-! ## The way to a failing piece -/

section Calls

open Plan

/-- The task, if it calls a value, does so for a call expression, at its line. -/
def CalledFor (t u : Task) : Prop :=
  ∀ f vs line, u = .call f vs line → ∃ callee es, t = .evaluate (.call callee line es)

/-- Where the plan of an expression calls a value, the expression is a call, on that line. -/
theorem callsOnly_expression (e : Expr) :
    (Task.planOfExpr e).CallsOnly (CalledFor (.evaluate e)) := by
  cases e with
  | call callee line es =>
    -- the call of the callee comes after the callee and the arguments
    refine ⟨nofun, fun f => ⟨nofun, fun vs _ => ⟨?_, fun _ => trivial⟩⟩⟩
    rintro _ _ _ ⟨⟩
    exact ⟨callee, es, rfl⟩
  | logical op left right =>
    refine ⟨nofun, fun v => ?_⟩
    show CallsOnly _ (if decides op v then _ else _)
    split
    · trivial
    · exact ⟨nofun, fun _ => trivial⟩
  | set object name value =>
    refine ⟨nofun, fun o => ?_⟩
    cases o with
    | object o => exact ⟨nofun, fun _ _ => trivial⟩
    | _ => exact fun _ => trivial
  | _ => simp [Task.planOfExpr, sub, prim, CallsOnly, CalledFor]

/-- The plan of a statement calls no values. -/
theorem callsOnly_statement (s : Stmt) :
    (Task.planOfStmt s).CallsOnly (CalledFor (.execute s)) := by
  cases s with
  | branch condition yes no =>
    refine ⟨nofun, fun v => ?_⟩
    show CallsOnly _ (if v.isTruthy then _ else _)
    split
    · exact ⟨nofun, fun _ => trivial⟩
    · cases no with
      | none => trivial
      | some no => exact ⟨nofun, fun _ => trivial⟩
  | classDecl name superclass methods =>
    cases superclass with
    | none => exact fun _ _ _ _ => trivial
    | some o => exact ⟨nofun, fun _ _ _ _ _ _ => trivial⟩
  | _ => simp [Task.planOfStmt, sub, prim, inside, CallsOnly, CalledFor]

/-- Values are called for call expressions only. -/
theorem callsOnly_task (t : Task) : t.plan.CallsOnly (CalledFor t) := by
  cases t with
  | evaluate e => exact callsOnly_expression e
  | evaluateAll es =>
    cases es with
    | nil => trivial
    | cons e rest => exact ⟨nofun, fun _ => ⟨nofun, fun _ => trivial⟩⟩
  | call f vs line =>
    cases f with
    | cls c =>
      intro o
      cases c.method? initializerName with
      | some initializer => exact fun _ => ⟨nofun, fun _ => trivial⟩
      | none => trivial
    | function id closure => exact ⟨nofun, fun _ => trivial⟩
    | _ => exact fun _ => trivial
  | invoke c vs => exact fun _ => ⟨nofun, fun _ _ => trivial⟩
  | execute s => exact callsOnly_statement s
  | evaluate? e =>
    cases e with
    | none => trivial
    | some e => exact ⟨nofun, fun _ => trivial⟩
  | executeAll ss =>
    cases ss with
    | nil => trivial
    | cons s rest =>
      refine ⟨nofun, fun completion => ?_⟩
      cases completion with
      | normal => exact ⟨nofun, fun _ => trivial⟩
      | _ => trivial
  | executeLoop condition body increment =>
    refine ⟨nofun, fun v => ?_⟩
    show CallsOnly _ (if v.isTruthy then _ else _)
    split
    · refine ⟨nofun, fun completion => ?_⟩
      have again : CallsOnly (CalledFor (.executeLoop condition body increment))
          (Plan.sub (.evaluate? increment) >>= fun _ =>
            Plan.sub (.executeLoop condition body increment) : Plan Completion) :=
        ⟨nofun, fun _ => ⟨nofun, fun _ => trivial⟩⟩
      cases completion with
      | normal => exact again
      | continued => exact again
      | broke => trivial
      | returned v => trivial
    · trivial

end Calls

section Failing

variable {fuel n : Nat} {t : Task} {m m' : State} {e : Stop}

/-- A value is called by a call expression, at its line. -/
theorem called_for {tasks : (t : Task) → Run t.Result} {f : Value} {vs : List Value}
    {line : Nat} {m₁ : State} (calls : t.plan.Calls tasks (.call f vs line) m₁ m) :
    ∃ callee es, t = .evaluate (.call callee line es) :=
  (callsOnly_task t).of_calls calls f vs line rfl

/-- A run that stops with a fault has a piece at which it stops. -/
theorem Moment.fails (piece : ¬ t.IsCall) (faulty : e ≠ .outOfFuel)
    (stops : t.run fuel m = .error e m') :
    ∃ n u m₁, Moment fuel t m (n + 1) u m₁ ∧ u.FailsItself n m₁ e := by
  obtain ⟨n, u, m₁, moment, broken⟩ := Moment.of_error faulty stops
  by_cases call : u.IsCall
  · cases u with
    | call f vs line =>
      cases moment with
      | start => exact absurd call piece
      | called before calls =>
        obtain ⟨callee, es, rfl⟩ := called_for calls
        exact ⟨n + 1, _, _, before, nofun, .inr ⟨f, vs, line, n, m₁, rfl, calls, broken⟩⟩
    | _ => exact call.elim
  · exact ⟨n, u, m₁, moment, call, .inl broken⟩

/-- What a piece raises at which a run stops, if the fault cites a line. -/
theorem raises_of_fails {inputs : List Input} {fault : Fault} (healthy : Healthy inputs m)
    (ready : t.Ready inputs m) (cites : fault.line? ≠ none)
    (fails : t.FailsItself n m (.fault fault)) : Raises t fault := by
  rcases fails.2 with broken | ⟨f, vs, line, k, m₁, rfl, calls, broken⟩
  · exact raises_of_breaks healthy ready cites fails.1 broken
  · obtain ⟨callee, es, rfl⟩ := called_for calls
    exact raises_of_call callee es broken

/-- A task that raises something is a piece of a program. -/
theorem Raises.piece {fault : Fault} (raises : Raises t fault) :
    (∃ e, t = .evaluate e) ∨ ∃ s, t = .execute s := by
  cases raises <;> first | exact .inl ⟨_, rfl⟩ | exact .inr ⟨_, rfl⟩

end Failing

end ClassScript.Machine
