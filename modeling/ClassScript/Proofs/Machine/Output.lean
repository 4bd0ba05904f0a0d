import ClassScript.Proofs.Machine.Frame
import ClassScript.Proofs.Machine.Steps

/-!
# Output

Of all steps only `print` looks at the sink: the others do the same on any sink and leave it
alone (`Blind`), and so do all plans but that of a print statement, up to the tasks that they
call (`mute_plan`). So a run never takes back what was written: it only adds to the output,
however it ends, and a sink without a limit stays one (`adds_run`).
-/

namespace ClassScript.Machine

open Syntax Object

/-- More may have been written, and no limit was set. -/
structure Sink.Onto (before after : Sink) : Prop where
  written : ∃ bytes, after.written = before.written ++ bytes
  unlimited : before.room = none → after.room = none

namespace Sink.Onto

variable {a b c : Sink}

theorem refl (a : Sink) : a.Onto a := ⟨⟨.empty, by simp⟩, fun none => none⟩

/-- What stands behind something stands behind all that this stands behind. -/
theorem trans (first : a.Onto b) (second : b.Onto c) : a.Onto c where
  written := by
    obtain ⟨bytes, same⟩ := first.written
    obtain ⟨more, same'⟩ := second.written
    exact ⟨bytes ++ more, by rw [same', same, ByteArray.append_assoc]⟩
  unlimited none := second.unlimited (first.unlimited none)

/-- What is written stands behind what was written before, and a sink without bound stays so. -/
theorem write (a : Sink) (bytes : ByteArray) : a.Onto (a.write bytes).2 := by
  unfold Sink.write
  cases room : a.room with
  | none => exact ⟨⟨bytes, rfl⟩, fun _ => rfl⟩
  | some n =>
    simp only
    split
    · exact ⟨⟨bytes, rfl⟩, fun none => nomatch room.symm.trans none⟩
    · exact ⟨⟨_, rfl⟩, fun none => nomatch room.symm.trans none⟩

end Sink.Onto

/-- The second machine has written what the first one has, and maybe more. -/
def Adds (m m' : State) : Prop := m.sink.Onto m'.sink

theorem Adds.of_eq {m m' : State} (same : m'.sink = m.sink) : Adds m m' := by
  rw [Adds, same]
  exact .refl _

/-- An outcome with another machine. -/
def onState {α : Type} (f : State → State) :
    EStateM.Result Stop State α → EStateM.Result Stop State α
  | .ok a m => .ok a (f m)
  | .error e m => .error e (f m)

theorem left_onState {α : Type} (f : State → State) (r : EStateM.Result Stop State α) :
    left (onState f r) = f (left r) := by
  cases r <;> rfl

namespace State

def withSink (m : State) (sink : Sink) : State := { m with sink }

@[simp] theorem withSink_sink (m : State) (sink : Sink) : (m.withSink sink).sink = sink := rfl

@[simp] theorem withSink_withSink (m : State) (sink sink' : Sink) :
    (m.withSink sink).withSink sink' = m.withSink sink' := rfl

@[simp] theorem withSink_self (m : State) : m.withSink m.sink = m := rfl

end State

/-! ## Steps that do not look at the sink -/

/-- The sink is as it was, however the step ends. -/
def Quiet {α : Type} (x : Run α) : Prop := ∀ m, (left (x m)).sink = m.sink

/-- The step does the same on any sink, and leaves it alone. -/
def Blind {α : Type} (x : Run α) : Prop :=
  ∀ m sink, x (m.withSink sink) = onState (·.withSink sink) (x m)

namespace Blind

variable {α : Type}

/-- A run that cannot see the sink writes nothing to it. -/
theorem quiet {x : Run α} (blind : Blind x) : Quiet x := by
  intro m
  have same := blind m m.sink
  rw [State.withSink_self] at same
  rw [same, left_onState]
  rfl

theorem liftExcept (result : Except Fault α) : Blind (liftExcept result) := by
  intro m sink
  cases result <;> rfl

theorem readVariable (id : NodeId) (name : Name) : Blind (readVariable id name) :=
  fun m sink => Blind.liftExcept _ m sink

/-- An assignment cannot see the sink. -/
theorem writeVariable (target : Occurrence) (value : Value) :
    Blind (writeVariable target value) := by
  intro m sink
  have same : writeTarget (m.withSink sink) target = writeTarget m target := rfl
  unfold Machine.writeVariable
  rw [same]
  cases writeTarget m target <;> rfl

theorem assign (name : Name) (value : Value) : Blind (assign name value) := by
  intro m sink
  have same : (m.withSink sink).scopes.target (m.withSink sink).current name.text name.line =
      m.scopes.target m.current name.text name.line := rfl
  unfold Machine.assign
  rw [same]
  cases m.scopes.target m.current name.text name.line <;> rfl

theorem methodValue (method : Closure) (o : Instance) : Blind (methodValue method o) :=
  fun _ _ => rfl

/-- Nor can a property access. -/
theorem readProperty (subject : Value) (name : Name) : Blind (readProperty subject name) := by
  intro m sink
  cases subject with
  | object o =>
    have same : (m.withSink sink).field? o name.text = m.field? o name.text := rfl
    simp only [Machine.readProperty, same]
    cases m.field? o name.text with
    | some value => rfl
    | none => cases o.cls.method? name.text <;> rfl
  | _ => rfl

/-- Nor can the access to a method of a superclass. -/
theorem readSuper (id : NodeId) (method : Name) : Blind (readSuper id method) := by
  intro m sink
  have alike : Alike m (m.withSink sink) := ⟨rfl, rfl, rfl⟩
  rcases readSuper_cases id method m with ⟨_, _, _, _, -, -, -, read⟩ | ⟨fault, read⟩
  · rw [read _ alike, read m (.refl m)]
    rfl
  · rw [read _ alike, read m (.refl m)]
    rfl

/-- A host function gets the machine's clock at most. -/
theorem callHost (f : HostRef) (arguments : List Value) (line : Nat) :
    Blind (callHost f arguments line) := by
  intro m sink
  have same : (m.withSink sink).hosts[f.id]? = m.hosts[f.id]? := rfl
  unfold Machine.callHost
  rw [same]
  cases m.hosts[f.id]? with
  | none => rfl
  | some action =>
    cases action with
    | clock => rfl
    | compute run =>
      simp only
      cases run arguments <;> rfl

theorem checkCall (callee : Value) (arguments : List Value) (line : Nat) :
    Blind (checkCall callee arguments line) := by
  intro m sink
  unfold Machine.checkCall
  cases callee.arity? with
  | none => rfl
  | some expected =>
    simp only
    split <;> rfl

theorem callResult (closure : Closure) (completion : Completion) :
    Blind (callResult closure completion) := by
  intro m sink
  unfold Machine.callResult
  split
  · exact Blind.liftExcept _ m sink
  · cases completion <;> rfl

theorem asSuperclass (value : Value) (line : Nat) : Blind (asSuperclass value line) := by
  intro m sink
  cases value <;> rfl

theorem classScope (superclass : Option ObjectClass) : Blind (classScope superclass) := by
  intro m sink
  cases superclass <;> rfl

/-- To bind parameters needs no sink. -/
theorem callScope (closure : Closure) (arguments : List Value) :
    Blind (callScope closure arguments) := by
  have bound (scope : ScopeId) (sink : Sink) (bindings : List (Name × Value)) (m : State) :
      bindAll scope bindings (m.withSink sink) = (bindAll scope bindings m).withSink sink := by
    induction bindings generalizing m with
    | nil => rfl
    | cons binding rest ih => exact ih (m.define scope binding.1.text binding.2)
  intro m sink
  rw [callScope_eq, callScope_eq]
  exact congrArg (EStateM.Result.ok _)
    (bound _ sink _ (m.pushScope (some closure.scope)).2)

end Blind

/-! ## Plans that add to the output -/

/-- The plan only adds to the output, if the tasks that it calls do. -/
def Plan.Adds {α : Type} (p : Plan α) : Prop :=
  ∀ tasks : (t : Task) → Run t.Result, (∀ t m, Machine.Adds m (left (tasks t m))) →
    ∀ m, Machine.Adds m (left (p.run tasks m))

namespace Plan.Adds

variable {α β : Type}

theorem ret (a : α) : (Plan.ret a).Adds := fun _ _ _ => .of_eq rfl

theorem print (value : Value) : (Plan.prim (print value)).Adds := by
  intro tasks _ m
  rw [run_prim]
  have writes := Sink.Onto.write m.sink (value.display ++ "\n").toUTF8
  unfold Machine.print
  simp only
  split <;> exact writes

theorem sub (t : Task) : (Plan.sub t).Adds := by
  intro tasks adds m
  rw [run_sub]
  exact adds t m

/-- Plans add to the output one after the other. -/
theorem bind {p : Plan β} {f : β → Plan α} (first : p.Adds) (rest : ∀ b, (f b).Adds) :
    (p >>= f).Adds := by
  intro tasks adds m
  have before := first tasks adds m
  rw [run_bind]
  show Machine.Adds m (left (EStateM.bind _ _ m))
  unfold EStateM.bind
  cases ended : p.run tasks m with
  | ok b m' =>
    rw [ended] at before
    exact before.trans (rest b tasks adds m')
  | error e m' => rw [ended] at before; exact before

end Plan.Adds

/-! ## Plans that do not print -/

/-- Around a call nothing changes but the current scope. -/
def Moves (enter : State → State) (leave : State → State → State) : Prop :=
  (enter = id ∧ leave = fun _ m => m) ∨
    ∃ scope, enter = (fun m => { m with current := scope }) ∧
      leave = fun m m' => { m' with current := m.current }

/-- No step of the plan looks at the sink. Tasks that it calls may. -/
def Plan.Mute {α : Type} : Plan α → Prop
  | .ret _ => True
  | .step x next => Blind x ∧ ∀ b, (next b).Mute
  | .call enter leave _ next => Moves enter leave ∧ ∀ b, (next b).Mute

namespace Plan.Mute

variable {α β : Type}

theorem ret (a : α) : (Plan.ret a).Mute := trivial

theorem prim {x : Run α} (blind : Blind x) : (Plan.prim x).Mute := ⟨blind, ret⟩

theorem sub (t : Task) : (Plan.sub t).Mute := ⟨.inl ⟨rfl, rfl⟩, ret⟩

theorem inside (scope : ScopeId) (t : Task) : (Plan.inside scope t).Mute :=
  ⟨.inr ⟨scope, rfl, rfl⟩, ret⟩

theorem bind {p : Plan β} {f : β → Plan α} (first : p.Mute) (rest : ∀ b, (f b).Mute) :
    (p >>= f).Mute := by
  induction p with
  | ret a => exact rest a
  | step x next ih => exact ⟨first.1, fun b => ih b (first.2 b)⟩
  | call enter leave t next ih => exact ⟨first.1, fun b => ih b (first.2 b)⟩

/-- What a plan writes that does not print is written by the tasks that it calls. -/
theorem adds {p : Plan α} (mute : p.Mute) : p.Adds := by
  intro tasks adds m
  induction p generalizing m with
  | ret a => exact .of_eq rfl
  | step x next ih =>
    have quiet := mute.1.quiet m
    simp only [Plan.run]
    cases hx : x m with
    | ok b m' =>
      rw [hx] at quiet
      exact (Machine.Adds.of_eq quiet).trans (ih b (mute.2 b) m')
    | error e m' =>
      rw [hx] at quiet
      exact .of_eq quiet
  | call enter leave t next ih =>
    -- going to another scope and back leaves the sink as it is
    have enters : (enter m).sink = m.sink := by
      rcases mute.1 with ⟨rfl, -⟩ | ⟨scope, rfl, -⟩ <;> rfl
    have leaves (m' : State) : (leave m m').sink = m'.sink := by
      rcases mute.1 with ⟨-, rfl⟩ | ⟨scope, -, rfl⟩ <;> rfl
    have run := adds t (enter m)
    rw [Machine.Adds, enters] at run
    simp only [Plan.run]
    cases ht : tasks t (enter m) with
    | ok b m' =>
      rw [ht] at run
      have rest := ih b (mute.2 b) (leave m m')
      rw [Machine.Adds, leaves] at rest
      exact run.trans rest
    | error e m' =>
      rw [ht] at run
      show m.sink.Onto (leave m m').sink
      rw [leaves]
      exact run

end Plan.Mute

section Plans

open Plan.Mute

/-- An expression prints through calls only. -/
theorem mute_planOfExpr (e : Expr) : (Task.planOfExpr e).Mute := by
  cases e with
  | literal value => exact ret _
  | group inner => exact sub _
  | unary op line operand => exact (sub _).bind fun _ => prim (.liftExcept _)
  | binary op line left right =>
    exact (sub _).bind fun _ => (sub _).bind fun _ => prim (.liftExcept _)
  | logical op left right =>
    refine (sub _).bind fun a => ?_
    split
    · exact ret a
    · exact sub _
  | «variable» occurrence => exact prim (.readVariable _ _)
  | assign target value =>
    exact (sub _).bind fun v => (prim (.writeVariable target v)).bind fun _ => ret v
  | call callee line arguments =>
    exact (sub _).bind fun f => (sub _).bind fun vs =>
      (prim (.checkCall f vs line)).bind fun _ => sub (.call f vs line)
  | get object name => exact (sub _).bind fun o => prim (.readProperty o name)
  | set object name value =>
    refine (sub _).bind fun o => ?_
    cases o with
    -- a field is stored in the heap of objects, away from the sink
    | object o => exact (sub _).bind fun v => (prim fun _ _ => rfl).bind fun _ => ret v
    | _ => exact prim fun _ _ => rfl
  | this id line => exact prim (.readVariable _ _)
  | super id line method => exact prim (.readSuper id method)

/-- A call prints through the body that it runs. -/
theorem mute_planOfCall (f : Value) (vs : List Value) (line : Nat) :
    (Task.planOfCall f vs line).Mute := by
  cases f with
  | host f => exact prim (.callHost f vs line)
  | function id c => exact sub _
  | cls c =>
    refine (prim fun _ _ => rfl).bind fun o => ?_
    cases c.method? initializerName with
    | some initializer =>
      exact (prim fun _ _ => rfl).bind fun bound =>
        (sub (.invoke bound vs)).bind fun _ => ret _
    | none => exact ret _
  | _ => exact prim fun _ _ => rfl

theorem mute_planOfClass (name : Name) (superclass : Option ObjectClass)
    (methods : List FunctionDecl) : (Task.planOfClass name superclass methods).Mute :=
  (prim fun _ _ => rfl).bind fun _ => (prim (.classScope superclass)).bind fun _ =>
    (prim fun _ _ => rfl).bind fun cls => prim (.assign name (.cls cls))

/-- Of the statements only `print` writes something itself. -/
theorem mute_planOfStmt {s : Stmt} (other : ∀ e, s ≠ .print e) : (Task.planOfStmt s).Mute := by
  cases s with
  | expression e => exact (sub _).bind fun _ => ret _
  | print e => exact absurd rfl (other e)
  | var name initializer =>
    exact (sub _).bind fun v => (prim fun _ _ => rfl).bind fun _ => ret _
  | block body => exact (prim fun _ _ => rfl).bind fun scope => inside scope _
  | branch condition yes no =>
    refine (sub _).bind fun v => ?_
    split
    · exact sub _
    · cases no with
      | none => exact ret _
      | some no => exact sub _
  | loop condition body increment => exact sub _
  | function declaration =>
    exact (prim fun _ _ => rfl).bind fun f => (prim fun _ _ => rfl).bind fun _ => ret _
  | «return» line value => exact (sub _).bind fun _ => ret _
  | «break» line | «continue» line => exact ret _
  | classDecl name superclass methods =>
    cases superclass with
    | none => exact (mute_planOfClass name none methods).bind fun _ => ret _
    | some superclass =>
      exact (sub _).bind fun v => (prim (.asSuperclass v _)).bind fun c =>
        (mute_planOfClass name (some c) methods).bind fun _ => ret _

/-- Only the plan of a print statement looks at the sink. -/
theorem mute_plan {t : Task} (other : ∀ e, t ≠ .execute (.print e)) : t.plan.Mute := by
  cases t with
  | evaluate e => exact mute_planOfExpr e
  | evaluateAll es =>
    cases es with
    | nil => exact ret _
    | cons e rest => exact (sub _).bind fun _ => (sub _).bind fun _ => ret _
  | call f vs line => exact mute_planOfCall f vs line
  | invoke c vs =>
    exact (prim (.callScope c vs)).bind fun scope => (inside scope _).bind fun completion =>
      prim (.callResult c completion)
  | execute s => exact mute_planOfStmt fun e same => other e (congrArg Task.execute same)
  | evaluate? e =>
    cases e with
    | none => exact ret _
    | some e => exact sub _
  | executeAll ss =>
    cases ss with
    | nil => exact ret _
    | cons s rest =>
      refine (sub (.execute s)).bind fun completion => ?_
      cases completion with
      | normal => exact sub _
      | _ => exact ret _
  -- the loop itself writes nothing, whichever way a round ends
  | executeLoop condition body increment =>
    refine (sub _).bind fun v => ?_
    split
    · refine (sub (.execute body)).bind fun completion => ?_
      cases completion with
      | normal | continued => exact (sub _).bind fun _ => sub _
      | broke | returned => exact ret _
    · exact ret _

end Plans

/-! ## Runs -/

/-- Every plan only adds to the output: the plan of a print statement prints, and no other one
looks at the sink. -/
theorem adds_plan (t : Task) : t.plan.Adds := by
  by_cases prints : ∃ e, t = .execute (.print e)
  · obtain ⟨e, rfl⟩ := prints
    exact .bind (.sub (.evaluate e)) fun v => .bind (.print v) fun _ => .ret _
  · exact (mute_plan fun e same => prints ⟨e, same⟩).adds

/-- A run only adds to the output. -/
theorem adds_run (fuel : Nat) (t : Task) (m : State) : Adds m (left (t.run fuel m)) := by
  induction fuel generalizing t m with
  | zero =>
    rw [Task.run_zero]
    exact .of_eq rfl
  | succ fuel ih =>
    rw [Task.run_succ]
    exact adds_plan t _ ih m

theorem Plan.Adds.outcome {α : Type} {p : Plan α} (adds : p.Adds) (fuel : Nat) (m : State) :
    Machine.Adds m (left (p.run (Task.tasksAt fuel) m)) :=
  adds _ (adds_run fuel) m

end ClassScript.Machine
