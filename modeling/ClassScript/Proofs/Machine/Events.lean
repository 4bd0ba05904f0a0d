import ClassScript.Proofs.Machine.Genuine

/-!
# What happens to objects

A run makes objects and writes to their fields. `Task.events` lists this, in order, from what
the run calls and what that gives, and reads no field for it. It is all that counts: the
objects of a machine are those that were made, and a field of an object has what was written to
it last (`Recorded`). Every run keeps this so (`Fair.recorded`), up to every moment of it
(`Logged.recorded`).
-/

namespace ClassScript.Machine

open Syntax Object

/-- An object is made, or a value is written to a field of an object. -/
inductive Event where
  | made (o : Instance)
  | wrote (o : Instance) (name : String) (value : Value)

namespace Event

def made? : Event → Option Instance
  | made o => some o
  | wrote .. => none

/-- The value that is written to the field of the object. -/
def written? (o : Instance) (name : String) : Event → Option Value
  | made _ => none
  | wrote other text value => if other.id = o.id ∧ text = name then some value else none

end Event

/-- The objects that were made. -/
def madeIn (events : List Event) : List Instance := events.filterMap Event.made?

/-- The value that was written last to a field of an object. -/
def lastWritten (o : Instance) (name : String) (events : List Event) : Option Value :=
  events.reverse.findSome? (Event.written? o name)

theorem madeIn_append (events more : List Event) :
    madeIn (events ++ more) = madeIn events ++ madeIn more :=
  List.filterMap_append

/-- An event that comes last counts, if it writes this field. -/
theorem lastWritten_append (o : Instance) (name : String) (events : List Event) (event : Event) :
    lastWritten o name (events ++ [event]) =
      (event.written? o name).or (lastWritten o name events) := by
  simp only [lastWritten, List.reverse_append, List.reverse_singleton, List.singleton_append,
    List.findSome?_cons]
  cases event.written? o name <;> rfl

/-! ## The events of a run -/

/-- The calls that a plan makes, in order, each with the machine that it begins on. -/
def Plan.called {α : Type} (tasks : (t : Task) → Run t.Result) :
    Plan α → State → List (Task × State)
  | ret _, _ => []
  | step x next, m =>
    match x m with
    | .ok b m' => (next b).called tasks m'
    | .error _ _ => []
  | call enter leave t next, m =>
    (t, enter m) ::
      match tasks t (enter m) with
      | .ok b m' => (next b).called tasks (leave m m')
      | .error _ _ => []

namespace Task

/-- What a task does to objects before it calls others: the call of a class makes one. -/
def opens : Task → State → List Event
  | call (.cls c) _ _, m => [.made (m.newObject c).1]
  | _, _ => []

/-- What a task does to objects behind all that it calls: a write sets a field, once the
object and the value are there. -/
def closes (fuel : Nat) : Task → State → List Event
  | evaluate (.set object name value), m =>
    match Machine.evaluate fuel object m with
    | .ok (.object o) m₁ =>
      match Machine.evaluate fuel value m₁ with
      | .ok v _ => [.wrote o name.text v]
      | .error _ _ => []
    | _ => []
  | _, _ => []

/-- What a run does to objects, in order. -/
def events : Nat → Task → State → List Event
  | 0, _, _ => []
  | fuel + 1, t, m =>
    t.opens m ++
      (t.plan.called (tasksAt fuel) m).flatMap (fun call => events fuel call.1 call.2) ++
      t.closes fuel m

end Task

/-- What the calls do to objects, one behind the other. -/
def eventsOf (fuel : Nat) (calls : List (Task × State)) : List Event :=
  calls.flatMap fun call => call.1.events fuel call.2

/-- A run of a task within a run, and what happened before it began. -/
inductive Logged (fuel : Nat) (t : Task) (m : State) : Nat → Task → State → List Event → Prop
  | start : Logged fuel t m fuel t m []
  | called {n u m₁ log u' m₂ before after} (ahead : Logged fuel t m (n + 1) u m₁ log)
      (calls : u.plan.called (Task.tasksAt n) m₁ = before ++ (u', m₂) :: after) :
      Logged fuel t m n u' m₂ (log ++ u.opens m₁ ++ eventsOf n before)

/-! ## Calls in order -/

namespace Plan

variable {α β : Type} {tasks : (t : Task) → Run t.Result} {m : State}

theorem called_prim (x : Run α) : (prim x).called tasks m = [] := by
  simp only [prim, called]
  cases x m <;> rfl

theorem called_prim_bind (x : Run β) (f : β → Plan α) :
    (prim x >>= f).called tasks m =
      match x m with
      | .ok b m' => (f b).called tasks m'
      | .error _ _ => [] := by
  show (step x f).called tasks m = _
  rw [called]

/-- A plan that begins with a task calls it, in the state at hand, and then what the rest calls.
-/
theorem called_sub_bind (t : Task) (f : t.Result → Plan α) :
    (sub t >>= f).called tasks m = (t, m) ::
      match tasks t m with
      | .ok b m' => (f b).called tasks m'
      | .error _ _ => [] := by
  show (call id (fun _ m => m) t f).called tasks m = _
  rw [called]
  rfl

theorem called_inside_bind (scope : ScopeId) (t : Task) (f : t.Result → Plan α) :
    (inside scope t >>= f).called tasks m = (t, { m with current := scope }) ::
      match tasks t { m with current := scope } with
      | .ok b m' => (f b).called tasks { m' with current := m.current }
      | .error _ _ => [] := by
  show (call (fun m => { m with current := scope })
    (fun m m' => { m' with current := m.current }) t f).called tasks m = _
  rw [called]

/-- The tasks that a plan calls are those listed. -/
theorem calls_iff {t : Task} {m' : State} (p : Plan α) :
    Calls tasks t m' p m ↔ (t, m') ∈ p.called tasks m := by
  -- one way by induction on the call, the other on the plan
  refine ⟨fun calls => ?_, ?_⟩
  · induction calls with
    | here state =>
      rw [called, state]
      exact List.mem_cons_self
    | later ran rest ih => simpa only [called, ran] using List.mem_cons_of_mem _ ih
    | stepped ran rest ih => simpa only [called, ran] using ih
  · induction p generalizing m with
    | ret a => exact fun inside => absurd inside List.not_mem_nil
    | step x next ih =>
      intro inside
      simp only [called] at inside
      cases ran : x m with
      | ok b m₁ =>
        rw [ran] at inside
        exact .stepped ran (ih b inside)
      | error e m₁ =>
        rw [ran] at inside
        cases inside
    | call enter leave u next ih =>
      intro inside
      rw [called] at inside
      rcases List.mem_cons.mp inside with same | later
      · cases same
        exact .here rfl
      · cases ran : tasks u (enter m) with
        | ok b m₁ =>
          rw [ran] at later
          exact .later ran (ih b later)
        | error e m₁ =>
          rw [ran] at later
          cases later

end Plan

/-! ## Events and moments -/

section Moments

variable {fuel n : Nat} {t u : Task} {m m₁ : State} {log : List Event}

/-- What is logged on the way to a moment may be forgotten. -/
theorem Logged.moment (logged : Logged fuel t m n u m₁ log) : Moment fuel t m n u m₁ := by
  induction logged with
  | start => exact .start
  | called ahead calls ih => exact .called ih ((Plan.calls_iff _).mpr (by simp [calls]))

/-- Before every moment something happened, or nothing. -/
theorem Moment.logged (moment : Moment fuel t m n u m₁) : ∃ log, Logged fuel t m n u m₁ log := by
  induction moment with
  | start => exact ⟨[], .start⟩
  | called before calls ih =>
    obtain ⟨log, ahead⟩ := ih
    obtain ⟨earlier, later, split⟩ := List.append_of_mem ((Plan.calls_iff _).mp calls)
    exact ⟨_, .called ahead split⟩

end Moments

/-! ## Machines and what happened -/

/-- The machine has the objects that were made, in their order, and their fields have what was
written to them last. -/
structure Recorded (events : List Event) (m : State) : Prop where
  objects : (madeIn events).map Instance.id = List.range m.objects.size
  fields : ∀ o name, m.field? o name = lastWritten o name events

namespace Recorded

variable {events : List Event} {m m' : State} (recorded : Recorded events m)
include recorded

/-- What is recorded of objects does not depend on the rest of the machine. -/
theorem congr (same : SameObjects m m') : Recorded events m' where
  objects := by rw [same]; exact recorded.objects
  fields o name := by unfold State.field?; rw [same]; exact recorded.fields o name

/-- The objects that were made have their places. -/
theorem lt_size {o : Instance} (made : o ∈ madeIn events) : o.id < m.objects.size := by
  rw [← List.mem_range, ← recorded.objects]
  exact List.mem_map_of_mem made

/-- A fresh object has no fields, and its event says that it was made. -/
theorem newObject (c : ObjectClass) :
    Recorded (events ++ [.made (m.newObject c).1]) (m.newObject c).2 where
  objects := by
    rw [madeIn_append, List.map_append, recorded.objects]
    simp [madeIn, Event.made?, State.newObject, List.range_succ]
  fields o name := by
    rw [field?_newObject, recorded.fields, lastWritten_append]
    rfl

/-- A field that is written is recorded as the last write of it. -/
theorem setField {o : Instance} (there : o.id < m.objects.size) (name : String) (value : Value) :
    Recorded (events ++ [.wrote o name value]) (m.setField o name value) where
  objects := by
    rw [madeIn_append, List.map_append, recorded.objects]
    simp [madeIn, Event.made?, State.setField]
  fields other text := by
    rw [field?_setField, recorded.fields, lastWritten_append]
    simp only [there, and_true, Event.written?]
    split <;> rfl

end Recorded

/-! ## Plans that only call -/

/-- No step of the plan changes a field or makes an object. -/
def Plan.Quiet {α : Type} : Plan α → Prop
  | ret _ => True
  | step x next => Leaves SameObjects x ∧ ∀ b, (next b).Quiet
  | call enter leave _ next =>
    (∀ m, SameObjects m (enter m)) ∧ (∀ m m', SameObjects m' (leave m m')) ∧
      ∀ b, (next b).Quiet

namespace Plan.Quiet

variable {α β : Type}

theorem ret (a : α) : (Plan.ret a).Quiet := trivial

theorem prim {x : Run α} (same : Leaves SameObjects x) : (Plan.prim x).Quiet :=
  ⟨same, fun _ => trivial⟩

theorem sub (t : Task) : (Plan.sub t).Quiet := ⟨fun _ => rfl, fun _ _ => rfl, fun _ => trivial⟩

theorem inside (scope : ScopeId) (t : Task) : (Plan.inside scope t).Quiet :=
  ⟨fun _ => rfl, fun _ _ => rfl, fun _ => trivial⟩

/-- Quiet plans one after the other are quiet. -/
theorem bind {p : Plan β} {f : β → Plan α} (first : p.Quiet) (rest : ∀ b, (f b).Quiet) :
    (p >>= f).Quiet := by
  induction p with
  | ret b => exact rest b
  | step x next ih => exact ⟨first.1, fun b => ih b (first.2 b)⟩
  | call enter leave t next ih => exact ⟨first.1, first.2.1, fun b => ih b (first.2.2 b)⟩

end Plan.Quiet

section Plans

open Plan.Quiet

/-- The task has no event of its own: it only calls. -/
structure Task.OnlyCalls (t : Task) : Prop where
  quiet : t.plan.Quiet
  opens : ∀ m, t.opens m = []
  closes : ∀ n m, t.closes n m = []

/-- What an expression does that is no write to a field. -/
theorem onlyCalls_evaluate {e : Expr} (other : ∀ object name value, e ≠ .set object name value) :
    (Task.evaluate e).OnlyCalls := by
  -- only a property write leaves an event behind its plan
  have closes (n : Nat) (m : State) : (Task.evaluate e).closes n m = [] := by
    cases e with
    | set object name value => exact absurd rfl (other object name value)
    | _ => rfl
  refine ⟨?_, fun _ => rfl, closes⟩
  cases e with
  | literal value => exact ret _
  | group inner => exact sub (.evaluate inner)
  | unary op line operand =>
    exact (sub (.evaluate operand)).bind fun _ => prim SameObjects.liftExcept
  | binary op line left right =>
    exact (sub (.evaluate left)).bind fun _ => (sub (.evaluate right)).bind fun _ =>
      prim SameObjects.liftExcept
  | logical op left right =>
    refine (sub (.evaluate left)).bind fun a => ?_
    split
    · exact ret a
    · exact sub (.evaluate right)
  | «variable» occurrence => exact prim SameObjects.readVariable
  | assign target value =>
    exact (sub (.evaluate value)).bind fun v => (prim SameObjects.writeVariable).bind
      fun _ => ret v
  | call callee line arguments =>
    exact (sub (.evaluate callee)).bind fun f => (sub (.evaluateAll arguments)).bind fun vs =>
      (prim SameObjects.checkCall).bind fun _ => sub (.call f vs line)
  | get object name =>
    exact (sub (.evaluate object)).bind fun _ => prim SameObjects.readProperty
  | set object name value => exact absurd rfl (other object name value)
  | this id line => exact prim SameObjects.readVariable
  | super id line method => exact prim SameObjects.readSuper

/-- What the call of a class does behind making the object. -/
def Task.construct (c : ObjectClass) (o : Instance) (vs : List Value) : Plan Value :=
  match c.method? initializerName with
  | some initializer => do
    let bound ← Plan.prim (bindMethod initializer o)
    let _ ← Plan.sub (.invoke bound vs)
    pure (.object o)
  | none => pure (.object o)

theorem plan_call_cls (c : ObjectClass) (vs : List Value) (line : Nat) :
    (Task.call (.cls c) vs line).plan =
      Plan.prim (newObject c) >>= fun o => Task.construct c o vs := rfl

/-- To make an object, the plan itself changes no object: it is there already, and its
initializer is called. -/
theorem quiet_construct (c : ObjectClass) (o : Instance) (vs : List Value) :
    (Task.construct c o vs).Quiet := by
  unfold Task.construct
  cases c.method? initializerName with
  | none => exact ret _
  | some initializer =>
    exact (prim SameObjects.bindMethod).bind fun bound =>
      (sub (.invoke bound vs)).bind fun _ => ret _

theorem quiet_planOfClass (name : Name) (superclass : Option ObjectClass)
    (methods : List FunctionDecl) : (Task.planOfClass name superclass methods).Quiet :=
  (prim SameObjects.define).bind fun _ => (prim SameObjects.classScope).bind fun _ =>
    (prim SameObjects.newClass).bind fun _ => prim SameObjects.assign

/-- A statement changes no object by itself, but by the expressions that it evaluates. -/
theorem quiet_planOfStmt (s : Stmt) : (Task.planOfStmt s).Quiet := by
  cases s with
  | expression e => exact (sub (.evaluate e)).bind fun _ => ret _
  -- no statement touches an object itself: the primitive steps all keep them
  | print e => exact (sub (.evaluate e)).bind fun _ => (prim SameObjects.print).bind fun _ => ret _
  | var name initializer =>
    exact (sub (.evaluate? initializer)).bind fun _ => (prim SameObjects.define).bind
      fun _ => ret _
  | block body =>
    exact (prim SameObjects.innerScope).bind fun scope => inside scope (.executeAll body)
  | branch condition yes no =>
    refine (sub (.evaluate condition)).bind fun v => ?_
    split
    · exact sub (.execute yes)
    · cases no with
      | none => exact ret _
      | some no => exact sub (.execute no)
  | loop condition body increment => exact sub (.executeLoop condition body increment)
  | function declaration =>
    exact (prim SameObjects.newFunction).bind fun _ => (prim SameObjects.define).bind
      fun _ => ret _
  | «return» line value => exact (sub (.evaluate? value)).bind fun _ => ret _
  | «break» line => exact ret _
  | «continue» line => exact ret _
  | classDecl name superclass methods =>
    cases superclass with
    | none => exact (quiet_planOfClass name none methods).bind fun _ => ret _
    | some superclass =>
      exact (sub (.evaluate (.variable superclass))).bind fun _ =>
        (prim SameObjects.asSuperclass).bind fun c =>
          (quiet_planOfClass name (some c) methods).bind fun _ => ret _

theorem quiet_planOfLoop (condition : Expr) (body : Stmt) (increment : Option Expr) :
    (Task.executeLoop condition body increment).plan.Quiet := by
  refine (sub (.evaluate condition)).bind fun v => ?_
  split
  · refine (sub (.execute body)).bind fun completion => ?_
    have again : (Plan.sub (.evaluate? increment) >>= fun _ =>
        Plan.sub (.executeLoop condition body increment)).Quiet :=
      (sub (.evaluate? increment)).bind fun _ => sub (.executeLoop condition body increment)
    cases completion with
    | normal => exact again
    | continued => exact again
    | broke => exact ret _
    | returned v => exact ret _
  · exact ret _

/-- But for the call of a class and the writing of a field. -/
theorem onlyCalls_or (t : Task) :
    t.OnlyCalls ∨ (∃ c vs line, t = .call (.cls c) vs line) ∨
      ∃ object name value, t = .evaluate (.set object name value) := by
  cases t with
  | evaluate e =>
    by_cases writes : ∃ object name value, e = .set object name value
    · obtain ⟨object, name, value, rfl⟩ := writes
      exact .inr (.inr ⟨object, name, value, rfl⟩)
    · exact .inl (onlyCalls_evaluate fun object name value same =>
        writes ⟨object, name, value, same⟩)
  | evaluateAll es =>
    cases es with
    | nil => exact .inl ⟨ret _, fun _ => rfl, fun _ _ => rfl⟩
    | cons e rest =>
      exact .inl ⟨(sub (.evaluate e)).bind fun _ => (sub (.evaluateAll rest)).bind fun _ => ret _,
        fun _ => rfl, fun _ _ => rfl⟩
  -- a class is the one callee that makes an object
  | call f vs line =>
    cases f with
    | host f => exact .inl ⟨prim SameObjects.callHost, fun _ => rfl, fun _ _ => rfl⟩
    | function id closure => exact .inl ⟨sub (.invoke closure vs), fun _ => rfl, fun _ _ => rfl⟩
    | cls c => exact .inr (.inl ⟨c, vs, line, rfl⟩)
    | _ => exact .inl ⟨prim SameObjects.stop, fun _ => rfl, fun _ _ => rfl⟩
  | invoke closure vs =>
    refine .inl ⟨(prim SameObjects.callScope).bind fun scope =>
      (inside scope (.executeAll closure.declaration.body)).bind fun _ =>
        prim SameObjects.callResult, fun _ => rfl, fun _ _ => rfl⟩
  | execute s => exact .inl ⟨quiet_planOfStmt s, fun _ => rfl, fun _ _ => rfl⟩
  | evaluate? e =>
    cases e with
    | none => exact .inl ⟨ret _, fun _ => rfl, fun _ _ => rfl⟩
    | some e => exact .inl ⟨sub (.evaluate e), fun _ => rfl, fun _ _ => rfl⟩
  | executeAll ss =>
    cases ss with
    | nil => exact .inl ⟨ret _, fun _ => rfl, fun _ _ => rfl⟩
    | cons s rest =>
      -- the rest of the row is run after a normal end only
      refine .inl ⟨(sub (.execute s)).bind fun completion => ?_, fun _ => rfl, fun _ _ => rfl⟩
      cases completion with
      | normal => exact sub (.executeAll rest)
      | _ => exact ret _
  | executeLoop condition body increment =>
    exact .inl ⟨quiet_planOfLoop condition body increment, fun _ => rfl, fun _ _ => rfl⟩

end Plans

/-! ## Runs -/

/-- With a record of what happened before, a run of the plan leaves a machine that it is a
record of with what the calls did; and so each call finds one. -/
structure Plan.Records {α : Type} (n : Nat) (p : Plan α) (m : State) (events : List Event) :
    Prop where
  left : Recorded (events ++ eventsOf n (p.called (Task.tasksAt n) m))
    (left (p.run (Task.tasksAt n) m))
  calls : ∀ before u m' after, p.called (Task.tasksAt n) m = before ++ (u, m') :: after →
    Recorded (events ++ eventsOf n before) m'

theorem eventsOf_cons (n : Nat) (t : Task) (m : State) (rest : List (Task × State)) :
    eventsOf n ((t, m) :: rest) = t.events n m ++ eventsOf n rest := rfl

theorem Plan.Quiet.records {α : Type} {n : Nat} {p : Plan α} (quiet : p.Quiet) {m : State}
    {events : List Event} (recorded : Recorded events m)
    (calls : ∀ u m' events, (u, m') ∈ p.called (Task.tasksAt n) m → Recorded events m' →
      Recorded (events ++ u.events n m') (Machine.left (u.run n m'))) :
    p.Records n m events := by
  have nothing {events : List Event} : events ++ eventsOf n [] = events := List.append_nil _
  induction p generalizing m events with
  | ret a =>
    refine ⟨?_, fun before u m' after split => ?_⟩
    · rw [called, run, nothing]
      exact recorded
    · rw [called] at split
      simp at split
  | step x next ih =>
    cases ran : x m with
    | ok b m' =>
      have rest := ih b (quiet.2 b) (recorded.congr (quiet.1.ok ran))
        fun u m'' events inside => calls u m'' events (by simpa only [called, ran] using inside)
      exact ⟨by simpa only [called, run, ran] using rest.left,
        by simpa only [called, ran] using rest.calls⟩
    | error e m' =>
      refine ⟨?_, fun before u m'' after split => ?_⟩
      · simp only [called, run, ran, nothing]
        exact recorded.congr (quiet.1.error ran)
      · simp [called, ran] at split
  | call enter leave t next ih =>
    -- the call finds the record as it is, and leaves it with its own events to the calls behind
    obtain ⟨enters, leaves, quiet⟩ := quiet
    have begins := recorded.congr (enters m)
    have ends := calls t (enter m) events (by rw [called]; exact List.mem_cons_self) begins
    cases ran : t.run n (enter m) with
    | ok b m' =>
      rw [ran] at ends
      have rest := ih b (quiet b) (ends.congr (leaves m m')) fun u m'' events inside =>
        calls u m'' events (by
          simpa only [called, Task.tasksAt, ran] using List.mem_cons_of_mem _ inside)
      refine ⟨?_, fun before u m'' after split => ?_⟩
      · simp only [called, run, Task.tasksAt, ran, eventsOf_cons, ← List.append_assoc]
        exact rest.left
      · simp only [called, Task.tasksAt, ran] at split
        rcases List.cons_eq_append_iff.mp split with ⟨rfl, here⟩ | ⟨earlier, rfl, later⟩
        · cases here
          rw [nothing]
          exact begins
        · rw [eventsOf_cons, ← List.append_assoc]
          exact rest.calls earlier u m'' after later
    | error e m' =>
      rw [ran] at ends
      refine ⟨?_, fun before u m'' after split => ?_⟩
      · simp only [called, run, Task.tasksAt, ran, eventsOf_cons, nothing]
        exact ends.congr (leaves m m')
      · simp only [called, Task.tasksAt, ran] at split
        rcases List.cons_eq_append_iff.mp split with ⟨rfl, here⟩ | ⟨earlier, rfl, later⟩
        · cases here
          rw [nothing]
          exact begins
        · simp at later

/-! ## Runs of a history -/

/-- A run of the history that begins on a machine with genuine values, and is handed such. -/
structure History.Fair (H : History) (n : Nat) (t : Task) (m : State) : Prop where
  ran : H.runs n t m
  filled : Filled (H.Genuine m) m
  handed : t.Handed (H.Genuine m)

/-- What a write does before it sets the field. -/
def Task.aim (object value : Expr) (line : Nat) : Plan Value := do
  match ← Plan.sub (.evaluate object) with
  | .object _ => Plan.sub (.evaluate value)
  | _ => Plan.prim (stop (.noFields line))

theorem quiet_aim (object value : Expr) (line : Nat) : (Task.aim object value line).Quiet := by
  refine (Plan.Quiet.sub (.evaluate object)).bind fun target => ?_
  cases target with
  | object o => exact Plan.Quiet.sub (.evaluate value)
  | _ => exact Plan.Quiet.prim SameObjects.stop

section Writes

variable (n : Nat) (object value : Expr) (name : Name) (m : State)

/-- An assignment to a property calls what its two expressions call. -/
theorem called_set :
    (Task.evaluate (.set object name value)).plan.called (Task.tasksAt n) m =
      (Task.aim object value name.line).called (Task.tasksAt n) m := by
  simp only [Task.plan, Task.planOfExpr, Task.aim]
  rw [Plan.called_sub_bind, Plan.called_sub_bind]
  cases Task.tasksAt n (.evaluate object) m with
  | error e m₁ => rfl
  | ok target m₁ =>
    cases target with
    | object o =>
      -- behind the value nothing is called
      dsimp only
      rw [Plan.called_sub_bind]
      simp only [Plan.sub, Plan.called, id]
      cases Task.tasksAt n (.evaluate value) m₁ with
      | ok v m₂ => rfl
      | error e m₂ => rfl
    | _ => rfl

/-- The two expressions of an assignment to a property are evaluated from left to right, with
the check that there is an object between them. -/
theorem run_aim (line : Nat) :
    (Task.aim object value line).run (Task.tasksAt n) m =
      match evaluate n object m with
      | .ok (.object _) m₁ => evaluate n value m₁
      | .ok _ m₁ => .error (.fault (.noFields line)) m₁
      | .error e m₁ => .error e m₁ := by
  rw [Task.aim, Plan.run_bind, Task.sub_evaluate]
  show EStateM.bind _ _ m = _
  rw [EStateM.bind]
  cases evaluate n object m with
  | error e m₁ => rfl
  | ok target m₁ =>
    cases target with
    | object o => exact congrFun (Task.sub_evaluate n value) m₁
    | _ => exact congrFun (Plan.run_prim _ _) m₁

/-- A write sets the field if there are an object and a value, and else it stops where they
do. -/
theorem set_cases :
    (∃ o v m₁ m₂, evaluate n object m = .ok (.object o) m₁ ∧ evaluate n value m₁ = .ok v m₂ ∧
      (Task.aim object value name.line).run (Task.tasksAt n) m = .ok v m₂ ∧
      evaluate (n + 1) (.set object name value) m = .ok v (m₂.setField o name.text v) ∧
      (Task.evaluate (.set object name value)).closes n m = [.wrote o name.text v]) ∨
    ∃ e m', (Task.aim object value name.line).run (Task.tasksAt n) m = .error e m' ∧
      evaluate (n + 1) (.set object name value) m = .error e m' ∧
      (Task.evaluate (.set object name value)).closes n m = [] := by
  simp only [run_aim, Task.closes, Machine.evaluate, bind, EStateM.bind]
  cases target : evaluate n object m with
  | error e m₁ => exact .inr ⟨e, m₁, rfl, rfl, rfl⟩
  | ok r m₁ =>
    cases r with
    -- the value is evaluated only if the target is an object
    | object o =>
      dsimp only
      simp only [EStateM.bind]
      cases given : evaluate n value m₁ with
      | ok v m₂ => exact .inl ⟨o, v, m₁, m₂, rfl, given, rfl, rfl, rfl⟩
      | error e m₂ => exact .inr ⟨e, m₂, rfl, rfl, rfl⟩
    | _ => exact .inr ⟨_, m₁, rfl, rfl, rfl⟩

end Writes

section Runs

variable {H : History} (closed : ClosedRuns H.runs) (here : H.Inside) {n : Nat} {t u : Task}
  {m m' : State} {events : List Event}
include closed here

/-- So are the runs of the tasks that it calls. -/
theorem History.Fair.called (fair : H.Fair (n + 1) t m)
    (calls : t.plan.Calls (Task.tasksAt n) u m' m) : H.Fair n u m' := by
  obtain ⟨ran, filled, handed⟩ := Course.of_moment closed (heeded_existence here) fair.ran
    fair.filled fair.handed (.called .start calls)
  exact ⟨ran, filled, handed⟩

/-- What it gives is genuine, on the machine that it leaves. -/
theorem History.Fair.gives (fair : H.Fair n t m) {a : t.Result} (gave : t.run n m = .ok a m') :
    t.HandsBack (H.Genuine m') a ∧ NoLess m m' := by
  have keeps := Course.of_runs closed (heeded_existence here) fair.ran fair.filled fair.handed
  rw [gave] at keeps
  exact ⟨keeps.result a m' rfl, keeps.along.whole⟩

/-- A run of a task does to objects what its calls do, and what it does of itself. -/
theorem History.Fair.records (fair : H.Fair (n + 1) t m) (recorded : Recorded events m)
    (runs : ∀ u m' events, H.Fair n u m' → Recorded events m' →
      Recorded (events ++ u.events n m') (left (u.run n m'))) :
    Recorded (events ++ t.events (n + 1) m) (left (t.run (n + 1) m)) ∧
      ∀ before u m' after, t.plan.called (Task.tasksAt n) m = before ++ (u, m') :: after →
        Recorded (events ++ t.opens m ++ eventsOf n before) m' := by
  -- every task called in between is one of the history, so the records go through it
  have calls (u : Task) (m' : State) (events : List Event)
      (inside : (u, m') ∈ t.plan.called (Task.tasksAt n) m) (recorded : Recorded events m') :=
    runs u m' events (fair.called closed here ((Plan.calls_iff _).mpr inside)) recorded
  rw [t.run_succ, Task.events]
  rcases onlyCalls_or t with only | ⟨c, vs, line, rfl⟩ | ⟨object, name, value, rfl⟩
  · have records := only.quiet.records recorded calls
    rw [only.opens, only.closes, List.append_nil, List.nil_append, List.append_nil]
    exact ⟨records.left, records.calls⟩
  · -- the object is made first, and then the rest only calls
    have made : newObject c m = .ok (m.newObject c).1 (m.newObject c).2 := rfl
    have rest : (Task.call (.cls c) vs line).plan.called (Task.tasksAt n) m =
        (Task.construct c (m.newObject c).1 vs).called (Task.tasksAt n) (m.newObject c).2 := by
      rw [plan_call_cls, Plan.called_prim_bind, made]
    have ends : (Task.call (.cls c) vs line).plan.run (Task.tasksAt n) m =
        (Task.construct c (m.newObject c).1 vs).run (Task.tasksAt n) (m.newObject c).2 := by
      rw [plan_call_cls, Plan.run_bind, Plan.run_prim]
      rfl
    have records := (quiet_construct c (m.newObject c).1 vs).records (recorded.newObject c)
      (rest ▸ calls)
    rw [rest, ends]
    refine ⟨?_, records.calls⟩
    have left := records.left
    simp only [Task.closes, List.append_nil, ← List.append_assoc]
    exact left
  · have records := (quiet_aim object value name.line).records recorded
      (called_set n object value name m ▸ calls)
    rw [called_set]
    simp only [Task.opens, List.nil_append, List.append_nil]
    refine ⟨?_, records.calls⟩
    -- the write itself comes after the last call, as the closing event
    have same : (Task.evaluate (.set object name value)).plan.run (Task.tasksAt n) m =
        evaluate (n + 1) (.set object name value) m := by
      rw [← Task.run_succ]
      rfl
    rw [same]
    rcases set_cases n object value name m with
      ⟨o, v, m₁, m₂, target, given, aimed, ran, closes⟩ | ⟨e, m', aimed, ran, closes⟩
    · -- the object is there, and stays there while the value is evaluated
      have owner : H.Fair n (.evaluate object) m := fair.called closed here (.here rfl)
      have giver : H.Fair n (.evaluate value) m₁ :=
        fair.called closed here (.later target (.here rfl))
      have there : o.id < m₂.objects.size :=
        Nat.lt_of_lt_of_le (owner.gives closed here target).1.1 (giver.gives closed here given).2
      have ends := records.left
      rw [aimed] at ends
      rw [ran, closes, ← List.append_assoc]
      exact ends.setField there name.text v
    · have ends := records.left
      rw [aimed] at ends
      rw [ran, closes, List.append_nil]
      exact ends

/-- A run leaves a machine that is recorded by what was recorded before, and what happened in
it. -/
theorem History.Fair.recorded (fair : H.Fair n t m) (recorded : Recorded events m) :
    Recorded (events ++ t.events n m) (left (t.run n m)) := by
  induction n generalizing t m events with
  | zero =>
    rw [t.run_zero, Task.events, List.append_nil]
    exact recorded
  | succ n ih => exact (fair.records closed here recorded fun _ _ _ => ih).1

/-- So it is at every moment of a run. -/
theorem Logged.recorded {fuel : Nat} {log : List Event} (fair : H.Fair fuel t m)
    (recorded : Recorded events m) (logged : Logged fuel t m n u m' log) :
    H.Fair n u m' ∧ Recorded (events ++ log) m' := by
  induction logged with
  | start => exact ⟨fair, by rwa [List.append_nil]⟩
  | @called n u m₁ log u' m₂ before after ahead calls ih =>
    obtain ⟨fair₁, recorded₁⟩ := ih
    have listed : (u', m₂) ∈ u.plan.called (Task.tasksAt n) m₁ := by simp [calls]
    have records := fair₁.records closed here recorded₁ fun _ _ _ fair => fair.recorded closed here
    refine ⟨fair₁.called closed here ((Plan.calls_iff _).mpr listed), ?_⟩
    rw [← List.append_assoc, ← List.append_assoc]
    exact records.2 before u' m₂ after calls

end Runs

end ClassScript.Machine
