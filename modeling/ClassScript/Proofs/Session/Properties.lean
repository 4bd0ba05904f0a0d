import ClassScript.Proofs.Session.Events

/-!
# Properties of objects

What is read of an object, told by what happened before (`properties_exact`): the value that was
written to this property of it last; if there is none, the last method of the name that the
nearest class of its chain declares, bound to it; and if there is none either, a fault. So a
write counts for reads of the same property of the same object alone, and a write that comes to
no object or no value counts for nothing.
-/

namespace ClassScript.Session

open Syntax Parsing Object Binding Machine

/-! ## Methods that are read -/

/-- What reading a method gives: a new function with the code of the method, in a new scope,
which binds `this` to the object and lies inside the one that the method was declared in. -/
structure BoundTo (o : Instance) (method : Closure) (m : Machine.State) (v : Value)
    (m' : Machine.State) : Prop where
  value : v = .function m.nextId { method with scope := m.scopes.size }
  this : m'.scopes.own? m.scopes.size "this" = some (.object o)
  inside : m'.scopes.parent? m.scopes.size = some method.scope

theorem methodValue_bound (method : Closure) (o : Instance) (m : Machine.State) :
    ∃ v m', methodValue method o m = .ok v m' ∧ BoundTo o method m v m' := by
  obtain ⟨parent, this⟩ := History.bindMethod_scopes method o m
  exact ⟨_, _, rfl, rfl, this, parent⟩

/-- What comes of reading a property that was never written: the method that the lookup comes
to, bound to the object, or the fault that there is none. -/
def ReadsMethod (o : Instance) (name : Name) (m : Machine.State)
    (result : EStateM.Result Stop Machine.State Value) :
    Option (FunctionDecl × ScopeId) → Prop
  | some (d, scope) => ∃ v m', result = .ok v m' ∧
      BoundTo o ⟨d, scope, name.text == initializerName⟩ m v m'
  | none => result = .error (.fault (.undefinedProperty name.text name.line)) m

theorem readsMethod {H : History} (here : H.Inside) {o : Instance} {name : Name}
    {m : Machine.State} {found : Option (FunctionDecl × ScopeId)}
    (unset : m.field? o name.text = none) (finds : H.Finds name.text o.cls found) :
    ReadsMethod o name m (readProperty (.object o) name m) found := by
  have method := finds.method? here
  cases found with
  | none => simp only [ReadsMethod, readProperty, unset, method, Option.map_none]
  | some found =>
    obtain ⟨d, scope⟩ := found
    obtain ⟨v, m', gave, bound⟩ :=
      methodValue_bound ⟨d, scope, name.text == initializerName⟩ o m
    refine ⟨v, m', ?_, bound⟩
    simp only [readProperty, unset, method, Option.map_some, gave]

/-! ## What a write changes -/

/-- The same result, with the machine changed. -/
def behind {α : Type} (change : Machine.State → Machine.State) :
    EStateM.Result Stop Machine.State α → EStateM.Result Stop Machine.State α
  | .ok a m => .ok a (change m)
  | .error e m => .error e (change m)

/-- A write to a property of an object changes what is read of this property, and nothing else:
no binding, no other property, and no method that `super` finds. No class changes either: it is
a value, with its methods and the classes above it in it. -/
structure Isolated (o : Instance) (name : String) (v : Value) (m : Machine.State) : Prop where
  field : ∀ other text, (m.setField o name v).field? other text =
    if o.id = other.id ∧ name = text then some v else m.field? other text
  scopes : (m.setField o name v).scopes = m.scopes
  read : ∀ subject text,
    (∀ other, subject = .object other → ¬ (o.id = other.id ∧ name = text.text)) →
      readProperty subject text (m.setField o name v) =
        behind (·.setField o name v) (readProperty subject text m)
  super : ∀ id text, readSuper id text (m.setField o name v) =
    behind (·.setField o name v) (readSuper id text m)

theorem isolated {o : Instance} {m : Machine.State} (there : o.id < m.objects.size)
    (name : String) (v : Value) : Isolated o name v m where
  field other text := by simp only [field?_setField, there, and_true]
  scopes := rfl
  read subject text differs := by
    cases subject with
    -- fields of other objects and other fields of this one are where they were
    | object other =>
      have same : (m.setField o name v).field? other text.text = m.field? other text.text := by
        rw [field?_setField, if_neg fun h => differs other rfl ⟨h.1, h.2.1⟩]
      simp only [readProperty, same]
      cases m.field? other text.text with
      | some value => rfl
      | none => cases other.cls.method? text.text <;> rfl
    | _ => rfl
  super id text := by
    have alike : Alike m (m.setField o name v) := ⟨rfl, rfl, rfl⟩
    rcases readSuper_cases id text m with ⟨hops, c, receiver, method, -, -, -, read⟩ | ⟨e, read⟩
    · rw [read _ alike, read m (.refl m)]
      rfl
    · rw [read _ alike, read m (.refl m)]
      rfl

/-! ## Reads and writes -/

/-- What reads and writes of properties come to in the run of a step, with everything that it
calls. Before the step there were the given events. -/
structure PropertiesExact (H : History) (step : Step) (s : Session) (earlier : List Event) :
    Prop where
  /-- To every moment there is a list of what happened in the step before it. -/
  logged : ∀ n t m, step.Moment s n t m ↔ ∃ log, step.Logged s n t m log
  /-- A field has what was written to it last. -/
  held : ∀ n t m log, step.Logged s n t m log →
    ∀ o name, m.field? o name = lastWritten o name (earlier ++ log)
  /-- A property that is read is what was written to it last, be it while its object was
  evaluated, or else a method of the class. -/
  read : ∀ n e name m log, step.Logged s (n + 1) (.evaluate (.get e name)) m log →
    ∀ o m₁, Machine.evaluate n e m = .ok (.object o) m₁ →
      match lastWritten o name.text (earlier ++ log ++ (Task.evaluate e).events n m) with
      | some v => Machine.evaluate (n + 1) (.get e name) m = .ok v m₁
      | none => (∃ found, H.Finds name.text o.cls found) ∧
          ∀ found, H.Finds name.text o.cls found →
            ReadsMethod o name m₁ (Machine.evaluate (n + 1) (.get e name) m) found
  /-- A write with an object and a value sets this one property of this one object. -/
  write : ∀ n object name value m,
    step.Moment s (n + 1) (.evaluate (.set object name value)) m →
      ∀ o m₁ v m₂, Machine.evaluate n object m = .ok (.object o) m₁ →
        Machine.evaluate n value m₁ = .ok v m₂ →
          Machine.evaluate (n + 1) (.set object name value) m =
              .ok v (m₂.setField o name.text v) ∧
            Isolated o name.text v m₂
  /-- A write whose object cannot be evaluated leaves what the attempt left. -/
  noTarget : ∀ n object name value m e m', Machine.evaluate n object m = .error e m' →
    Machine.evaluate (n + 1) (.set object name value) m = .error e m'
  /-- So does one to a value that is no object. -/
  noObject : ∀ n object name value m v m', Machine.evaluate n object m = .ok v m' →
    (∀ o, v ≠ .object o) →
      Machine.evaluate (n + 1) (.set object name value) m =
        .error (.fault (.noFields name.line)) m'
  /-- So does one whose value cannot be evaluated. -/
  noValue : ∀ n object name value m o m₁ e m', Machine.evaluate n object m = .ok (.object o) m₁ →
    Machine.evaluate n value m₁ = .error e m' →
      Machine.evaluate (n + 1) (.set object name value) m = .error e m'

/-- In every session, whatever it was handed before and however the step at hand goes on. -/
theorem properties_exact (readings : Nat → Float) (sink : Sink) (steps : List Step)
    (next : Step) :
    PropertiesExact ((start readings sink).history (steps ++ [next])) next
      ((start readings sink).after steps) ((start readings sink).events steps) := by
  let first := start readings sink
  have closed : ClosedRuns (first.history (steps ++ [next])).runs := closed_ran _ _
  have here := inside_history readings sink (steps ++ [next])
  exact {
    logged := fun n t m => ⟨(·.logged), fun ⟨_, logged⟩ => logged.moment⟩
    held := fun n t m log logged => logged.recorded.2.fields
    read := by
      intro n e name m log logged o m₁ evaluated
      obtain ⟨fair, recorded⟩ := logged.recorded
      -- the owner was evaluated in the history, so what was recorded before it still is
      have owner : (first.history (steps ++ [next])).Fair n (.evaluate e) m :=
        fair.called closed here (.here rfl)
      have recorded₁ := owner.recorded closed here recorded
      rw [show (Task.evaluate e).run n m = .ok (.object o) m₁ from evaluated] at recorded₁
      rw [evaluate_get evaluated, ← recorded₁.fields]
      cases field : m₁.field? o name.text with
      | some v => simp only [readProperty, left, field]
      | none =>
        simp only [left, field]
        have made : (first.history (steps ++ [next])).Made o.cls :=
          (owner.gives closed here evaluated).1.2
        exact ⟨made.finds _, fun found finds => readsMethod here field finds⟩
    write := by
      intro n object name value m moment o m₁ v m₂ evaluated given
      obtain ⟨log, logged⟩ := moment.logged
      have fair := logged.recorded.1
      have owner : (first.history (steps ++ [next])).Fair n (.evaluate object) m :=
        fair.called closed here (.here rfl)
      have giver : (first.history (steps ++ [next])).Fair n (.evaluate value) m₁ :=
        fair.called closed here (.later evaluated (.here rfl))
      -- the object existed before the value was evaluated, and objects are never removed
      have there : o.id < m₂.objects.size := Nat.lt_of_lt_of_le
        (owner.gives closed here evaluated).1.1 (giver.gives closed here given).2
      refine ⟨?_, isolated there name.text v⟩
      simp only [Machine.evaluate, bind, EStateM.bind, evaluated, given]
      rfl
    noTarget := by
      intro n object name value m e m' failed
      simp only [Machine.evaluate, bind, EStateM.bind, failed]
    noObject := by
      intro n object name value m v m' evaluated other
      simp only [Machine.evaluate, bind, EStateM.bind, evaluated]
      cases v with
      | object o => exact absurd rfl (other o)
      | _ => rfl
    noValue := by
      intro n object name value m o m₁ e m' evaluated failed
      simp only [Machine.evaluate, bind, EStateM.bind, evaluated, failed] }

-- a field hides the method, whatever name its object is written under
example :
    let declared := ⟨.run, "class A \x7b m() \x7b\x7d \x7d var a = A(); var b = a; b.m = true;", 20⟩
    (match ((⟨.evaluate, "a.m", 20⟩ : Step).take
        ((start (fun _ => 0) .unlimited).after [declared])).1 with
      | .ok answer => answer == some "true"
      | _ => false) = true := by
  decide +kernel

end ClassScript.Session
