import ClassScript.Proofs.Machine.Construction
import ClassScript.Proofs.Session.Properties

/-!
# Construction of objects

What a call of a class comes to, told by the declarations that the class comes from
(`construction_exact`). The nearest class of its chain that declares an initializer decides how
many arguments there must be. The call makes one object, which nobody has yet, and runs this
initializer for it, once. If it ends, the call gives the object, and if it fails, so does the
call. An initializer that is called in any other way gives the object that it is bound to.
-/

namespace ClassScript.Session

open Syntax Parsing Object Binding Machine

/-! ## Initializers -/

/-- The number of parameters of an initializer, if there is one. -/
def parameterCount : Option (FunctionDecl × ScopeId) → Nat
  | some (d, _) => d.parameters.length
  | none => 0

theorem arity_of_finds {H : History} (here : H.Inside) {c : ObjectClass}
    {found : Option (FunctionDecl × ScopeId)} (finds : H.Finds initializerName c found) :
    c.arity = parameterCount found := by
  rw [ObjectClass.arity, finds.method? here]
  cases found <;> rfl

/-- The value is no object, or one with another identity. -/
def Other (o : Instance) (v : Value) : Prop := ∀ other, v = .object other → other.id ≠ o.id

section Moments

variable {readings : Nat → Float} {sink : Sink} {steps : List Step} {next : Step} {n : Nat}
  {t : Task} {m : Machine.State}

/-- Every moment is a run of the session. -/
theorem Step.Moment.fair (moment : next.Moment ((start readings sink).after steps) n t m) :
    ((start readings sink).history (steps ++ [next])).Fair n t m := by
  obtain ⟨log, logged⟩ := moment.logged
  exact logged.recorded.1

/-- Where a function is called, its parameters have distinct names, and there is an argument
for each. -/
theorem Step.Moment.parameters {closure : Closure} {vs : List Value}
    (moment : next.Moment ((start readings sink).after steps) n (.invoke closure vs) m) :
    (closure.declaration.parameters.map Name.text).Nodup ∧
      vs.length = closure.declaration.parameters.length := by
  obtain ⟨healthy, good, -, enough⟩ := moment.sound
  obtain ⟨⟨node, c, w⟩, seen, code, -⟩ := good.visit
  obtain ⟨⟨name, parameters, body⟩, scope, isInitializer⟩ := closure
  obtain rfl : node = .function ⟨name, parameters, body⟩ := code
  have sound := healthy.sound _ (seen.child .functionBody)
  exact ⟨parameters_distinct sound .functionBody rfl, enough⟩

/-- In the machines that a text goes through, a scope binds `this` to one value only. -/
theorem this_unique {a b : Machine.State} {scope : ScopeId} {v w : Value}
    (first : a ∈ next.states ((start readings sink).after steps))
    (second : b ∈ next.states ((start readings sink).after steps))
    (bound : a.scopes.own? scope "this" = some v) (also : b.scopes.own? scope "this" = some w) :
    v = w := by
  have among := states_subset_append (start readings sink) steps next
  -- `this` is reserved, so no scope has it bound anew
  have agree := (through_states readings sink (steps ++ [next])).agree a (among first) b
    (among second) scope (Scopes.lt_size_of_own? bound) (Scopes.lt_size_of_own? also)
  have same := agree.2 "this" (by simp [reserved])
  rw [bound, also] at same
  exact Option.some.inj same

/-- The call of an initializer gives the object that it is bound to, in whatever way it was
come by. -/
theorem Step.Moment.gives_this {callee : Expr} {line id : Nat} {arguments : List Expr}
    {m₁ m' : Machine.State} {closure : Closure} {w v : Value}
    (moment : next.Moment ((start readings sink).after steps) (n + 1)
      (.evaluate (.call callee line arguments)) m)
    (called : Machine.evaluate n callee m = .ok (.function id closure) m₁)
    (initializer : closure.isInitializer = true)
    (bound : m₁.scopes.own? closure.scope "this" = some w)
    (gave : Machine.evaluate (n + 1) (.call callee line arguments) m = .ok v m') : v = w := by
  have owner : next.Moment ((start readings sink).after steps) n (.evaluate callee) m :=
    moment.called (.here rfl)
  have first := owner.mem_states.2
  rw [show (Task.evaluate callee).run n m = _ from called] at first
  have last := moment.mem_states.2
  rw [show (Task.evaluate (.call callee line arguments)).run (n + 1) m = _ from gave] at last
  exact this_unique last first (this_of_call called initializer gave) bound

/-- Where a piece stands, the scopes have its receiver. -/
theorem Step.Moment.carries {v : Visit} {standing : Standing}
    (moment : next.Moment ((start readings sink).after steps) n t m)
    (stands : ((start readings sink).history (steps ++ [next])).Stands v m.current standing) :
    Carries m v.walk.scopes m.current standing ∧ Sound m.locals v := by
  have among := states_subset_append (start readings sink) steps next moment.mem_states.1
  have inside := ((along_session readings sink (steps ++ [next])).inv m among).current
  have through := through_states readings sink (steps ++ [next])
  exact ⟨stands.carries through among inside, moment.sound.1.sound v stands.seen⟩

/-- What `super` finds under the name of initializers is one. -/
theorem Step.Moment.super_initializer {id line number : Nat} {name : Name} {closure : Closure}
    {m₁ : Machine.State}
    (moment : next.Moment ((start readings sink).after steps) (n + 1)
      (.evaluate (.super id line name)) m) (named : name.text = initializerName)
    (evaluated : Machine.evaluate (n + 1) (.super id line name) m =
      .ok (.function number closure) m₁) : closure.isInitializer = true := by
  rw [Machine.evaluate] at evaluated
  rcases readSuper_cases id name m with ⟨hops, c, o, method, above, -, found, read⟩ | ⟨e, failed⟩
  · rw [read m (.refl m)] at evaluated
    cases evaluated
    -- the class found by super was made in the history, so its methods are those declared
    have made : ((start readings sink).history (steps ++ [next])).Made c :=
      moment.fair.filled.getAt above
    obtain ⟨told, finds⟩ := made.finds name.text
    have method := finds.method? (inside_history readings sink (steps ++ [next]))
    rw [found] at method
    cases told with
    | none => cases method
    | some told =>
      cases method
      exact beq_iff_eq.mpr named
  · rw [failed m (.refl m)] at evaluated
    cases evaluated

/-- A class is called whose lookup finds an initializer. -/
theorem Step.Moment.initializes {c : ObjectClass} {vs : List Value} {line : Nat}
    {d : FunctionDecl} {scope : ScopeId}
    (moment : next.Moment ((start readings sink).after steps) (n + 2) (.call (.cls c) vs line) m)
    (finds : ((start readings sink).history (steps ++ [next])).Finds initializerName c
      (some (d, scope))) :
    ∃ closure made begun, Initializes n c vs line d scope m closure made begun := by
  have found : c.method? initializerName = some ⟨d, scope, true⟩ :=
    finds.method? (inside_history readings sink (steps ++ [next]))
  let bound := prepared c ⟨d, scope, true⟩ m
  let begun := entered bound.1 vs bound.2
  have invoked : next.Moment ((start readings sink).after steps) (n + 1) (.invoke bound.1 vs)
      bound.2 := by
    refine moment.called ((Plan.calls_iff _).mpr ?_)
    rw [called_construct found]
    exact List.mem_singleton_self _
  obtain ⟨distinct, enough⟩ := invoked.parameters
  have body : next.Moment ((start readings sink).after steps) n (.executeAll d.body) begun := by
    refine invoked.called ((Plan.calls_iff _).mpr ?_)
    rw [called_invoke]
    exact List.mem_singleton_self _
  refine ⟨_, _, _, Machine.initializes found rfl enough distinct ?_⟩
  -- the body binds no `this` anew, so its scope has the same as before
  intro completion m₁ ran
  have bound := this_entered c ⟨d, scope, true⟩ vs m
  have grows := grows_of_ok (t := .executeAll d.body) ran
  obtain ⟨value, there⟩ := Option.isSome_iff_exists.mp
    (grows.scopes.bound m.scopes.size "this" (by rw [bound]; rfl))
  have states := body.mem_states
  rw [show (Task.executeAll d.body).run n begun = _ from ran] at states
  exact there.trans (congrArg some (this_unique states.2 states.1 there bound))

end Moments

/-! ## Construction -/

/-- What calls of classes and of initializers come to in the run of a step, with everything that
it calls. Before the step there were the given events. -/
structure ConstructionExact (H : History) (step : Step) (s : Session) (earlier : List Event) :
    Prop where
  /-- A class is called if there are as many arguments as the initializer that the lookup comes
  to has parameters. Otherwise nothing is called, and that is the fault. -/
  checked : ∀ n callee line arguments m,
    step.Moment s (n + 1) (.evaluate (.call callee line arguments)) m →
      ∀ c m₁ vs m₂, Machine.evaluate n callee m = .ok (.cls c) m₁ →
        Machine.evaluateAll n arguments m₁ = .ok vs m₂ →
          (∃ found, H.Finds initializerName c found) ∧
            ∀ found, H.Finds initializerName c found →
              (vs.length = parameterCount found →
                step.Moment s n (.call (.cls c) vs line) m₂ ∧
                  Machine.evaluate (n + 1) (.call callee line arguments) m =
                    Machine.call n (.cls c) vs line m₂) ∧
              (vs.length ≠ parameterCount found →
                Machine.evaluate (n + 1) (.call callee line arguments) m =
                  .error (.fault (.arityMismatch (parameterCount found) vs.length line)) m₂)
  /-- The object that is made is of the class, and no object that was made before. -/
  fresh : ∀ n c vs line m, step.Moment s n (.call (.cls c) vs line) m →
    (m.newObject c).1.cls = c ∧ (∃ log, step.Logged s n (.call (.cls c) vs line) m log) ∧
      ∀ log, step.Logged s n (.call (.cls c) vs line) m log →
        ∀ o ∈ madeIn (earlier ++ log), o.id ≠ (m.newObject c).1.id
  /-- Neither is it any object that the machine holds, or that is among the arguments. -/
  apart : ∀ n c vs line m, step.Moment s n (.call (.cls c) vs line) m →
    Filled (Other (m.newObject c).1) m ∧ ∀ v ∈ vs, Other (m.newObject c).1 v
  /-- Without an initializer nothing is run. -/
  plain : ∀ n c vs line m, step.Moment s (n + 1) (.call (.cls c) vs line) m →
    H.Finds initializerName c none →
      (Task.call (.cls c) vs line).plan.called (Task.tasksAt n) m = [] ∧
        Machine.call (n + 1) (.cls c) vs line m =
          .ok (.object (m.newObject c).1) (m.newObject c).2
  /-- An initializer is run once, for the new object. -/
  initialized : ∀ n c vs line m, step.Moment s (n + 2) (.call (.cls c) vs line) m →
    ∀ d scope, H.Finds initializerName c (some (d, scope)) →
      ∃ closure made begun, Initializes n c vs line d scope m closure made begun
  /-- An initializer that is called, in whatever way it was come by, is bound to an object, and
  gives it if it ends. -/
  again : ∀ n callee line arguments m,
    step.Moment s (n + 1) (.evaluate (.call callee line arguments)) m →
      ∀ id closure m₁, Machine.evaluate n callee m = .ok (.function id closure) m₁ →
        closure.isInitializer = true →
          ∃ o, m₁.scopes.own? closure.scope "this" = some (.object o) ∧
            ∀ v m', Machine.evaluate (n + 1) (.call callee line arguments) m = .ok v m' →
              v = .object o
  /-- So an initializer that is called as a property of an object gives this object. -/
  property : ∀ n e name line arguments m,
    step.Moment s (n + 2) (.evaluate (.call (.get e name) line arguments)) m →
      name.text = initializerName → ∀ o m₁, Machine.evaluate n e m = .ok (.object o) m₁ →
        m₁.field? o name.text = none →
          ∀ v m', Machine.evaluate (n + 2) (.call (.get e name) line arguments) m = .ok v m' →
            v = .object o
  /-- And one that is called by `super` gives the object of the receiver. -/
  super : ∀ n id line' name line arguments m,
    step.Moment s (n + 2) (.evaluate (.call (.super id line' name) line arguments)) m →
      name.text = initializerName →
        (∃ visit receiver, visit.node = .expression (.super id line' name) ∧
          H.Stands visit m.current (.code receiver)) ∧
        ∀ visit receiver, visit.node = .expression (.super id line' name) →
          H.Stands visit m.current (.code receiver) →
            ∃ o c, receiver = some ⟨o, some c⟩ ∧
              ∀ v m', Machine.evaluate (n + 2) (.call (.super id line' name) line arguments) m =
                .ok v m' → v = .object o

/-- In every session, whatever it was handed before and however the step at hand goes on. -/
theorem construction_exact (readings : Nat → Float) (sink : Sink) (steps : List Step)
    (next : Step) :
    ConstructionExact ((start readings sink).history (steps ++ [next])) next
      ((start readings sink).after steps) ((start readings sink).events steps) := by
  let first := start readings sink
  have closed : ClosedRuns (first.history (steps ++ [next])).runs := closed_ran _ _
  have here := inside_history readings sink (steps ++ [next])
  exact {
    checked := by
      intro n callee line arguments m moment c m₁ vs m₂ called given
      have owner : (first.history (steps ++ [next])).Fair n (.evaluate callee) m :=
        moment.fair.called closed here (.here rfl)
      have made : (first.history (steps ++ [next])).Made c := (owner.gives closed here called).1
      refine ⟨made.finds _, fun found finds => ?_⟩
      rw [evaluate_call_cls called given, arity_of_finds here finds]
      refine ⟨fun enough => ⟨?_, if_pos enough⟩, fun differ => if_neg differ⟩
      -- so the call is a moment of the run as well
      have passed : checkCall (.cls c) vs line m₂ = .ok () m₂ := by
        simp only [checkCall, Value.arity?]
        rw [if_pos (enough.trans (arity_of_finds here finds).symm)]
        rfl
      exact moment.called (.later called (.later given (.stepped passed (.here rfl))))
    fresh := by
      intro n c vs line m moment
      refine ⟨rfl, moment.logged, fun log logged o made => Nat.ne_of_lt ?_⟩
      exact logged.recorded.2.lt_size made
    apart := by
      intro n c vs line m moment
      obtain ⟨-, filled, -, values⟩ := moment.fair
      have other {v : Value} (genuine : (first.history (steps ++ [next])).Genuine m v) :
          Other (m.newObject c).1 v := by
        rintro o rfl
        exact Nat.ne_of_lt genuine.1
      exact ⟨filled.mono fun v => other, fun v inside => other (values v inside)⟩
    plain := by
      intro n c vs line m moment nowhere
      have missing : c.method? initializerName = none := nowhere.method? here
      exact ⟨called_construct_plain missing, construct_plain missing⟩
    initialized := fun n c vs line m moment d scope finds => moment.initializes finds
    again := by
      intro n callee line arguments m moment id closure m₁ called initializer
      have owner : next.Moment (first.after steps) n (.evaluate callee) m :=
        moment.called (.here rfl)
      -- an initializer that a healthy machine holds has an object
      obtain ⟨healthy, good⟩ : Healthy _ m₁ ∧ GoodValue _ m₁ (.function id closure) := by
        have kept := (kept_sound _).holds n _ m owner.sound
        rw [show (Task.evaluate callee).run n m = _ from called] at kept
        exact kept.1
      obtain ⟨value, this⟩ := Option.isSome_iff_exists.mp (good.bound initializer)
      obtain ⟨o, rfl⟩ := healthy.this _ _ this
      exact ⟨o, this, fun v m' gave => moment.gives_this called initializer this gave⟩
    property := by
      intro n e name line arguments m moment named o m₁ evaluated unset v m' gave
      -- the method that is read has the name of initializers, so it is bound as one
      have callee : (first.history (steps ++ [next])).Fair (n + 1) (.evaluate (.get e name)) m :=
        moment.fair.called closed here (.here rfl)
      have owner : (first.history (steps ++ [next])).Fair n (.evaluate e) m :=
        callee.called closed here (.here rfl)
      have made : (first.history (steps ++ [next])).Made o.cls :=
        (owner.gives closed here evaluated).1.2
      obtain ⟨found, finds⟩ := made.finds name.text
      have reads := readsMethod here unset finds
      rw [← evaluate_get evaluated] at reads
      cases found with
      | none =>
        obtain ⟨f, m₂, called⟩ := callee_of_call gave
        cases reads.symm.trans called
      | some found =>
        obtain ⟨f, m₂, called, bound⟩ := reads
        obtain rfl := bound.value
        exact moment.gives_this called (beq_iff_eq.mpr named) bound.this gave
    super := by
      intro n id line' name line arguments m moment named
      have callee : next.Moment (first.after steps) (n + 1) (.evaluate (.super id line' name)) m :=
        moment.called (.here rfl)
      obtain ⟨visit, receiver, code, stands⟩ := callee.begins
      have code : visit.node = .expression (.super id line' name) := by
        rcases evaluates?_eq code with code | ⟨_, _, _, other⟩
        · exact code
        · cases other
      refine ⟨⟨visit, receiver, code, stands⟩, ?_⟩
      rintro ⟨_, context, walk⟩ receiver rfl stands
      -- the scopes tell to what `super` binds the method that it finds
      obtain ⟨carries, sound⟩ := callee.carries stands
      obtain ⟨o, c, rfl, finds, misses⟩ := carries.super sound n
      refine ⟨o, c, rfl, fun v m' gave => ?_⟩
      cases found : c.method? name.text with
      | none =>
        obtain ⟨f, m₁, called⟩ := callee_of_call gave
        rw [misses found] at called
        cases called
      | some method =>
        obtain ⟨f, m₁, read, bound⟩ := methodValue_bound method o m
        have called := (finds method found).trans read
        obtain rfl := bound.value
        exact moment.gives_this called (callee.super_initializer named called) bound.this gave }

-- an initializer that is called again gives its object
example :
    let declared := ⟨.run, "class A \x7b init() \x7b return; \x7d \x7d var a = A();", 20⟩
    (match ((⟨.evaluate, "a.init() == a", 20⟩ : Step).take
        ((start (fun _ => 0) .unlimited).after [declared])).1 with
      | .ok answer => answer == some "true"
      | _ => false) = true := by
  decide +kernel

end ClassScript.Session
