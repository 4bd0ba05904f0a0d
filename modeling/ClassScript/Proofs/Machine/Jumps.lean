import ClassScript.Proofs.Machine.Moment
import ClassScript.Proofs.Syntax.Exit

/-!
# How statements end

A statement ends with a jump only if the jump stands in it, outside of nested
functions, and for `break` and `continue` outside of nested loops (`ends_with_jump`).
The value of a `return` goes up unchanged through all statements around it
(`Within.returns`), to the nearest call (`InBody.returns`); and around every statement
of a run there are only statements up to a call, or up to where the run began
(`Moment.around`).
-/

namespace ClassScript.Machine

open Syntax Object

/-- The jump that a statement ended with. -/
def Completion.exit? : Completion → Option Exit
  | .normal => none
  | .returned _ => some .return
  | .broke => some .break
  | .continued => some .continue

/-- What ends with no jump but a `return` ends with none that is for a loop. -/
theorem Completion.not_for_loop {c : Completion}
    (only_return : ∀ exit, c.exit? = some exit → exit = .return) :
    c ≠ .broke ∧ c ≠ .continued := by
  refine ⟨?_, ?_⟩
  · rintro rfl
    exact absurd (only_return .break rfl) (by decide)
  · rintro rfl
    exact absurd (only_return .continue rfl) (by decide)

/-! ## Which jumps a statement ends with -/

/-- The jumps that a task may end with. -/
def Task.Escapes (exit : Exit) : Task → Prop
  | .execute s => s.Escapes exit
  | .executeAll ss => ∃ s ∈ ss, s.Escapes exit
  | .executeLoop _ body _ => exit = .return ∧ body.Escapes .return
  | _ => False

/-- How a task ended that runs statements. -/
def Task.completion? : (t : Task) → t.Result → Option Completion
  | .execute _, c | .executeAll _, c | .executeLoop .., c => some c
  | .evaluate _, _ | .evaluateAll _, _ | .call .., _ | .invoke .., _ | .evaluate? _, _ => none

/-- Tasks end only with jumps that lead out of them. -/
def jumps : Spec where
  pre _ _ := True
  post t _ c _ := ∀ d, t.completion? c = some d → ∀ exit, d.exit? = some exit → t.Escapes exit
  stopped _ _ _ _ := True
  own _ _ _ := True

namespace Plan

/-- The plan ends only with jumps that lead out of the task, wherever it begins. -/
def Routes (t : Task) (p : Plan Completion) : Prop :=
  ∀ m, p.Meets (jumps.and .top) (fun _ => True)
    (fun c _ => ∀ exit, c.exit? = some exit → t.Escapes exit) (fun _ _ => True) m

namespace Routes

variable {α : Type} {t : Task}

theorem ret {c : Completion} (routed : ∀ exit, c.exit? = some exit → t.Escapes exit) :
    (Plan.ret c).Routes t := fun _ => routed

theorem normal : (Plan.ret Completion.normal).Routes t := ret fun _ h => nomatch h

theorem prim {x : Run α} {f : α → Plan Completion} (rest : ∀ a, (f a).Routes t) :
    (Plan.prim x >>= f).Routes t := by
  intro m
  rw [meets_bind, meets_prim]
  refine ⟨?_, fun _ _ _ => ⟨trivial, trivial⟩⟩
  intro a m' _
  exact rest a m'

/-- A task routes what it completes with, if the rest of the plan does so for each of its jumps.
-/
theorem sub {u : Task} {f : u.Result → Plan Completion}
    (rest : ∀ c, (∀ d, u.completion? c = some d → ∀ exit, d.exit? = some exit → u.Escapes exit) →
      (f c).Routes t) :
    (Plan.sub u >>= f).Routes t := by
  intro m
  rw [meets_bind, meets_sub]
  refine ⟨trivial, ?_, fun _ _ _ => trivial⟩
  intro c m' h
  exact rest c h.1 m'

end Routes

end Plan

section

open Plan Plan.Routes

/-- A task that hands over to another one. -/
theorem routes_sub_execute {t : Task} {s : Stmt}
    (out : ∀ exit, s.Escapes exit → t.Escapes exit) :
    (Plan.sub (.execute s) : Plan Completion).Routes t := by
  refine fun m => meets_sub.mpr ⟨trivial, ?_, fun _ _ _ => trivial⟩
  intro c m' h exit ends
  exact out exit (h.1 c rfl exit ends)

/-- The jumps that a statement completes with are those that escape it. -/
theorem routes_execute (s : Stmt) : (Task.execute s).plan.Routes (.execute s) := by
  cases s with
  | expression e => exact sub fun _ _ => normal
  | print e => exact sub fun _ _ => prim fun _ => normal
  | var name initializer => exact sub fun _ _ => prim fun _ => normal
  | block body =>
    refine prim fun scope => fun m => meets_inside.mpr ⟨trivial, ?_, fun _ _ _ => trivial⟩
    intro c m' h exit ends
    -- what leaves the block left one of its statements
    obtain ⟨s, part, inner⟩ := h.1 c rfl exit ends
    exact .block part inner
  | branch condition yes no =>
    apply Routes.sub
    intro v _
    cases v.isTruthy with
    | true => exact routes_sub_execute fun _ inner => .yes inner
    | false =>
      cases no with
      | none => exact normal
      | some no => exact routes_sub_execute fun _ inner => .no inner
  | loop condition body increment =>
    refine fun m => meets_sub.mpr ⟨trivial, ?_, fun _ _ _ => trivial⟩
    intro c m' h exit ends
    -- of the three exits only a return gets out of a loop
    obtain ⟨rfl, inner⟩ := h.1 c rfl exit ends
    exact .loop inner
  | function declaration => exact prim fun _ => prim fun _ => normal
  | «return» line value =>
    refine sub fun v _ => ret fun exit ends => ?_
    cases ends
    exact .return line value
  | «break» line =>
    apply Routes.ret
    intro exit ends
    cases ends
    exact .break line
  | «continue» line =>
    apply Routes.ret
    intro exit ends
    cases ends
    exact .continue line
  -- a class only defines: the bodies of its methods are not run
  | classDecl name superclass methods =>
    cases superclass with
    | none => exact prim fun _ => prim fun _ => prim fun _ => prim fun _ => normal
    | some superclass =>
      exact sub fun _ _ => prim fun _ => prim fun _ => prim fun _ => prim fun _ =>
        prim fun _ => normal

/-- So are those of statements in a row, which the first jump ends. -/
theorem routes_executeAll (ss : List Stmt) :
    (Task.executeAll ss).plan.Routes (.executeAll ss) := by
  cases ss with
  | nil => exact normal
  | cons s rest =>
    apply Routes.sub
    intro c first
    have jump : (Plan.ret c).Routes (.executeAll (s :: rest)) :=
      ret fun exit ends => ⟨s, List.mem_cons_self, first c rfl exit ends⟩
    cases c with
    | normal =>
      refine fun m => meets_sub.mpr ⟨trivial, ?_, fun _ _ _ => trivial⟩
      intro c m' h exit ends
      obtain ⟨s', part, inner⟩ := h.1 c rfl exit ends
      exact ⟨s', List.mem_cons_of_mem s part, inner⟩
    | _ => exact jump

/-- A loop takes `break` and `continue` for itself, and lets `return` pass. -/
theorem routes_executeLoop (condition : Expr) (body : Stmt) (increment : Option Expr) :
    (Task.executeLoop condition body increment).plan.Routes
      (.executeLoop condition body increment) := by
  apply Routes.sub
  intro v _
  cases v.isTruthy with
  | false => exact normal
  | true =>
    apply Routes.sub
    intro c round
    have again : (Plan.sub (.evaluate? increment) >>= fun _ =>
        Plan.sub (.executeLoop condition body increment) : Plan Completion).Routes
          (.executeLoop condition body increment) :=
      sub fun _ _ => fun m => meets_sub.mpr
        ⟨trivial, fun c _ h exit ends => h.1 c rfl exit ends, fun _ _ _ => trivial⟩
    cases c with
    | normal => exact again
    | continued => exact again
    | broke => exact normal
    | returned value =>
      -- the only jump that leaves the loop is one that left its body
      apply Routes.ret
      intro exit ends
      cases ends
      exact ⟨rfl, round (.returned value) rfl .return rfl⟩

end

theorem kept_jumps : Kept jumps .top where
  given := Spec.holdsAlways_top
  out _ _ _ := trivial
  plans t m _ := by
    have routed {t : Task} {p : Plan Completion} (routes : p.Routes t) :
        p.Meets (jumps.and .top) (fun _ => True)
          (fun c _ => ∀ d, some c = some d → ∀ exit, d.exit? = some exit → t.Escapes exit)
          (fun _ _ => True) m :=
      (routes m).imp (fun _ h => h)
        (fun c _ h d same => (Option.some.inj same) ▸ h) fun _ _ h => h
    -- what gives a value does not end with a completion at all
    have silent {α : Type} {t : Task} (p : Plan α) :
        p.Meets (jumps.and .top) (fun _ => True)
          (fun _ _ => ∀ d : Completion, none = some d → ∀ exit, d.exit? = some exit →
            t.Escapes exit)
          (fun _ _ => True) m := by
      refine Plan.meets_of_trivial (fun _ _ => trivial) (fun _ => trivial) ?_
        (fun _ _ => trivial) p
      intro a m' d none
      cases none
    cases t with
    | execute s => exact routed (routes_execute s)
    | executeAll ss => exact routed (routes_executeAll ss)
    | executeLoop c b i => exact routed (routes_executeLoop c b i)
    | evaluate e => exact silent _
    | evaluateAll es => exact silent _
    | call f vs line => exact silent _
    | invoke c vs => exact silent _
    | evaluate? e => exact silent _

/-- A statement ends with a jump only if one leads out of it. -/
theorem ends_with_jump {fuel : Nat} {s : Stmt} {m m' : State} {c : Completion}
    (h : execute fuel s m = .ok c m') {exit : Exit} (ends : c.exit? = some exit) :
    s.Escapes exit := by
  have outcome := kept_jumps.holds fuel (.execute s) m trivial
  simp only [Task.run, h] at outcome
  exact outcome.1 c rfl exit ends

/-- Statements in a row end with a jump only if one leads out of one of them. -/
theorem all_end_with_jump {fuel : Nat} {ss : List Stmt} {m m' : State} {c : Completion}
    (h : executeAll fuel ss m = .ok c m') {exit : Exit} (ends : c.exit? = some exit) :
    ∃ s ∈ ss, s.Escapes exit := by
  have outcome := kept_jumps.holds fuel (.executeAll ss) m trivial
  simp only [Task.run, h] at outcome
  exact outcome.1 c rfl exit ends

/-! ## The way of a returned value -/

namespace Plan

/-- A value that a task returns which the plan calls is what the plan returns. -/
def PassesReturns : Plan Completion → Prop
  | ret _ => True
  | step _ next => ∀ b, (next b).PassesReturns
  | call _ _ t next =>
    (∀ c v, t.completion? c = some (.returned v) → next c = ret (.returned v)) ∧
      ∀ c, (next c).PassesReturns

theorem passesReturns_sub {t : Task} {f : t.Result → Plan Completion} :
    (sub t >>= f).PassesReturns ↔
      (∀ c v, t.completion? c = some (.returned v) → f c = ret (.returned v)) ∧
        ∀ c, (f c).PassesReturns :=
  Iff.rfl

/-- Where a task is called that returns, a plan that lets returns pass returns the same. -/
theorem PassesReturns.run {tasks : (t : Task) → Run t.Result} {u : Task} {c : u.Result}
    {v : Value} {m m₁ m₂ : State} {p : Plan Completion} (calls : Calls tasks u m₁ p m)
    (ran : tasks u m₁ = .ok c m₂) (returns : u.completion? c = some (.returned v))
    (passes : p.PassesReturns) : ∃ m₃, p.run tasks m = .ok (.returned v) m₃ := by
  induction calls with
  | here state =>
    simp only [Plan.run, state, ran, passes.1 c v returns]
    exact ⟨_, rfl⟩
  | later first rest ih => simpa only [Plan.run, first] using ih (passes.2 _)
  | stepped first rest ih => simpa only [Plan.run, first] using ih (passes _)

end Plan

/-- The task runs statements. -/
def Task.RunsStatements : Task → Prop
  | .execute _ | .executeAll _ | .executeLoop .. => True
  | _ => False

/-- The task, run with the given fuel, ends by returning the value. -/
def Task.Returns (t : Task) (fuel : Nat) (m : State) (v : Value) : Prop :=
  ∃ c m', t.run fuel m = .ok c m' ∧ t.completion? c = some (.returned v)

section Passing

open Plan

/-- Statements let returns pass. -/
theorem passesReturns_execute (s : Stmt) : (Task.execute s).plan.PassesReturns := by
  cases s with
  | expression e => simp [Task.plan, Task.planOfStmt, sub, PassesReturns, Task.completion?]
  | print e => simp [Task.plan, Task.planOfStmt, sub, prim, PassesReturns, Task.completion?]
  | var name initializer =>
    simp [Task.plan, Task.planOfStmt, sub, prim, PassesReturns, Task.completion?]
  | block body =>
    simp [Task.plan, Task.planOfStmt, inside, prim, PassesReturns, Task.completion?]
  | branch condition yes no =>
    -- the condition is an expression and returns nothing; the part chosen is the last step
    refine passesReturns_sub.mpr ⟨fun _ _ h => (by cases h), fun v => ?_⟩
    cases v.isTruthy with
    | true => simp [sub, PassesReturns, Task.completion?]
    | false => cases no <;> simp [sub, PassesReturns, Task.completion?]
  | loop condition body increment =>
    simp [Task.plan, Task.planOfStmt, sub, PassesReturns, Task.completion?]
  | function declaration => simp [Task.plan, Task.planOfStmt, prim, PassesReturns]
  | «return» line value =>
    simp [Task.plan, Task.planOfStmt, sub, PassesReturns, Task.completion?]
  | «break» line => trivial
  | «continue» line => trivial
  | classDecl name superclass methods =>
    cases superclass <;>
      simp [Task.plan, Task.planOfStmt, Task.planOfClass, sub, prim, PassesReturns,
        Task.completion?]

theorem passesReturns_executeAll (ss : List Stmt) :
    (Task.executeAll ss).plan.PassesReturns := by
  cases ss with
  | nil => trivial
  | cons s rest =>
    refine passesReturns_sub.mpr ⟨fun c v h => ?_, fun c => ?_⟩
    · cases Option.some.inj h
      rfl
    · cases c <;> simp [sub, PassesReturns, Task.completion?]

/-- So do loops. -/
theorem passesReturns_executeLoop (condition : Expr) (body : Stmt)
    (increment : Option Expr) :
    (Task.executeLoop condition body increment).plan.PassesReturns := by
  refine passesReturns_sub.mpr ⟨fun _ _ h => (by cases h), fun v => ?_⟩
  cases v.isTruthy with
  | false => trivial
  | true =>
    refine passesReturns_sub.mpr ⟨fun c v h => ?_, fun c => ?_⟩
    · cases Option.some.inj h
      rfl
    · cases c <;> simp [sub, PassesReturns, Task.completion?]

end Passing

/-- Where a task returns a value that statements call, they return it. -/
theorem Task.Returns.pass {n : Nat} {t u : Task} {m m₁ : State} {v : Value}
    (runs : t.RunsStatements) (calls : t.plan.Calls (Task.tasksAt n) u m₁ m)
    (returns : u.Returns n m₁ v) :
    t.Returns (n + 1) m v := by
  obtain ⟨c, m₂, ran, same⟩ := returns
  -- a plan that passes returns on ends as the task that returned
  have passed {p : Plan Completion} (passes : p.PassesReturns)
      (calls : p.Calls (Task.tasksAt n) u m₁ m) :
      ∃ m₃, p.run (Task.tasksAt n) m = .ok (.returned v) m₃ :=
    passes.run calls ran same
  cases t with
  | execute s =>
    obtain ⟨m₃, h⟩ := passed (passesReturns_execute s) calls
    exact ⟨.returned v, m₃, by rw [Task.run_succ]; exact h, rfl⟩
  | executeAll ss =>
    obtain ⟨m₃, h⟩ := passed (passesReturns_executeAll ss) calls
    exact ⟨.returned v, m₃, by rw [Task.run_succ]; exact h, rfl⟩
  | executeLoop c b i =>
    obtain ⟨m₃, h⟩ := passed (passesReturns_executeLoop c b i) calls
    exact ⟨.returned v, m₃, by rw [Task.run_succ]; exact h, rfl⟩
  | _ => exact runs.elim

/-- A run of statements contains a run of another task, with nothing but statements
around it: no call lies between the two. -/
inductive Within (fuel : Nat) (t : Task) (m : State) : Nat → Task → State → Prop
  | here : Within fuel t m fuel t m
  | inner {n u m₁ u' m₂} (outer : Within fuel t m (n + 1) u m₁) (runs : u.RunsStatements)
      (calls : u.plan.Calls (Task.tasksAt n) u' m₂ m₁) : Within fuel t m n u' m₂

namespace Within

variable {n k : Nat} {t u : Task} {m m₁ m₂ : State} {v : Value}

/-- A value that is returned inside statements is what they return. -/
theorem returns (inside : Within n t m k u m₁) (ends : u.Returns k m₁ v) :
    t.Returns n m v := by
  induction inside with
  | here => exact ends
  | inner _ runs calls ih => exact ih (ends.pass runs calls)

end Within

/-! ## The call around a statement -/

namespace Plan

/-- The plan calls only such tasks. -/
def CallsOnly {α : Type} (such : Task → Prop) : Plan α → Prop
  | ret _ => True
  | step _ next => ∀ b, (next b).CallsOnly such
  | call _ _ t next => such t ∧ ∀ b, (next b).CallsOnly such

/-- What a plan calls is among what it may call. -/
theorem CallsOnly.of_calls {α : Type} {such : Task → Prop} {tasks : (t : Task) → Run t.Result}
    {t : Task} {m m₀ : State} {p : Plan α} (only : p.CallsOnly such)
    (calls : Calls tasks t m p m₀) : such t := by
  induction calls with
  | here _ => exact only.1
  | later _ _ ih => exact ih (only.2 _)
  | stepped _ _ ih => exact ih (only _)

/-- Expressions run statements through calls only. -/
theorem callsOnly_planOfExpr (e : Expr) :
    (Task.planOfExpr e).CallsOnly fun t => ¬ t.RunsStatements := by
  cases e with
  | logical op left right =>
    refine ⟨id, fun v => ?_⟩
    show CallsOnly _ (if decides op v then _ else _)
    split
    · trivial
    · exact ⟨id, fun _ => trivial⟩
  | set object name value =>
    refine ⟨id, fun o => ?_⟩
    cases o with
    | object o => exact ⟨id, fun _ _ => trivial⟩
    | _ => exact fun _ => trivial
  | _ => simp [Task.planOfExpr, sub, prim, CallsOnly, Task.RunsStatements]

theorem callsOnly_planOfCall (f : Value) (vs : List Value) (line : Nat) :
    (Task.planOfCall f vs line).CallsOnly fun t => ¬ t.RunsStatements := by
  cases f with
  | cls c =>
    intro o
    cases c.method? initializerName with
    | some initializer =>
      intro bound
      exact ⟨id, fun _ => trivial⟩
    | none => trivial
  | function id closure => exact ⟨fun runs => runs, fun _ => trivial⟩
  | _ => exact fun _ => trivial

end Plan

/-- Statements are run by statements around them, or by a call. -/
theorem called_by_statement_or_invoke {n : Nat} {t u : Task} {m m₁ : State}
    (calls : t.plan.Calls (Task.tasksAt n) u m₁ m) (runs : u.RunsStatements) :
    t.RunsStatements ∨ ∃ closure arguments, t = .invoke closure arguments := by
  -- an expression calls expressions and functions, never a statement
  have never {p : Plan t.Result} (same : t.plan = p)
      (only : p.CallsOnly fun t => ¬ t.RunsStatements) : False :=
    (same ▸ only).of_calls calls runs
  cases t with
  | execute s => exact .inl trivial
  | executeAll ss => exact .inl trivial
  | executeLoop c b i => exact .inl trivial
  | invoke closure arguments => exact .inr ⟨closure, arguments, rfl⟩
  | evaluate e => exact (never rfl (Plan.callsOnly_planOfExpr e)).elim
  | evaluateAll es =>
    cases es with
    | nil => exact (never rfl trivial).elim
    | cons e rest => exact (never rfl ⟨id, fun _ => ⟨id, fun _ => trivial⟩⟩).elim
  | call f vs line => exact (never rfl (Plan.callsOnly_planOfCall f vs line)).elim
  | evaluate? e =>
    cases e with
    | none => exact (never rfl trivial).elim
    | some e => exact (never rfl ⟨id, fun _ => trivial⟩).elim

/-- What a call runs is the body of its function, in the scope of the call. -/
theorem called_by_invoke {tasks : (t : Task) → Run t.Result} {closure : Closure}
    {arguments : List Value} {u : Task} {m m₁ : State}
    (calls : (Task.invoke closure arguments).plan.Calls tasks u m₁ m) :
    ∃ scope m₂, callScope closure arguments m = .ok scope m₂ ∧
      u = .executeAll closure.declaration.body ∧ m₁ = { m₂ with current := scope } := by
  cases calls with
  | stepped made rest =>
    cases rest with
    | here state => exact ⟨_, _, made, rfl, state.symm⟩
    | later _ rest =>
      cases rest with
      | stepped _ rest => cases rest

/-- The run of a call's body contains a run of another task, with nothing but
statements around it. -/
def InBody (fuel : Nat) (closure : Closure) (arguments : List Value) (m : State) (n : Nat)
    (t : Task) (m' : State) : Prop :=
  ∃ scope m₁, callScope closure arguments m = .ok scope m₁ ∧
    Within fuel (.executeAll closure.declaration.body) { m₁ with current := scope } n t m'

/-- Around every run of a statement there are only statements, up to the nearest call
or to where the whole run began. -/
theorem Moment.around {fuel k : Nat} {t u : Task} {m m₁ : State}
    (moment : Moment fuel t m k u m₁) (runs : u.RunsStatements) :
    Within fuel t m k u m₁ ∨ ∃ n closure arguments m₀,
      Moment fuel t m (n + 1) (.invoke closure arguments) m₀ ∧
        InBody n closure arguments m₀ k u m₁ := by
  induction moment with
  | start => exact .inl .here
  | @called n u m₁ u' m₂ before calls ih =>
    -- what calls the statement is one around it, and the way goes on there, or a call
    rcases called_by_statement_or_invoke calls runs with outer | ⟨closure, arguments, rfl⟩
    · rcases ih outer with whole | ⟨k, closure, arguments, m₀, call, scope, m₃, made, inside⟩
      · exact .inl (.inner whole outer calls)
      · exact .inr ⟨k, closure, arguments, m₀, call, scope, m₃, made,
          .inner inside outer calls⟩
    · obtain ⟨scope, m₃, made, rfl, rfl⟩ := called_by_invoke calls
      exact .inr ⟨n, closure, arguments, m₁, before, scope, m₃, made, .here⟩

/-- The call gets what is returned inside its body: its body ends by returning that
value, and so does the call, unless it gives the object that it initializes. -/
theorem InBody.returns {fuel n : Nat} {closure : Closure} {arguments : List Value}
    {t : Task} {m m' : State} {v : Value} (inside : InBody fuel closure arguments m n t m')
    (ends : t.Returns n m' v) :
    ∃ scope m₁ m₂, callScope closure arguments m = .ok scope m₁ ∧
      executeAll fuel closure.declaration.body { m₁ with current := scope } =
        .ok (.returned v) m₂ ∧
      (closure.isInitializer = false →
        invoke (fuel + 1) closure arguments m =
          .ok v { m₂ with current := m₁.current }) := by
  obtain ⟨scope, m₁, made, within⟩ := inside
  obtain ⟨c, m₂, ran, same⟩ := within.returns ends
  cases Option.some.inj same
  simp only [Task.run] at ran
  refine ⟨scope, m₁, m₂, made, ran, fun plain => ?_⟩
  simp only [invoke, bind, EStateM.bind, made, Machine.within, ran, callResult, plain]
  rfl

end ClassScript.Machine
