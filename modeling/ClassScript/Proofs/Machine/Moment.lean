import ClassScript.Proofs.Machine.Plan

/-!
# What holds throughout a run

A specification says what must hold where a task begins and what holds where it
ends. It is enough to look at one plan at a time: a plan that keeps to it as long as
the tasks it calls do (`Plan.Meets`) keeps to it in every run (`Kept.holds`), at
every moment of it (`Kept.moment`), and wherever it goes wrong (`Kept.blame`).
-/

namespace ClassScript.Machine

open Syntax Object

/-! ## What holds of every run -/

/-- What a run keeps: what must hold where a task begins, what holds where it ends
with a result, and what holds where it stops. `own` says why a task may stop of
itself, and not because a task that it called stopped. -/
structure Spec where
  pre : Task → State → Prop
  post : (t : Task) → State → t.Result → State → Prop
  stopped : Task → State → Stop → State → Prop
  own : Task → State → Stop → Prop

namespace Spec

/-- What a specification says of the outcome of a task. -/
def Outcome (S : Spec) (t : Task) (m : State) :
    EStateM.Result Stop State t.Result → Prop
  | .ok a m' => S.post t m a m'
  | .error e m' => S.stopped t m e m'

/-- Every run keeps to the specification. -/
def Holds (S : Spec) : Prop :=
  ∀ (fuel : Nat) (t : Task) (m : State), S.pre t m → S.Outcome t m (t.run fuel m)

/-- Every run keeps to the specification, wherever it begins. -/
def HoldsAlways (S : Spec) : Prop :=
  ∀ (fuel : Nat) (t : Task) (m : State), S.Outcome t m (t.run fuel m)

/-- A specification that asks for nothing. -/
def top : Spec := ⟨fun _ _ => True, fun _ _ _ _ => True, fun _ _ _ _ => True,
  fun _ _ _ => True⟩

/-- Two specifications at once, of which the second one holds wherever a run
begins. -/
def and (S T : Spec) : Spec where
  pre := S.pre
  post t m a m' := S.post t m a m' ∧ T.post t m a m'
  stopped t m e m' := S.stopped t m e m' ∧ T.stopped t m e m'
  own := S.own

theorem holdsAlways_top : top.HoldsAlways := by
  intro fuel t m
  cases h : t.run fuel m <;> trivial

/-- Two specifications are met together if each is. -/
theorem Outcome.and {S T : Spec} {t : Task} {m : State}
    {r : EStateM.Result Stop State t.Result} (first : S.Outcome t m r)
    (second : T.Outcome t m r) : (S.and T).Outcome t m r := by
  cases r <;> exact ⟨first, second⟩

end Spec

namespace Plan

variable {α : Type}

/-- The plan, begun in the given state, reaches one of the ends allowed to it if the
tasks that it calls keep to the specification, and calls them only where it may. -/
def Meets (S : Spec) (own : Stop → Prop) (done : α → State → Prop)
    (stopped : Stop → State → Prop) : Plan α → State → Prop
  | ret a, m => done a m
  | step x next, m =>
    match x m with
    | .ok b m' => (next b).Meets S own done stopped m'
    | .error e m' => own e ∧ stopped e m'
  | call enter leave t next, m =>
    S.pre t (enter m) ∧
      (∀ b m', S.post t (enter m) b m' →
        (next b).Meets S own done stopped (leave m m')) ∧
      ∀ e m', S.stopped t (enter m) e m' → stopped e (leave m m')

/-- The plan, begun in the given state, calls the task in that state. -/
inductive Calls (tasks : (t : Task) → Run t.Result) (t : Task) (m : State) :
    Plan α → State → Prop
  | here {enter leave next m₀} (state : enter m₀ = m) :
      Calls tasks t m (.call enter leave t next) m₀
  | later {enter leave u next m₀ b m₁} (ran : tasks u (enter m₀) = .ok b m₁)
      (rest : Calls tasks t m (next b) (leave m₀ m₁)) :
      Calls tasks t m (.call enter leave u next) m₀
  | stepped {β : Type} {x : Run β} {next m₀ b m₁} (ran : x m₀ = .ok b m₁)
      (rest : Calls tasks t m (next b) m₁) : Calls tasks t m (.step x next) m₀

/-- The plan, begun in the given state, stops of itself: one of its own steps does,
and the tasks that it called before ended with a result. -/
def Breaks (tasks : (t : Task) → Run t.Result) (e : Stop) : Plan α → State → Prop
  | ret _, _ => False
  | step x next, m =>
    match x m with
    | .ok b m' => (next b).Breaks tasks e m'
    | .error e' _ => e' = e
  | call enter leave t next, m =>
    match tasks t (enter m) with
    | .ok b m' => (next b).Breaks tasks e (leave m m')
    | .error _ _ => False

variable {tasks : (t : Task) → Run t.Result} {S : Spec} {own : Stop → Prop}
  {done : α → State → Prop} {stopped : Stop → State → Prop}

/-- Where a plan ends that meets its conditions. -/
theorem Meets.outcome (keeps : ∀ t m, S.pre t m → S.Outcome t m (tasks t m)) :
    ∀ (p : Plan α) (m : State), p.Meets S own done stopped m →
      match p.run tasks m with
      | .ok a m' => done a m'
      | .error e m' => stopped e m' := by
  intro p
  induction p with
  | ret a =>
    intro m h
    exact h
  | step x next ih =>
    intro m h
    simp only [Meets] at h
    simp only [run]
    cases hx : x m with
    | ok b m' => rw [hx] at h; exact ih b m' h
    | error e m' => rw [hx] at h; exact h.2
  | call enter leave t next ih =>
    -- the called task begins as it has to, so it keeps to the specification
    intro m h
    obtain ⟨begins, ends, stops⟩ := h
    have outcome := keeps t (enter m) begins
    simp only [run]
    cases ht : tasks t (enter m) with
    | ok b m' => rw [ht] at outcome; exact ih b _ (ends b m' outcome)
    | error e m' => rw [ht] at outcome; exact stops e m' outcome

/-- Tasks are called only where they may be. -/
theorem Meets.of_calls (keeps : ∀ t m, S.pre t m → S.Outcome t m (tasks t m))
    {t : Task} {m : State} {p : Plan α} {m₀ : State} (calls : Calls tasks t m p m₀)
    (h : p.Meets S own done stopped m₀) : S.pre t m := by
  induction calls with
  | here state => exact state ▸ h.1
  | @later enter leave u next m₀ b m₁ ran rest ih =>
    have outcome := keeps u (enter m₀) h.1
    rw [ran] at outcome
    exact ih (h.2.1 b m₁ outcome)
  | stepped ran rest ih =>
    simp only [Meets, ran] at h
    exact ih h

/-- A plan that stops of itself does so for a reason that it may have. -/
theorem Meets.of_breaks (keeps : ∀ t m, S.pre t m → S.Outcome t m (tasks t m))
    {e : Stop} : ∀ (p : Plan α) (m : State), p.Breaks tasks e m →
      p.Meets S own done stopped m → own e := by
  intro p
  induction p with
  | ret a =>
    intro m broken
    exact broken.elim
  | step x next ih =>
    intro m broken h
    simp only [Breaks] at broken
    simp only [Meets] at h
    cases hx : x m with
    | ok b m' => rw [hx] at broken h; exact ih b m' broken h
    | error e' m' => rw [hx] at broken h; exact broken ▸ h.1
  | call enter leave t next ih =>
    intro m broken h
    -- a call that fails is not the plan's own failure
    have outcome := keeps t (enter m) h.1
    simp only [Breaks] at broken
    cases ht : tasks t (enter m) with
    | ok b m' =>
      rw [ht] at broken outcome
      exact ih b _ broken (h.2.1 b m' outcome)
    | error e' m' => rw [ht] at broken; exact broken.elim

/-- Where a plan stops, one of its own steps does or a task that it calls. -/
theorem breaks_or_calls {e : Stop} : ∀ (p : Plan α) (m m' : State),
    p.run tasks m = .error e m' →
      p.Breaks tasks e m ∨ ∃ t m₁ m₂, Calls tasks t m₁ p m ∧ tasks t m₁ = .error e m₂ := by
  intro p
  induction p with
  | ret a => intro m m' h; simp [run] at h
  | step x next ih =>
    intro m m' h
    simp only [run] at h
    cases hx : x m with
    | ok b m₁ =>
      rw [hx] at h
      -- what stops the rest stops the whole, one step later
      rcases ih b m₁ m' h with broken | ⟨t, m₂, m₃, calls, stops⟩
      · exact .inl (by simpa only [Breaks, hx] using broken)
      · exact .inr ⟨t, m₂, m₃, .stepped hx calls, stops⟩
    | error e' m₁ =>
      rw [hx] at h
      cases h
      exact .inl (by simp only [Breaks, hx])
  | call enter leave t next ih =>
    intro m m' h
    simp only [run] at h
    cases ht : tasks t (enter m) with
    | ok b m₁ =>
      rw [ht] at h
      rcases ih b _ m' h with broken | ⟨u, m₂, m₃, calls, stops⟩
      · exact .inl (by simpa only [Breaks, ht] using broken)
      · exact .inr ⟨u, m₂, m₃, .later ht calls, stops⟩
    | error e' m₁ =>
      rw [ht] at h
      cases h
      exact .inr ⟨t, enter m, m₁, .here rfl, ht⟩

/-- A plan stops where a task stops that it calls. -/
theorem Calls.error {e : Stop} {t : Task} {m m' : State} {p : Plan α} {m₀ : State}
    (calls : Calls tasks t m p m₀) (stops : tasks t m = .error e m') :
    ∃ m₁, p.run tasks m₀ = .error e m₁ := by
  induction calls with
  | here state => simp only [run, state, stops]; exact ⟨_, rfl⟩
  | later ran rest ih => simpa only [run, ran] using ih
  | stepped ran rest ih => simpa only [run, ran] using ih

/-! ## Conditions of a plan, step by step -/

section Steps

variable {β : Type} {m : State}

@[simp] theorem meets_ret {a : α} :
    (ret a).Meets S own done stopped m ↔ done a m := Iff.rfl

/-- What must hold after a part of a plan is that the rest can go on. -/
theorem meets_bind {p : Plan β} {f : β → Plan α} :
    (p >>= f).Meets S own done stopped m ↔
      p.Meets S own (fun b m' => (f b).Meets S own done stopped m') stopped m := by
  induction p generalizing m with
  | ret b => rfl
  | step x next ih =>
    simp only [bind_step, Meets]
    cases x m with
    | ok b m' => exact ih b
    | error e m' => rfl
  | call enter leave t next ih =>
    simp only [bind_call, Meets, ih]

/-- A plan that ends in one way ends in any that follows from it. -/
theorem Meets.imp {own' : Stop → Prop} {done' : α → State → Prop}
    {stopped' : Stop → State → Prop} (hown : ∀ e, own e → own' e)
    (hdone : ∀ a m, done a m → done' a m) (hstopped : ∀ e m, stopped e m → stopped' e m)
    {p : Plan α} (h : p.Meets S own done stopped m) : p.Meets S own' done' stopped' m := by
  induction p generalizing m with
  | ret a => exact hdone a m h
  | step x next ih =>
    simp only [Meets] at h ⊢
    cases hx : x m with
    | ok b m' => rw [hx] at h; exact ih b h
    | error e m' => rw [hx] at h; exact ⟨hown e h.1, hstopped e m' h.2⟩
  | call enter leave t next ih =>
    refine ⟨h.1, ?_, ?_⟩
    · intro b m' ends
      exact ih b (h.2.1 b m' ends)
    · intro e m' stops
      exact hstopped e _ (h.2.2 e m' stops)

/-- A plan meets conditions that say nothing. -/
theorem meets_of_trivial (begins : ∀ t m, S.pre t m) (own_any : ∀ e, own e)
    (done_any : ∀ a m, done a m) (stopped_any : ∀ e m, stopped e m) (p : Plan α) :
    p.Meets S own done stopped m := by
  induction p generalizing m with
  | ret a => exact done_any a m
  | step x next ih =>
    simp only [Meets]
    cases x m with
    | ok b m' => exact ih b
    | error e m' => exact ⟨own_any e, stopped_any e m'⟩
  | call enter leave t next ih =>
    refine ⟨begins t _, ?_, ?_⟩
    · intro b m' _
      exact ih b
    · intro e m' _
      exact stopped_any e _

/-- A task that is called must be ready, and all that it may end with must do. -/
theorem meets_sub {t : Task} {done : t.Result → State → Prop} :
    (sub t).Meets S own done stopped m ↔
      S.pre t m ∧ (∀ a m', S.post t m a m' → done a m') ∧
        ∀ e m', S.stopped t m e m' → stopped e m' :=
  Iff.rfl

/-- Behind a call a plan stops of itself where the rest of it does. -/
theorem breaks_sub {t : Task} {f : t.Result → Plan α} {e : Stop} :
    (sub t >>= f).Breaks tasks e m ↔
      ∃ b m', tasks t m = .ok b m' ∧ (f b).Breaks tasks e m' := by
  show (call id (fun _ m => m) t f).Breaks tasks e m ↔ _
  simp only [Breaks, id]
  cases tasks t m with
  | ok b m' =>
    refine ⟨fun rest => ⟨b, m', rfl, rest⟩, ?_⟩
    rintro ⟨_, _, ⟨⟩, rest⟩
    exact rest
  | error e' m' => simp

/-- A plan stops of itself at a step, or behind it. -/
theorem breaks_prim {x : Run β} {f : β → Plan α} {e : Stop} :
    (prim x >>= f).Breaks tasks e m ↔
      (∃ b m', x m = .ok b m' ∧ (f b).Breaks tasks e m') ∨ ∃ m', x m = .error e m' := by
  show (step x f).Breaks tasks e m ↔ _
  simp only [Breaks]
  cases x m with
  | ok b m' =>
    refine ⟨fun rest => .inl ⟨b, m', rfl, rest⟩, ?_⟩
    rintro (⟨_, _, ⟨⟩, rest⟩ | ⟨_, ⟨⟩⟩)
    exact rest
  | error e' m' => simp

theorem meets_inside {scope : ScopeId} {t : Task} {done : t.Result → State → Prop} :
    (inside scope t).Meets S own done stopped m ↔
      S.pre t { m with current := scope } ∧
        (∀ a m', S.post t { m with current := scope } a m' →
          done a { m' with current := m.current }) ∧
        ∀ e m', S.stopped t { m with current := scope } e m' →
          stopped e { m' with current := m.current } :=
  Iff.rfl

theorem meets_prim {x : Run α} :
    (prim x).Meets S own done stopped m ↔
      (∀ a m', x m = .ok a m' → done a m') ∧
        ∀ e m', x m = .error e m' → own e ∧ stopped e m' := by
  simp only [prim, Meets]
  cases x m with
  | ok b m' => simp
  | error e m' => simp

end Steps

end Plan

/-! ## Specifications that are kept -/

/-- The plan of every task meets a specification. That a second one holds is given,
and may be used of the tasks that the plan calls. -/
structure Kept (S T : Spec) : Prop where
  given : T.HoldsAlways
  out : ∀ t m, S.pre t m → S.stopped t m .outOfFuel m
  plans : ∀ t m, S.pre t m →
    t.plan.Meets (S.and T) (S.own t m) (S.post t m) (S.stopped t m) m

namespace Kept

variable {S T : Spec}

/-- A specification that is kept along with another one holds, by induction on the fuel. -/
theorem holds (kept : Kept S T) : (S.and T).Holds := by
  intro fuel
  -- the tasks that a plan calls have one fuel less, so they keep to it already
  induction fuel with
  | zero =>
    intro t m begins
    refine Spec.Outcome.and ?_ (kept.given 0 t m)
    rw [t.run_zero]
    exact kept.out t m begins
  | succ fuel ih =>
    intro t m begins
    refine Spec.Outcome.and ?_ (kept.given (fuel + 1) t m)
    have keeps : ∀ t m, (S.and T).pre t m →
        (S.and T).Outcome t m (Task.tasksAt fuel t m) := ih
    have outcome := Plan.Meets.outcome keeps t.plan m (kept.plans t m begins)
    rw [t.run_succ]
    cases hr : t.plan.run (Task.tasksAt fuel) m with
    | ok a m' => rw [hr] at outcome; exact outcome
    | error e m' => rw [hr] at outcome; exact outcome

end Kept

/-! ## The moments of a run -/

/-- A run of one task contains a run of another: the task itself, or one that a task
of the run calls. -/
inductive Moment (fuel : Nat) (t : Task) (m : State) : Nat → Task → State → Prop
  | start : Moment fuel t m fuel t m
  | called {n u m₁ u' m₂} (before : Moment fuel t m (n + 1) u m₁)
      (calls : u.plan.Calls (Task.tasksAt n) u' m₂ m₁) : Moment fuel t m n u' m₂

namespace Moment

variable {fuel n : Nat} {t u u' : Task} {m m₁ m₂ : State} {e : Stop}

/-- The moments of a task that a run calls are moments of the run. -/
theorem within (calls : t.plan.Calls (Task.tasksAt fuel) u m₁ m)
    (moment : Moment fuel u m₁ n u' m₂) : Moment (fuel + 1) t m n u' m₂ := by
  induction moment with
  | start => exact .called .start calls
  | called before inner ih => exact .called ih inner

/-- A run stops where a task of it stops. -/
theorem error (moment : Moment fuel t m n u m₁) (stops : u.run n m₁ = .error e m₂) :
    ∃ m', t.run fuel m = .error e m' := by
  induction moment generalizing m₂ with
  | start => exact ⟨m₂, stops⟩
  | @called n u m₁ u' m₃ before calls ih =>
    obtain ⟨m₄, stopped⟩ := calls.error stops
    rw [← u.run_succ] at stopped
    exact ih stopped

/-- A run that stops for another reason than the want of fuel has a task that stops
of itself. -/
theorem of_error (faulty : e ≠ .outOfFuel) (stops : t.run fuel m = .error e m₁) :
    ∃ n u m₂, Moment fuel t m (n + 1) u m₂ ∧ u.plan.Breaks (Task.tasksAt n) e m₂ := by
  induction fuel generalizing t m m₁ with
  | zero =>
    rw [t.run_zero] at stops
    cases stops
    exact absurd rfl faulty
  | succ fuel ih =>
    -- either the task stops of itself, or the search goes on in one that it called
    rw [t.run_succ] at stops
    rcases Plan.breaks_or_calls t.plan m m₁ stops with broken | ⟨u, m₂, m₃, calls, ends⟩
    · exact ⟨fuel, t, m, .start, broken⟩
    · obtain ⟨n, u', m₄, moment, broken⟩ := ih ends
      exact ⟨n, u', m₄, moment.within calls, broken⟩

end Moment

namespace Kept

variable {S T : Spec} {fuel n : Nat} {t u : Task} {m m₁ m' : State} {e : Stop}

/-- What must hold where a task begins holds at every moment. -/
theorem moment (kept : Kept S T) (begins : S.pre t m) (moment : Moment fuel t m n u m₁) :
    S.pre u m₁ := by
  induction moment with
  | start => exact begins
  | @called n u m₁ u' m₂ before calls ih =>
    exact Plan.Meets.of_calls (S := S.and T) (fun t m => kept.holds n t m) calls
      (kept.plans u m₁ ih)

/-- A run that stops for another reason than the want of fuel has a moment at which
a task stops of itself, for a reason that it may have. -/
theorem blame (kept : Kept S T) (begins : S.pre t m) (faulty : e ≠ .outOfFuel)
    (stops : t.run fuel m = .error e m') :
    ∃ n u m₁, Moment fuel t m (n + 1) u m₁ ∧ u.plan.Breaks (Task.tasksAt n) e m₁ ∧
      S.own u m₁ e := by
  obtain ⟨n, u, m₁, moment, broken⟩ := Moment.of_error faulty stops
  have own : S.own u m₁ e :=
    Plan.Meets.of_breaks (S := S.and T) (fun t m => kept.holds n t m) u.plan m₁ broken
      (kept.plans u m₁ (kept.moment begins moment))
  exact ⟨n, u, m₁, moment, broken, own⟩

end Kept

end ClassScript.Machine
