import ClassScript.Proofs.Machine.Trace

/-!
# Courses of given runs

A course asks of every plan that it goes on well whatever the tasks give that it calls. Where
some runs are given, with those that they call, less is to be shown: behind a call it is
known what that call did (`Plan.Heeds`). So what a run leaves behind can be told from what
happened in it, and the runs keep on the course (`Course.of_runs`).
-/

namespace ClassScript.Machine

open Syntax Object

namespace Plan

variable {α β : Type} {C : Course} {tasks : (t : Task) → Run t.Result}
  {done : α → State → Prop} {m : State}

/-- From a machine on, the plan keeps on course as long as the tasks do that it calls. It
calls them only where they may begin, and they do what they are given to do. -/
def Heeds (C : Course) (tasks : (t : Task) → Run t.Result) (done : α → State → Prop) :
    Plan α → State → Prop
  | ret a, m => done a m
  | step x next, m =>
    match x m with
    | .ok b m' => C.inv m' ∧ C.rel m m' ∧ (next b).Heeds C tasks done m'
    | .error _ m' => C.inv m' ∧ C.rel m m'
  | call enter leave t next, m =>
    (C.inv (enter m) ∧ C.rel m (enter m) ∧ C.begins t (enter m)) ∧
      match tasks t (enter m) with
      | .ok b m' => C.inv m' → C.rel (enter m) m' → C.ends t b m' →
        C.inv (leave m m') ∧ C.rel m' (leave m m') ∧ (next b).Heeds C tasks done (leave m m')
      | .error _ m' => C.inv m' → C.rel (enter m) m' →
        C.inv (leave m m') ∧ C.rel m' (leave m m')

/-! ## Rules -/

theorem heeds_ret {a : α} : (ret a).Heeds C tasks done m ↔ done a m := Iff.rfl

theorem heeds_step {x : Run β} {next : β → Plan α} :
    (step x next).Heeds C tasks done m ↔
      match x m with
      | .ok b m' => C.inv m' ∧ C.rel m m' ∧ (next b).Heeds C tasks done m'
      | .error _ m' => C.inv m' ∧ C.rel m m' := by
  rw [Heeds]

theorem heeds_call {enter : State → State} {leave : State → State → State} {t : Task}
    {next : t.Result → Plan α} :
    (call enter leave t next).Heeds C tasks done m ↔
      (C.inv (enter m) ∧ C.rel m (enter m) ∧ C.begins t (enter m)) ∧
        match tasks t (enter m) with
        | .ok b m' => C.inv m' → C.rel (enter m) m' → C.ends t b m' →
          C.inv (leave m m') ∧ C.rel m' (leave m m') ∧ (next b).Heeds C tasks done (leave m m')
        | .error _ m' => C.inv m' → C.rel (enter m) m' →
          C.inv (leave m m') ∧ C.rel m' (leave m m') := by
  rw [Heeds]

/-- What must hold after a part of a plan is that the rest heeds, too. -/
theorem heeds_bind {p : Plan β} {f : β → Plan α} :
    (p >>= f).Heeds C tasks done m ↔
      p.Heeds C tasks (fun b m' => (f b).Heeds C tasks done m') m := by
  induction p generalizing m with
  | ret b => rfl
  | step x next ih =>
    simp only [bind_step, heeds_step]
    cases x m with
    | ok b m' => simp only [ih]
    | error e m' => rfl
  | call enter leave t next ih =>
    simp only [bind_call, heeds_call]
    cases tasks t (enter m) with
    | ok b m' => simp only [ih]
    | error e m' => rfl

/-- A weaker condition at the end is heeded as well. -/
theorem Heeds.imp {done' : α → State → Prop} (hdone : ∀ a m, done a m → done' a m)
    {p : Plan α} (h : p.Heeds C tasks done m) : p.Heeds C tasks done' m := by
  induction p generalizing m with
  | ret a => exact hdone a m h
  | step x next ih =>
    simp only [heeds_step] at h ⊢
    cases hx : x m with
    | ok b m' =>
      rw [hx] at h
      exact ⟨h.1, h.2.1, ih b h.2.2⟩
    | error e m' =>
      rw [hx] at h
      exact h
  | call enter leave t next ih =>
    simp only [heeds_call] at h ⊢
    refine ⟨h.1, ?_⟩
    cases ht : tasks t (enter m) with
    | ok b m' =>
      intro inv rel ends
      rw [ht] at h
      obtain ⟨inv', rel', rest⟩ := h.2 inv rel ends
      exact ⟨inv', rel', ih b rest⟩
    | error e m' =>
      rw [ht] at h
      exact h.2

/-- A step on the machine. -/
theorem Heeds.prim {x : Run α}
    (ok : ∀ a m', x m = .ok a m' → C.inv m' ∧ C.rel m m' ∧ done a m')
    (error : ∀ e m', x m = .error e m' → C.inv m' ∧ C.rel m m') :
    (Plan.prim x).Heeds C tasks done m := by
  simp only [Plan.prim, heeds_step, heeds_ret]
  cases hx : x m with
  | ok a m' => exact ok a m' hx
  | error e m' => exact error e m' hx

/-- A call of a task, behind which it is known what the task did. -/
theorem Heeds.sub {t : Task} (inv : C.inv m) (begins : C.begins t m) :
    (Plan.sub t).Heeds C tasks
      (fun a m' => tasks t m = .ok a m' ∧ C.inv m' ∧ C.ends t a m') m := by
  simp only [Plan.sub, heeds_call, heeds_ret, id]
  refine ⟨⟨inv, C.refl m, begins⟩, ?_⟩
  cases ran : tasks t m with
  | ok a m' =>
    intro inv' rel ends
    exact ⟨inv', C.refl m', rfl, inv', ends⟩
  | error e m' =>
    intro inv' rel
    exact ⟨inv', C.refl m'⟩

/-! ## Runs of plans -/

variable {inner : Task → State → List State}

/-- A plan keeps on course, if the tasks do that it calls. -/
theorem Heeds.keeps :
    ∀ (p : Plan α) (m : State),
      (∀ t m', Calls tasks t m' p m → C.inv m' → C.begins t m' →
        C.Keeps (C.ends t) m' (inner t m') (tasks t m')) →
      C.inv m → p.Heeds C tasks done m →
      C.Keeps done m (p.trace tasks inner m) (p.run tasks m) := by
  intro p
  induction p with
  | ret a =>
    intro m _ inv h
    refine ⟨.single inv, inv, ?_⟩
    rintro _ _ ⟨⟩
    exact h
  | step x next ih =>
    intro m guided inv h
    simp only [heeds_step] at h
    simp only [run, trace]
    cases hx : x m with
    | ok b m' =>
      rw [hx] at h
      obtain ⟨inv', rel, rest⟩ := h
      have later := ih b m' (fun t m₁ calls => guided t m₁ (.stepped hx calls)) inv' rest
      exact ⟨.cons inv rel later.along, later.last, later.result⟩
    | error e m' =>
      rw [hx] at h
      obtain ⟨inv', rel⟩ := h
      exact .stopped (.cons inv rel (.single inv')) inv'
  | call enter leave t next ih =>
    intro m guided inv h
    simp only [heeds_call] at h
    obtain ⟨⟨inv', rel, begins⟩, rest⟩ := h
    -- the call keeps the course by hypothesis, the rest of the plan by induction
    have called := guided t (enter m) (.here rfl) inv' begins
    simp only [run, trace]
    cases ran : tasks t (enter m) with
    | ok b m' =>
      rw [ran] at called rest
      have before := Course.Along.cons inv rel called.along
      obtain ⟨inv₁, rel₁, rest⟩ := rest called.last called.along.whole (called.result b m' rfl)
      have later := ih b (leave m m') (fun u m₁ calls => guided u m₁ (.later ran calls)) inv₁ rest
      exact ⟨before.append rel₁ later.along, later.last, later.result⟩
    | error e m' =>
      rw [ran] at called rest
      have before := Course.Along.cons inv rel called.along
      obtain ⟨inv₁, rel₁⟩ := rest called.last called.along.whole
      exact .stopped (before.append rel₁ (.single inv₁)) inv₁

/-- Tasks are called only where they may begin. -/
theorem Heeds.of_calls {t : Task} {m m₀ : State} {p : Plan α} (calls : Calls tasks t m p m₀)
    (guided : ∀ t m', Calls tasks t m' p m₀ → C.inv m' → C.begins t m' →
      C.Keeps (C.ends t) m' (inner t m') (tasks t m'))
    (h : p.Heeds C tasks done m₀) : C.inv m ∧ C.begins t m := by
  induction calls with
  | here state =>
    subst state
    simp only [heeds_call] at h
    exact ⟨h.1.1, h.1.2.2⟩
  -- an earlier call has to be passed first, hence the hypothesis on all calls
  | @later enter leave u next m₀ b m₁ ran rest ih =>
    simp only [heeds_call] at h
    obtain ⟨⟨inv, -, begins⟩, behind⟩ := h
    have called := guided u (enter m₀) (.here rfl) inv begins
    rw [ran] at called behind
    obtain ⟨-, -, behind⟩ := behind called.last called.along.whole (called.result b m₁ rfl)
    exact ih (fun t m' calls => guided t m' (.later ran calls)) behind
  | stepped ran rest ih =>
    simp only [heeds_step, ran] at h
    exact ih (fun t m' calls => guided t m' (.stepped ran calls)) h.2.2

end Plan

/-! ## Runs of tasks -/

/-- With a run of a task, those of the tasks that it calls are given. -/
def ClosedRuns (runs : Nat → Task → State → Prop) : Prop :=
  ∀ n t m u m', runs (n + 1) t m → t.plan.Calls (Task.tasksAt n) u m' m → runs n u m'

namespace Course

variable {C : Course} {runs : Nat → Task → State → Prop}

/-- All plans of given runs heed the course. -/
def Heeded (C : Course) (runs : Nat → Task → State → Prop) : Prop :=
  ∀ n t m, runs (n + 1) t m → C.inv m → C.begins t m →
    t.plan.Heeds C (Task.tasksAt n) (C.ends t) m

/-- Then the runs keep on it. -/
theorem of_runs (closed : ClosedRuns runs) (heeded : C.Heeded runs) {n : Nat} {t : Task}
    {m : State} (ran : runs n t m) (inv : C.inv m) (begins : C.begins t m) :
    C.Keeps (C.ends t) m (t.trace n m) (t.run n m) := by
  induction n generalizing t m with
  | zero =>
    rw [t.run_zero]
    exact .stopped (.single inv) inv
  | succ n ih =>
    have keeps := Plan.Heeds.keeps t.plan m (fun u m' calls => ih (closed n t m u m' ran calls))
      inv (heeded n t m ran inv begins)
    rw [Task.trace, t.run_succ]
    exact keeps

/-- At every moment of a given run the machine is on course, and the task may begin. -/
theorem of_moment (closed : ClosedRuns runs) (heeded : C.Heeded runs) {fuel n : Nat}
    {t u : Task} {m m₁ : State} (ran : runs fuel t m) (inv : C.inv m) (begins : C.begins t m)
    (moment : Moment fuel t m n u m₁) : runs n u m₁ ∧ C.inv m₁ ∧ C.begins u m₁ := by
  induction moment with
  | start => exact ⟨ran, inv, begins⟩
  | @called n u m₁ u' m₂ before calls ih =>
    obtain ⟨ran₁, inv₁, begins₁⟩ := ih
    have guided (t : Task) (m' : State) (calls : u.plan.Calls (Task.tasksAt n) t m' m₁)
        (inv : C.inv m') (begins : C.begins t m') :
        C.Keeps (C.ends t) m' (t.trace n m') (t.run n m') :=
      of_runs closed heeded (closed n u m₁ t m' ran₁ calls) inv begins
    exact ⟨closed n u m₁ u' m₂ ran₁ calls,
      Plan.Heeds.of_calls calls guided (heeded n u m₁ ran₁ inv₁ begins₁)⟩

end Course

end ClassScript.Machine
