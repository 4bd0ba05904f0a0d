import ClassScript.Proofs.Machine.Frame

/-!
# The machines that a run goes through

`Task.trace` lists the machine before and behind every step of a run, those of the tasks
that it calls among them. A course says what is to hold of each of these machines, and of
any two of them in their order. It is enough to look at one plan at a time: if every plan
stays on the course as long as the tasks that it calls do (`Plan.Follows`), then every run
does (`Course.holds`), and so does every moment of it (`Course.moment`).
-/

namespace ClassScript.Machine

open Syntax Object

/-! ## Traces -/

/-- The machines that a plan goes through, where the called tasks run as given and go
through the given ones. -/
def Plan.trace {α : Type} (tasks : (t : Task) → Run t.Result) (inner : Task → State → List State) :
    Plan α → State → List State
  | ret _, m => [m]
  | step x next, m =>
    m :: match x m with
      | .ok b m' => (next b).trace tasks inner m'
      | .error _ m' => [m']
  | call enter leave t next, m =>
    m :: inner t (enter m) ++
      match tasks t (enter m) with
      | .ok b m' => (next b).trace tasks inner (leave m m')
      | .error _ m' => [leave m m']

/-- The machines that a run of a task goes through. -/
def Task.trace : Nat → Task → State → List State
  | 0, _, m => [m]
  | fuel + 1, t, m => t.plan.trace (tasksAt fuel) (trace fuel) m

/-- A trace ends with the machine that the run leaves. -/
theorem Plan.left_mem_trace {α : Type} {tasks : (t : Task) → Run t.Result}
    {inner : Task → State → List State} (p : Plan α) (m : State) :
    left (p.run tasks m) ∈ p.trace tasks inner m := by
  induction p generalizing m with
  | ret a => exact List.mem_singleton_self m
  | step x next ih =>
    simp only [run, trace]
    cases x m with
    | ok b m' => exact List.mem_cons_of_mem _ (ih b m')
    | error e m' => exact List.mem_cons_of_mem _ (List.mem_singleton_self m')
  | call enter leave t next ih =>
    simp only [run, trace]
    refine List.mem_append_right _ ?_
    cases tasks t (enter m) with
    | ok b m' => exact ih b (leave m m')
    | error e m' => exact List.mem_singleton_self _

/-- The machines that a called task goes through are among those of the plan. -/
theorem Plan.Calls.trace_subset {α : Type} {tasks : (t : Task) → Run t.Result}
    {inner : Task → State → List State} {t : Task} {m m₀ : State} {p : Plan α}
    (calls : Calls tasks t m p m₀) : inner t m ⊆ p.trace tasks inner m₀ := by
  induction calls with
  | here state =>
    subst state
    rw [Plan.trace]
    exact fun s inside => List.mem_append_left _ (List.mem_cons_of_mem _ inside)
  | later ran rest ih =>
    simp only [Plan.trace, ran]
    exact fun s inside => List.mem_append_right _ (ih inside)
  | stepped ran rest ih =>
    simp only [Plan.trace, ran]
    exact fun s inside => List.mem_cons_of_mem _ (ih inside)

/-- A trace begins with the state that the task starts in. -/
theorem Task.mem_trace (fuel : Nat) (t : Task) (m : State) : m ∈ t.trace fuel m := by
  cases fuel with
  | zero => exact List.mem_singleton_self m
  | succ fuel =>
    rw [Task.trace]
    cases t.plan <;> rw [Plan.trace] <;> exact List.mem_cons_self

/-- A trace ends with the state that is left. -/
theorem Task.left_mem_trace (fuel : Nat) (t : Task) (m : State) :
    left (t.run fuel m) ∈ t.trace fuel m := by
  cases fuel with
  | zero =>
    rw [t.run_zero]
    exact List.mem_singleton_self m
  | succ fuel =>
    rw [t.run_succ]
    exact t.plan.left_mem_trace m

/-- The machines of a moment are among those of the run. -/
theorem Moment.trace_subset {fuel n : Nat} {t u : Task} {m m₁ : State}
    (moment : Moment fuel t m n u m₁) : u.trace n m₁ ⊆ t.trace fuel m := by
  induction moment with
  | start => exact fun _ inside => inside
  | called before calls ih => exact fun _ inside => ih (calls.trace_subset inside)

/-! ## Courses -/

/-- What is to hold along a run: of every machine, and of an earlier and a later one. A
task may begin on some of these machines, and gives results of some kind. -/
structure Course where
  inv : State → Prop
  rel : State → State → Prop
  refl : ∀ m, rel m m
  trans : ∀ {a b c}, rel a b → rel b c → rel a c
  begins : (t : Task) → State → Prop
  ends : (t : Task) → t.Result → State → Prop

namespace Course

variable (C : Course)

/-- The machines in the list are on course, from the first machine to the last one. -/
structure Along (first : State) (states : List State) (last : State) : Prop where
  inv : ∀ m ∈ states, C.inv m
  ordered : states.Pairwise C.rel
  begin : ∀ m ∈ states, C.rel first m
  finish : ∀ m ∈ states, C.rel m last
  whole : C.rel first last

variable {C} {a b c d m : State} {states more : List State}

theorem Along.single (inv : C.inv m) : C.Along m [m] m where
  inv _ inside := List.mem_singleton.mp inside ▸ inv
  ordered := List.pairwise_singleton ..
  begin _ inside := List.mem_singleton.mp inside ▸ C.refl m
  finish _ inside := List.mem_singleton.mp inside ▸ C.refl m
  whole := C.refl m

/-- One run behind the other. -/
theorem Along.append (first : C.Along a states b) (between : C.rel b c)
    (second : C.Along c more d) : C.Along a (states ++ more) d where
  inv m inside := (List.mem_append.mp inside).elim (first.inv m) (second.inv m)
  ordered := by
    refine List.pairwise_append.mpr ⟨first.ordered, second.ordered, ?_⟩
    intro m inside m' inside'
    exact C.trans (first.finish m inside) (C.trans between (second.begin m' inside'))
  begin m inside := by
    rcases List.mem_append.mp inside with early | late
    · exact first.begin m early
    · exact C.trans first.whole (C.trans between (second.begin m late))
  finish m inside := by
    rcases List.mem_append.mp inside with early | late
    · exact C.trans (first.finish m early) (C.trans between second.whole)
    · exact second.finish m late
  whole := C.trans first.whole (C.trans between second.whole)

/-- One machine more in front. -/
theorem Along.cons (inv : C.inv a) (between : C.rel a b) (rest : C.Along b states c) :
    C.Along a (a :: states) c :=
  (Along.single inv).append between rest

variable (C) in
/-- A run keeps on course: all machines that it goes through do, and what it gives is
allowed. -/
structure Keeps {α : Type} (ends : α → State → Prop) (first : State) (states : List State)
    (ended : EStateM.Result Stop State α) : Prop where
  along : C.Along first states (left ended)
  last : C.inv (left ended)
  result : ∀ a m, ended = .ok a m → ends a m

/-- A run that stops gives nothing. -/
theorem Keeps.stopped {α : Type} {ends : α → State → Prop} {first m : State}
    {states : List State} {e : Stop} (along : C.Along first states m) (last : C.inv m) :
    C.Keeps ends first states (.error e m) where
  along := along
  last := last
  result a m' same := by cases same

end Course

namespace Plan

variable {α β : Type} {C : Course} {done : α → State → Prop} {m : State}

/-- From a machine on, the plan keeps on course as long as the tasks do that it calls, and
it calls them only where they may begin. -/
def Follows (C : Course) (done : α → State → Prop) : Plan α → State → Prop
  | ret a, m => done a m
  | step x next, m =>
    match x m with
    | .ok b m' => C.inv m' ∧ C.rel m m' ∧ (next b).Follows C done m'
    | .error _ m' => C.inv m' ∧ C.rel m m'
  | call enter leave t next, m =>
    (C.inv (enter m) ∧ C.rel m (enter m) ∧ C.begins t (enter m)) ∧
      ∀ m', C.inv m' → C.rel (enter m) m' →
        (C.inv (leave m m') ∧ C.rel m' (leave m m')) ∧
          ∀ b, C.ends t b m' → (next b).Follows C done (leave m m')

theorem follows_ret {a : α} : (ret a).Follows C done m ↔ done a m := Iff.rfl

theorem follows_step {x : Run β} {next : β → Plan α} :
    (step x next).Follows C done m ↔
      match x m with
      | .ok b m' => C.inv m' ∧ C.rel m m' ∧ (next b).Follows C done m'
      | .error _ m' => C.inv m' ∧ C.rel m m' := by
  rw [Follows]

theorem follows_call {enter : State → State} {leave : State → State → State} {t : Task}
    {next : t.Result → Plan α} :
    (call enter leave t next).Follows C done m ↔
      (C.inv (enter m) ∧ C.rel m (enter m) ∧ C.begins t (enter m)) ∧
        ∀ m', C.inv m' → C.rel (enter m) m' →
          (C.inv (leave m m') ∧ C.rel m' (leave m m')) ∧
            ∀ b, C.ends t b m' → (next b).Follows C done (leave m m') := Iff.rfl

/-- What must hold after a part of a plan is that the rest follows the course. -/
theorem follows_bind {p : Plan β} {f : β → Plan α} :
    (p >>= f).Follows C done m ↔ p.Follows C (fun b m' => (f b).Follows C done m') m := by
  induction p generalizing m with
  | ret b => rfl
  | step x next ih =>
    simp only [bind_step, follows_step]
    cases x m with
    | ok b m' => simp only [ih]
    | error e m' => rfl
  | call enter leave t next ih => simp only [bind_call, follows_call, ih]

/-- A step follows a course if it keeps the invariant and goes where the course allows, also
where it fails. -/
theorem follows_prim {x : Run α} : (prim x).Follows C done m ↔
    (∀ a m', x m = .ok a m' → C.inv m' ∧ C.rel m m' ∧ done a m') ∧
      ∀ e m', x m = .error e m' → C.inv m' ∧ C.rel m m' := by
  simp only [prim, follows_step, follows_ret]
  cases x m with
  | ok b m' => simp
  | error e m' => simp

/-- A weaker condition at the end is followed as well. -/
theorem Follows.imp {done' : α → State → Prop} (hdone : ∀ a m, done a m → done' a m)
    {p : Plan α} (h : p.Follows C done m) : p.Follows C done' m := by
  induction p generalizing m with
  | ret a => exact hdone a m h
  | step x next ih =>
    simp only [follows_step] at h ⊢
    cases hx : x m with
    | ok b m' =>
      rw [hx] at h
      exact ⟨h.1, h.2.1, ih b h.2.2⟩
    | error e m' =>
      rw [hx] at h
      exact h
  | call enter leave t next ih =>
    refine ⟨h.1, fun m' inv rel => ?_⟩
    obtain ⟨place, rest⟩ := h.2 m' inv rel
    exact ⟨place, fun b ends => ih b (rest b ends)⟩

/-- Where a plan ends it is still on course, and came there from where it began. -/
theorem Follows.arrives {p : Plan α} (inv : C.inv m) (h : p.Follows C done m) :
    p.Follows C (fun a m' => C.inv m' ∧ C.rel m m' ∧ done a m') m := by
  -- from a later machine on, the plan ends where it can come to from this one too
  have extend {p : Plan α} {m m' : State} (rel : C.rel m m')
      (h : p.Follows C (fun a m'' => C.inv m'' ∧ C.rel m' m'' ∧ done a m'') m') :
      p.Follows C (fun a m'' => C.inv m'' ∧ C.rel m m'' ∧ done a m'') m' :=
    h.imp fun a m'' arrived => ⟨arrived.1, C.trans rel arrived.2.1, arrived.2.2⟩
  induction p generalizing m with
  | ret a => exact ⟨inv, C.refl m, h⟩
  | step x next ih =>
    simp only [follows_step] at h ⊢
    cases hx : x m with
    | ok b m' =>
      rw [hx] at h
      exact ⟨h.1, h.2.1, extend h.2.1 (ih b h.1 h.2.2)⟩
    | error e m' =>
      rw [hx] at h
      exact h
  | call enter leave t next ih =>
    refine ⟨h.1, fun m' inv' rel => ?_⟩
    obtain ⟨place, rest⟩ := h.2 m' inv' rel
    have whole : C.rel m (leave m m') := C.trans h.1.2.1 (C.trans rel place.2)
    exact ⟨place, fun b ends => extend whole (ih b place.1 (rest b ends))⟩

variable {tasks : (t : Task) → Run t.Result} {inner : Task → State → List State}

/-- The called tasks keep on course. -/
def Guided (C : Course) (tasks : (t : Task) → Run t.Result)
    (inner : Task → State → List State) : Prop :=
  ∀ t m, C.inv m → C.begins t m → C.Keeps (C.ends t) m (inner t m) (tasks t m)

/-- A plan that follows the course keeps on it. -/
theorem Follows.keeps (guided : Guided C tasks inner) :
    ∀ (p : Plan α) (m : State), C.inv m → p.Follows C done m →
      C.Keeps done m (p.trace tasks inner m) (p.run tasks m) := by
  intro p
  induction p with
  | ret a =>
    intro m inv h
    refine ⟨.single inv, inv, ?_⟩
    rintro _ _ ⟨⟩
    exact h
  | step x next ih =>
    intro m inv h
    simp only [follows_step] at h
    simp only [run, trace]
    cases hx : x m with
    | ok b m' =>
      rw [hx] at h
      obtain ⟨inv', rel, rest⟩ := h
      have later := ih b m' inv' rest
      exact ⟨.cons inv rel later.along, later.last, later.result⟩
    | error e m' =>
      rw [hx] at h
      obtain ⟨inv', rel⟩ := h
      exact .stopped (.cons inv rel (.single inv')) inv'
  | call enter leave t next ih =>
    intro m inv h
    obtain ⟨⟨inv', rel, begins⟩, rest⟩ := h
    -- the call keeps the course by hypothesis, the rest of the plan by induction
    have called := guided t (enter m) inv' begins
    simp only [run, trace]
    cases ran : tasks t (enter m) with
    | ok b m' =>
      rw [ran] at called
      have before := Course.Along.cons inv rel called.along
      obtain ⟨⟨inv₁, rel₁⟩, rest⟩ := rest m' called.last called.along.whole
      have later := ih b (leave m m') inv₁ (rest b (called.result b m' rfl))
      exact ⟨before.append rel₁ later.along, later.last, later.result⟩
    | error e m' =>
      rw [ran] at called
      have before := Course.Along.cons inv rel called.along
      obtain ⟨⟨inv₁, rel₁⟩, -⟩ := rest m' called.last called.along.whole
      exact .stopped (before.append rel₁ (.single inv₁)) inv₁

/-- Tasks are called only where they may begin. -/
theorem Follows.of_calls (guided : Guided C tasks inner) {t : Task} {m m₀ : State}
    {p : Plan α} (calls : Calls tasks t m p m₀) (h : p.Follows C done m₀) :
    C.inv m ∧ C.begins t m := by
  induction calls with
  | here state =>
    subst state
    exact ⟨h.1.1, h.1.2.2⟩
  | @later enter leave u next m₀ b m₁ ran rest ih =>
    have called := guided u (enter m₀) h.1.1 h.1.2.2
    rw [ran] at called
    obtain ⟨-, rest⟩ := h.2 m₁ called.last called.along.whole
    exact ih (rest b (called.result b m₁ rfl))
  | stepped ran rest ih =>
    simp only [follows_step, ran] at h
    exact ih h.2.2

end Plan

namespace Course

variable {C : Course}

/-- All plans of tasks follow the course. -/
def Followed (C : Course) : Prop :=
  ∀ t m, C.inv m → C.begins t m → t.plan.Follows C (C.ends t) m

/-- Then all runs keep on it. -/
theorem holds (followed : C.Followed) (fuel : Nat) :
    Plan.Guided C (Task.tasksAt fuel) (Task.trace fuel) := by
  induction fuel with
  | zero =>
    intro t m inv begins
    simp only [Task.tasksAt, Task.trace]
    rw [t.run_zero]
    exact .stopped (.single inv) inv
  | succ fuel ih =>
    intro t m inv begins
    have keeps := Plan.Follows.keeps ih t.plan m inv (followed t m inv begins)
    simp only [Task.tasksAt, Task.trace, t.run_succ]
    exact keeps

/-- At every moment of a run the machine is on course, and the task may begin. -/
theorem moment (followed : C.Followed) {fuel n : Nat} {t u : Task} {m m₁ : State}
    (inv : C.inv m) (begins : C.begins t m) (moment : Moment fuel t m n u m₁) :
    C.inv m₁ ∧ C.begins u m₁ := by
  induction moment with
  | start => exact ⟨inv, begins⟩
  | @called n u m₁ u' m₂ before calls ih =>
    exact Plan.Follows.of_calls (holds followed n) calls (followed u m₁ ih.1 ih.2)

end Course

end ClassScript.Machine
