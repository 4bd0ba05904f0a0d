import Mathlib.Data.List.Pairwise
import ClassScript.Proofs.Machine.Carried
import ClassScript.Proofs.Session.States

/-!
# `this` and `super` in sessions

The history of a session has the runs of all its texts. So for every `this` and every `super`
that is evaluated there is a receiver, told by what happened: the object to which the method
was bound in whose call it stands, and the class to which the superclass was evaluated when
the class was declared that it stands in (`receivers_lexical`). What the variables are
assigned that name the class or its superclass, which class the object has, and what other
classes override, does not count.
-/

namespace ClassScript.Session

open Syntax Parsing Object Binding Machine

/-- The runs of the texts that a session takes. -/
def ran (s : Session) (steps : List Step) (n : Nat) (t : Task) (m : Machine.State) : Prop :=
  ∃ before step rest, steps = before ++ step :: rest ∧ step.Moment (s.after before) n t m

/-- What happens in a session. -/
def history (s : Session) (steps : List Step) : History :=
  ⟨s.accepted steps, s.machine.globals, s.ran steps⟩

/-! ## Runs of a session -/

theorem closed_ran (s : Session) (steps : List Step) : ClosedRuns (s.ran steps) := by
  rintro n t m u m' ⟨before, step, rest, rfl, input, accepted, u₀, m₀, begun, moment⟩ calls
  exact ⟨before, step, rest, rfl, input, accepted, u₀, m₀, begun, moment.called calls⟩

/-- What a session goes through behind some texts. -/
theorem states_after (s : Session) (steps more : List Step) :
    (s.after steps).states more ⊆ s.states (steps ++ more) := by
  induction steps generalizing s with
  | nil => exact List.Subset.refl _
  | cons step rest ih => exact fun m inside => List.mem_append_right _ (ih _ inside)

theorem Step.Moment.trace_subset {step : Step} {s : Session} {n : Nat} {t : Task}
    {m : Machine.State} (moment : step.Moment s n t m) : t.trace n m ⊆ step.states s := by
  obtain ⟨input, accepted, u, m₁, calls, moment⟩ := moment
  rw [Step.states, accepted]
  exact fun m' inside => calls.trace_subset (moment.trace_subset inside)

section Chronicle

variable {H : History} {m : Machine.State} {n : Nat}

/-- Statements at top level stand there. -/
theorem recounts_planOfProgram {program : List Stmt} {c : Context} {w : Walk}
    (stored : H.Stored m) (stands : H.Stands ⟨.statements program, c, w⟩ m.current (.code none)) :
    Recounts H m n (planOfProgram program) fun _ _ => True := by
  induction program generalizing m w with
  | nil => exact .ret trivial
  | cons s rest ih =>
    refine .bind (.sub (t := .execute s) stored (stands.at .statementsHead rfl rfl)) ?_
    intro completion m₁ first
    have level : (w.statement c s).scopes.length = w.scopes.length := by
      rw [Walk.scopes_statement, declared_length]
    cases completion with
    | normal =>
      refine ih (w := w.statement c s) first.stored ?_
      rw [first.current]
      exact stands.part .statementsTail level
    | _ => exact (Recounts.prim (tells_stop first.stored _)).weaken

theorem recounts_planOfInput {input : Input} (stored : H.Stored m) (known : input ∈ H.inputs)
    (place : m.current = H.globals) :
    Recounts H m n (planOfInput input) fun _ _ => True := by
  have stands : H.Stands (.ofInput input) m.current (.code none) := place ▸ .input known
  cases input with
  | statements program =>
    exact .bind (recounts_planOfProgram stored stands) fun _ _ _ => .ret trivial
  | expression e =>
    exact .bind (.sub (t := .evaluate e) stored ⟨_, none, rfl, stands⟩) fun _ _ _ => .ret trivial

end Chronicle

/-! ## The history of a session -/

section History

variable (readings : Nat → Float) (sink : Sink) (steps : List Step)

/-- All code of a session is plain. -/
theorem plain_history : ((start readings sink).history steps).Plain := fun v seen =>
  ((steady_after readings sink steps).healthy.sound v seen).plain

/-- A session begins with nothing but the clock. -/
theorem stored_start (H : History) : H.Stored (start readings sink).machine := by
  have bare : H.Stored
      ⟨(Scopes.empty.push none).2, #[], 0, #[.clock], 0, 0, .empty, ⟨readings, 0⟩, sink⟩ := by
    refine ⟨?_, ?_, ?_⟩
    · intro id name value bound
      rw [Scopes.own?_push] at bound
      cases bound
    · intro id fields name value found
      cases found
    · intro action inside
      simpa using inside
  have clock : H.Traced (.host ⟨0, clockName, 0⟩) := trivial
  exact bare.define 0 clockName clock

end History

section Steps

variable {readings : Nat → Float} {sink : Sink} {steps before rest : List Step} {step : Step}
  {input : Accepted Input}

/-- The plan of an accepted text keeps to the chronicle. -/
theorem recounts_step (split : steps = before ++ step :: rest)
    (accepted : (step.check ((start readings sink).after before).nextId).1 = .ok input)
    (stored : ((start readings sink).history steps).Stored
      ((start readings sink).after before).machine) :
    Recounts ((start readings sink).history steps)
      (enter ((start readings sink).after before).machine input.locals) step.fuel
      (planOfInput input.tree) fun _ _ => True := by
  let first := start readings sink
  refine recounts_planOfInput ⟨stored.bound, stored.field, stored.hosts⟩ ?_ ?_
  · show input.tree ∈ first.accepted steps
    rw [split, accepted_append, Session.accepted, accepted]
    simp [Except.toOption]
  · -- between two texts the machine stands at top level
    have outside := (steady_after readings sink before).outside
    exact outside.trans (along_session readings sink before).whole.globals

theorem ran_of_calls (split : steps = before ++ step :: rest)
    (accepted : (step.check ((start readings sink).after before).nextId).1 = .ok input)
    {t : Task} {m : Machine.State}
    (calls : (planOfInput input.tree).Calls (Task.tasksAt step.fuel) t m
      (enter ((start readings sink).after before).machine input.locals)) :
    (start readings sink).ran steps step.fuel t m :=
  ⟨before, step, rest, split, input, accepted, t, m, calls, .start⟩

/-- The machines that a session goes through keep to its chronicle. -/
theorem along_chronicle (split : steps = before ++ rest)
    (stored : ((start readings sink).history steps).Stored
      ((start readings sink).after before).machine) :
    (chronicle ((start readings sink).history steps)).Along
      ((start readings sink).after before).machine
      (((start readings sink).after before).states rest)
      ((start readings sink).after steps).machine := by
  let first := start readings sink
  have closed := closed_ran first steps
  have heeded := heeded_chronicle (plain_history readings sink steps)
  induction rest generalizing before with
  | nil =>
    rw [List.append_nil] at split
    subst split
    exact .single stored
  | cons step rest ih =>
    have next : first.after (before ++ [step]) = (step.take (first.after before)).2 :=
      after_append first before step
    have split' : steps = (before ++ [step]) ++ rest := by
      rw [split, List.append_assoc, List.singleton_append]
    have later := ih split'
    rw [next] at later
    rw [states]
    cases checked : (step.check (first.after before).nextId).1 with
    -- a rejected step leaves the machine where it was
    | error rejection =>
      have nothing : step.states (first.after before) = [] := by rw [Step.states, checked]
      rw [Step.take_rejected checked] at later ⊢
      rw [nothing]
      exact (Course.Along.single stored).append (Fixes.refl _) (later stored)
    | ok input =>
      obtain ⟨r, rfl, taken⟩ := Step.take_accepted checked
      -- an accepted one is a plan, whose tasks all keep the chronicle
      have recounts := recounts_step split checked stored
      have keeps := Plan.Heeds.keeps (planOfInput input.tree) _
        (fun t m calls => Course.of_runs closed heeded (ran_of_calls split checked calls))
        ⟨stored.bound, stored.field, stored.hosts⟩ recounts
      have run : step.states (first.after before) = (planOfInput input.tree).trace
          (Task.tasksAt step.fuel) (Task.trace step.fuel)
          (enter (first.after before).machine input.locals) := by
        rw [Step.states, checked]
      have begins : Fixes (first.after before).machine
          (enter (first.after before).machine input.locals) := .of_scopes_eq rfl
      rw [taken] at later ⊢
      rw [run]
      exact (Course.Along.cons stored begins keeps.along).append (Fixes.refl _)
        (later keeps.last)

end Steps

section Session

variable (readings : Nat → Float) (sink : Sink) (steps : List Step)

theorem along_history :
    (chronicle ((start readings sink).history steps)).Along (start readings sink).machine
      ((start readings sink).states steps) ((start readings sink).after steps).machine := by
  have split : steps = [] ++ steps := rfl
  exact along_chronicle split (stored_start readings sink _)

/-- What happens in a session, in the machines that it goes through. -/
theorem through_states :
    ((start readings sink).history steps).Through ((start readings sink).states steps) where
  plain := plain_history readings sink steps
  trace := by
    rintro n t m ⟨before, step, rest, rfl, moment⟩
    refine List.Subset.trans ?_ (states_after _ before (step :: rest))
    exact fun m' inside =>
      List.mem_append_left _ (List.mem_cons_of_mem _ (moment.trace_subset inside))
  agree := by
    have agree := (along_history readings sink steps).ordered.imp Fixes.agree
    have symmetric : Std.Symm Agree := ⟨fun _ _ h => h.symm⟩
    intro a first b second
    exact agree.forall_of_forall (fun m _ => .refl m) first second
  older := by
    exact fun m inside => ((along_session readings sink steps).inv m inside).tree.older

variable {readings sink steps}

/-- At every moment the task stands where it begins. -/
theorem Step.Moment.begins {next : Step} {n : Nat} {t : Task} {m : Machine.State}
    (moment : next.Moment ((start readings sink).after steps) n t m) :
    t.Begins ((start readings sink).history (steps ++ [next])) m := by
  let first := start readings sink
  have closed := closed_ran first (steps ++ [next])
  have heeded := heeded_chronicle (plain_history readings sink (steps ++ [next]))
  have stored : (first.history (steps ++ [next])).Stored (first.after steps).machine := by
    refine (along_history readings sink (steps ++ [next])).inv _ ?_
    exact states_after first steps [next] List.mem_cons_self
  obtain ⟨input, accepted, u, m₁, calls, moment⟩ := moment
  have split : steps ++ [next] = steps ++ next :: [] := rfl
  obtain ⟨stored₁, begins₁⟩ := (recounts_step split accepted stored).of_calls calls
    fun t m calls => Course.of_runs closed heeded (ran_of_calls split accepted calls)
  exact (Course.of_moment closed heeded (ran_of_calls split accepted calls) stored₁ begins₁
    moment).2.2

end Session

/-! ## Receivers -/

/-- What `this` and `super` are in the run of a step, with everything that it calls. -/
structure ReceiversLexical (H : History) (step : Step) (s : Session) : Prop where
  /-- What is evaluated stands in the current scope. -/
  stands : ∀ n e m, step.Moment s n (.evaluate e) m →
    ∃ v receiver, evaluates? v.node = some e ∧ H.Stands v m.current (.code receiver)
  /-- Where `this` stands, there is a receiver, from the innermost class around, and `this`
  is its object. -/
  this : ∀ n id line m, step.Moment s (n + 1) (.evaluate (.this id line)) m →
    ∀ v receiver, v.node = .expression (.this id line) →
      H.Stands v m.current (.code receiver) →
        ∃ o superclass, receiver = some ⟨o, superclass⟩ ∧ H.Receives v ⟨o, superclass⟩ ∧
          Machine.evaluate (n + 1) (.this id line) m = .ok (.object o) m
  /-- Where `super` stands, there is a receiver, from the innermost class around, that has a
  superclass. There the method is looked for, and what is found is bound to the object. -/
  super : ∀ n id line name m, step.Moment s (n + 1) (.evaluate (.super id line name)) m →
    ∀ v receiver, v.node = .expression (.super id line name) →
      H.Stands v m.current (.code receiver) →
        ∃ o c, receiver = some ⟨o, some c⟩ ∧ H.Receives v ⟨o, some c⟩ ∧
          (∀ method, c.method? name.text = some method →
            Machine.evaluate (n + 1) (.super id line name) m = methodValue method o m) ∧
          (c.method? name.text = none →
            Machine.evaluate (n + 1) (.super id line name) m =
              .error (.fault (.undefinedProperty name.text name.line)) m)

/-- In every session, whatever it was handed before and however the step at hand goes on. -/
theorem receivers_lexical (readings : Nat → Float) (sink : Sink) (steps : List Step)
    (next : Step) :
    ReceiversLexical ((start readings sink).history (steps ++ [next])) next
      ((start readings sink).after steps) := by
  let first := start readings sink
  have through := through_states readings sink (steps ++ [next])
  -- the scopes of a moment carry the receiver, and the walk noted where
  have carried {n : Nat} {t : Task} {m : Machine.State} {v : Visit} {standing : Standing}
      (moment : next.Moment (first.after steps) n t m)
      (stands : (first.history (steps ++ [next])).Stands v m.current standing) :
      Carries m v.walk.scopes m.current standing ∧ Sound m.locals v := by
    have among := states_subset_append first steps next moment.mem_states.1
    have inside := ((along_session readings sink (steps ++ [next])).inv m among).current
    exact ⟨stands.carries through among inside, moment.sound.1.sound v stands.seen⟩
  exact {
    stands := fun n e m moment => moment.begins
    this := by
      rintro n id line m moment ⟨_, c, w⟩ receiver rfl stands
      obtain ⟨carries, sound⟩ := carried moment stands
      obtain ⟨o, superclass, rfl, value⟩ := carries.this sound n
      exact ⟨o, superclass, rfl, stands.receives, value⟩
    super := by
      rintro n id line name m moment ⟨_, c, w⟩ receiver rfl stands
      obtain ⟨carries, sound⟩ := carried moment stands
      obtain ⟨o, c, rfl, value⟩ := carries.super sound n
      exact ⟨o, c, rfl, stands.receives, value⟩ }

-- a method that is called later finds its object, and the superclass of its class
example :
    let declared := ⟨.run, "class A \x7b m() \x7b return this; \x7d \x7d
      class B < A \x7b t() \x7b return super.m() == this; \x7d \x7d
      var f = B().t; A = nil;", 20⟩
    (match ((⟨.evaluate, "f()", 20⟩ : Step).take
        ((start (fun _ => 0) .unlimited).after [declared])).1 with
      | .ok answer => answer == some "true"
      | _ => false) = true := by
  decide +kernel

end ClassScript.Session
