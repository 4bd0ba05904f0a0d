import ClassScript.Proofs.Session.States

/-!
# The scopes of a session

Functions hold the scopes that they were declared in, and scopes hold functions, so what a
session builds has cycles. The chains of parents have none: on every machine that a session
goes through they all end at the one global scope, from the current scope and from the scope
of every function (`WellScoped`). No scope ever changes its parent or loses a name
(`scopes_form_tree`).
-/

namespace ClassScript.Machine

open Syntax Parsing Object Binding

/-- What holds of the scopes of a machine: the current one is among them, and so are those
of all functions and methods that it holds. From each of them on, the parents lead to the
global scope and no further, and never back; and so a search for a name ends. -/
structure WellScoped (m : State) : Prop where
  current : m.current < m.scopes.size
  held : ∀ closure, m.Has closure → closure.scope < m.scopes.size
  climbs : ∀ id, id < m.scopes.size →
    ∃ depth, m.scopes.ancestor? depth id = some m.globals ∧
      ∀ hops, (m.scopes.ancestor? hops id).isSome ↔ hops ≤ depth
  acyclic : ∀ id hops, 0 < hops → m.scopes.ancestor? hops id ≠ some id
  founded : WellFounded fun up id => m.scopes.parent? id = some up
  search : ∀ id name, id < m.scopes.size →
    m.scopes.owner? id name =
      if m.scopes.contains id name then some id
      else (m.scopes.parent? id).bind fun up => m.scopes.owner? up name

theorem Grounded.wellScoped {inputs : List Input} {m : State} (grounded : Grounded inputs m) :
    WellScoped m where
  current := grounded.current
  held closure has := (grounded.held closure has).scope
  climbs id inside := by
    obtain ⟨depth, -, ends, chain⟩ := grounded.tree.climbs inside
    exact ⟨depth, ends, chain⟩
  acyclic _ _ up := grounded.tree.acyclic up
  founded := grounded.tree.founded
  search _ name inside := grounded.tree.owner?_eq name inside

end ClassScript.Machine

namespace ClassScript.Session

open Syntax Parsing Object Binding Machine

/-- At every moment of a step that begins grounded, what the task is handed is placed, and
so is what it gives. -/
theorem Step.Moment.placed {inputs : List Input} {step : Step} {s : Session} {n : Nat}
    {t : Task} {m : Machine.State} (moment : step.Moment s n t m)
    (grounded : Grounded inputs s.machine)
    (known : ∀ p ∈ step.program? s.nextId, Input.statements p.tree ∈ inputs) :
    (∀ closure, t.Holds closure → Placed inputs m closure) ∧
      ∀ a m', t.run n m = .ok a m' → ∀ closure, t.Yields closure a → Placed inputs m' closure := by
  obtain ⟨input, accepted, u, m₁, calls, moment⟩ := moment
  have followed := followed_grounding inputs
  have stays := stays_step grounded known accepted
  obtain ⟨grounded₁, carried₁⟩ := stays.of_calls (Course.holds followed step.fuel) calls
  obtain ⟨grounded', carried⟩ := Course.moment followed grounded₁ carried₁ moment
  have keeps := Course.holds followed n t m grounded' carried
  exact ⟨carried.held, fun a m' ran => keeps.result a m' ran⟩

/-- All machines that a session goes through, in the runs of its texts and between them:
their global scope is the first one's, the scopes form a tree, and in their order none of
them has lost a scope, changed a parent or lost a name. The functions that a run has at
hand, and that no scope may hold yet, have their scopes in the tree too. -/
theorem scopes_form_tree (readings : Nat → Float) (sink : Sink) (steps : List Step) :
    let first := start readings sink
    (∀ m ∈ first.states steps, m.globals = first.machine.globals ∧ WellScoped m) ∧
      (first.states steps).Pairwise (fun m m' => m.scopes.Extends m'.scopes) ∧
      (first.after steps).machine ∈ first.states steps ∧
      ∀ (next : Step) (n : Nat) (t : Task) (m : Machine.State),
        next.Moment (first.after steps) n t m →
          m ∈ first.states (steps ++ [next]) ∧
          left (t.run n m) ∈ first.states (steps ++ [next]) ∧
          (∀ closure, t.Holds closure → closure.scope < m.scopes.size) ∧
          ∀ a m', t.run n m = .ok a m' →
            ∀ closure, t.Yields closure a → closure.scope < m'.scopes.size := by
  intro first
  have grounded (inputs : List Input) : Grounded inputs first.machine :=
    grounded_start inputs readings sink
  have along := along_session readings sink steps
  refine ⟨?machines, along.ordered.imp Later.scopes, after_mem_states first steps, ?moments⟩
  case machines =>
    intro m inside
    exact ⟨(along.begin m inside).globals, (along.inv m inside).wellScoped⟩
  case moments =>
    intro next n t m moment
    let inputs := inputsOf (first.programs (steps ++ [next]))
    have split := programs_append first steps [next]
    -- the programs of earlier steps and of this one are all among the inputs
    have before : ∀ p ∈ first.programs steps, Input.statements p.tree ∈ inputs :=
      fun p inside => mem_inputsOf (split ▸ List.mem_append_left _ inside)
    have here : ∀ p ∈ next.program? (first.after steps).nextId,
        Input.statements p.tree ∈ inputs := fun p inside =>
      mem_inputsOf (split ▸ List.mem_append_right _
        (List.mem_append_left _ (Option.mem_toList.mpr inside)))
    have reached := (along_states (grounded inputs) steps before).inv _ (after_mem_states ..)
    obtain ⟨handed, given⟩ := moment.placed reached here
    obtain ⟨begins, ends⟩ := moment.mem_states
    refine ⟨states_subset_append first steps next begins,
      states_subset_append first steps next ends, ?_, ?_⟩
    · intro closure has
      exact (handed closure has).scope
    · intro a m' ran closure has
      exact (given a m' ran closure has).scope

end ClassScript.Session
