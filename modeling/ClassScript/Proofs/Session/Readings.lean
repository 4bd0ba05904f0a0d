import Mathlib.Data.List.Nodup
import ClassScript.Proofs.Parsing.Fresh
import ClassScript.Proofs.Session.Tables

/-!
# The tables of all readings

A table has entries for occurrences of its own tree only. No occurrence of a tree is one of
another tree that was read before or behind it, by whichever reader, so no two tables have an
entry for one occurrence (`readings_apart`).
-/

namespace ClassScript.Session

open Syntax Parsing Binding

/-- The input passes resolution, and its table has an entry for the occurrence. -/
def Noted (input : Input) (id : NodeId) : Prop :=
  ∃ locals, resolveInput input = .ok locals ∧ (locals.depth? id).isSome

theorem Noted.mem_ids {input : Input} {id : NodeId} (noted : Noted input id) : id ∈ input.ids := by
  obtain ⟨locals, resolved, known⟩ := noted
  cases input with
  | statements program => exact mem_ids_ofProgram resolved known
  | expression e =>
    obtain ⟨-, walked⟩ := Walk.conclude_iff.mp resolved
    -- outside of functions and blocks, every occurrence is global
    rw [← walked, locals_expression_of_top .top e .start rfl] at known
    cases (Locals.depth?_empty id) ▸ known

/-- Whatever is read by the readers of a process, no identity occurs twice in it: not in one
tree, and not in two of them. And no two of the tables that resolution makes for the trees
have an entry for the same occurrence. -/
theorem readings_apart (nextId : NodeId) (commands : List Command) :
    let trees := (Process.start nextId).trees commands
    (trees.flatMap Input.ids).Nodup ∧
      trees.Pairwise fun tree other => ∀ id, ¬ (Noted tree id ∧ Noted other id) := by
  intro trees
  have distinct : (trees.flatMap Input.ids).Nodup :=
    ((Process.start nextId).trees_drawn commands).2.distinct
  refine ⟨distinct, ?_⟩
  refine (List.nodup_flatMap.mp distinct).2.imp fun {tree other} apart id => ?_
  rintro ⟨first, second⟩
  exact apart first.mem_ids second.mem_ids

end ClassScript.Session
