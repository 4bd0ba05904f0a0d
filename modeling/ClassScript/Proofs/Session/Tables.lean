import ClassScript.Proofs.Binding.Unique
import ClassScript.Proofs.Session.States

/-!
# The table of a session

Every program that a session runs hands its table to the machine, and a single expression
takes its entries back. The identities of two programs are apart (`apart_programs`), so no
table hides an entry of another: the machine's table is the disjoint union of those of the
programs, and each function finds there the depths that were noted for it
(`tables_kept`).
-/

namespace ClassScript.Binding

open Syntax

namespace Locals

/-- All tables taken in, one after another. -/
def union (tables : List Locals) : Locals := tables.foldl .merge .empty

/-- Where the tables have no entry, they change none. -/
theorem depth?_foldl_merge {tables : List Locals} {id : NodeId}
    (none : ∀ table ∈ tables, table.depth? id = none) (before : Locals) :
    (tables.foldl .merge before).depth? id = before.depth? id := by
  induction tables generalizing before with
  | nil => rfl
  | cons table rest ih =>
    rw [List.foldl_cons, ih fun other inside => none other (List.mem_cons_of_mem _ inside),
      depth?_merge, none table List.mem_cons_self, Option.none_or]

/-- The entry of a table is that of the union, if no other table has one. -/
theorem depth?_union {tables before behind : List Locals} {table : Locals} {id : NodeId}
    (split : tables = before ++ table :: behind)
    (early : ∀ other ∈ before, other.depth? id = none)
    (late : ∀ other ∈ behind, other.depth? id = none) :
    (union tables).depth? id = table.depth? id := by
  rw [union, split, List.foldl_append, List.foldl_cons, depth?_foldl_merge late, depth?_merge,
    depth?_foldl_merge early, depth?_empty, Option.or_none]

theorem merge_empty (table : Locals) : table.merge .empty = table :=
  ext fun id => by rw [depth?_merge, depth?_empty, Option.none_or]

/-- A table that is taken in and then dropped again leaves nothing behind, if it shared no
occurrence with the first one. -/
theorem forget_merge {before table : Locals}
    (apart : ∀ id, (table.depth? id).isSome → before.depth? id = none) :
    (before.merge table).forget table = before := by
  refine ext fun id => ?_
  rw [depth?_forget, depth?_merge]
  split
  · next known => exact (apart id known).symm
  · next unknown => rw [Option.not_isSome_iff_eq_none.mp unknown, Option.none_or]

end Locals

/-- A program's table has entries only for occurrences of the program. -/
theorem depth?_ofProgram {program : Program} {locals : Locals}
    (resolved : ofProgram program = .ok locals) {id : NodeId}
    (outside : id ∉ Stmt.idsOfAll program) : locals.depth? id = none := by
  obtain ⟨-, walked⟩ := Walk.conclude_iff.mp resolved
  rw [← walked, (Walk.notes_statements .top program .start).locals id outside]
  exact Locals.depth?_empty id

theorem mem_ids_ofProgram {program : Program} {locals : Locals}
    (resolved : ofProgram program = .ok locals) {id : NodeId}
    (known : (locals.depth? id).isSome) : id ∈ Stmt.idsOfAll program := by
  refine Decidable.byContradiction fun outside => ?_
  rw [depth?_ofProgram resolved outside] at known
  cases known

end ClassScript.Binding

namespace ClassScript.Machine

open Syntax Parsing Object Binding

/-- What is within one of several programs is within the whole of it. -/
theorem Visited.ids_subset {program : Program} {node : Node}
    (visited : Visited [.statements program] node) : node.ids ⊆ Stmt.idsOfAll program := by
  obtain ⟨v, ⟨root, inside, reached⟩, rfl⟩ := visited
  obtain rfl := List.mem_singleton.mp inside
  exact reached.ids_subset

theorem Visited.of_mem {inputs : List Input} {node : Node} (visited : Visited inputs node) :
    ∃ input ∈ inputs, Visited [input] node := by
  obtain ⟨v, ⟨root, inside, reached⟩, same⟩ := visited
  exact ⟨root, inside, v, ⟨root, List.mem_singleton_self _, reached⟩, same⟩

/-- To evaluate a single expression leaves the table as it was, however it ends. -/
theorem locals_evaluateText (fuel : Nat) (e : Expr) {table : Locals} {m : State}
    (apart : ∀ id, (table.depth? id).isSome → m.locals.depth? id = none) :
    (left (evaluateText fuel e table m)).locals = m.locals := by
  let entered : State := { m with locals := m.locals.merge table }
  have kept : (left (evaluate fuel e entered)).locals = m.locals.merge table :=
    (grows_run fuel (.evaluate e) entered).locals
  have back : (left (evaluate fuel e entered)).locals.forget table = m.locals := by
    rw [kept, Locals.forget_merge apart]
  simp only [evaluateText, withLocals, bind, EStateM.bind]
  change (left (evaluate fuel e entered)).locals.forget table = m.locals at back
  cases ran : evaluate fuel e entered with
  | ok v m' => rw [ran] at back; exact back
  | error e m' => rw [ran] at back; exact back

end ClassScript.Machine

namespace ClassScript.Session

open Syntax Parsing Object Binding Machine

/-! ## The programs of a session -/

theorem nextId_take (step : Step) (s : Session) :
    (step.take s).2.nextId = (step.check s.nextId).2 := by
  cases checked : (step.check s.nextId).1 with
  | error rejection => rw [Step.take_rejected checked]
  | ok input =>
    obtain ⟨_, -, taken⟩ := Step.take_accepted checked
    rw [taken]

theorem Step.program?_eq_some {step : Step} {n : NodeId} {p : Accepted Program}
    (found : step.program? n = some p) :
    (step.check n).1 = .ok ⟨.statements p.tree, p.locals⟩ := by
  unfold program? at found
  split at found
  · next program locals accepted =>
    cases found
    exact accepted
  · cases found

/-- A program that a step runs passed resolution with its table, and its identities were
drawn by this step's check. -/
theorem Step.program?_spec {step : Step} {n : Nat} {p : Accepted Program}
    (found : step.program? n = some p) :
    ofProgram p.tree = .ok p.locals ∧
      ∀ id ∈ Stmt.idsOfAll p.tree, n ≤ id ∧ id < (step.check n).2 := by
  have accepts := (step.check_accepts n).2 _ (Step.program?_eq_some found)
  exact ⟨accepts.resolved, accepts.drawn.range⟩

/-- The programs that a session runs passed resolution, and their identities are drawn
from the session's next one on. -/
theorem programs_spec {s : Session} {steps : List Step} {p : Accepted Program}
    (inside : p ∈ s.programs steps) :
    ofProgram p.tree = .ok p.locals ∧ ∀ id ∈ Stmt.idsOfAll p.tree, s.nextId ≤ id := by
  induction steps generalizing s with
  | nil => cases inside
  | cons step rest ih =>
    rcases List.mem_append.mp inside with now | later
    · obtain ⟨resolved, drawn⟩ := Step.program?_spec (Option.mem_toList.mp now)
      exact ⟨resolved, fun id known => (drawn id known).1⟩
    · obtain ⟨resolved, drawn⟩ := ih later
      refine ⟨resolved, fun id known => ?_⟩
      have ordered := (step.check_accepts s.nextId).1
      rw [← nextId_take] at ordered
      exact Nat.le_trans ordered (drawn id known)

/-- No two of the programs share an occurrence. -/
theorem apart_programs (s : Session) (steps : List Step) :
    (s.programs steps).Pairwise fun p q =>
      ∀ id ∈ Stmt.idsOfAll p.tree, id ∉ Stmt.idsOfAll q.tree := by
  induction steps generalizing s with
  | nil => exact .nil
  | cons step rest ih =>
    refine List.pairwise_append.mpr ⟨?_, ih _, ?_⟩
    · cases step.program? s.nextId with
      | none => exact .nil
      | some p => exact List.pairwise_singleton _ p
    · intro p now q later id early late
      have before := ((Step.program?_spec (Option.mem_toList.mp now)).2 id early).2
      have behind := (programs_spec later).2 id late
      rw [nextId_take] at behind
      exact Nat.lt_irrefl id (Nat.lt_of_lt_of_le before behind)

/-! ## The table of the machine -/

/-- A step that runs a program takes in its table, and any other step leaves the table
alone. -/
theorem locals_take (step : Step) (s : Session) :
    (step.take s).2.machine.locals =
      ((step.program? s.nextId).toList.map (·.locals)).foldl .merge s.machine.locals := by
  cases checked : (step.check s.nextId).1 with
  | error rejection =>
    rw [Step.take_rejected checked, Step.program?, checked]
    rfl
  | ok input =>
    obtain ⟨_, rfl, taken⟩ := Step.take_accepted checked
    obtain ⟨names, frames⟩ := frames_planOfInput input.tree
    have grows := frames.grows step.fuel (enter s.machine input.locals)
    rw [taken, Step.program?, checked]
    obtain ⟨tree, locals⟩ := input
    cases tree with
    | statements program => exact grows.locals
    -- an expression has no entries to leave behind
    | expression e =>
      obtain rfl : locals = .empty :=
        ((step.check_accepts s.nextId).2 _ checked).locals_expression
      exact grows.locals.trans (Locals.merge_empty _)

/-- The table of a session is what its accepted programs added, one after the other. -/
theorem locals_after (s : Session) (steps : List Step) :
    (s.after steps).machine.locals =
      ((s.programs steps).map (·.locals)).foldl .merge s.machine.locals := by
  induction steps generalizing s with
  | nil => rfl
  | cons step rest ih =>
    rw [programs, List.map_append, List.foldl_append, ← locals_take]
    exact ih (step.take s).2

/-- The entries that the machine has for a program are those of the program's own table. -/
theorem depth?_after {readings : Nat → Float} {sink : Sink} {steps : List Step}
    {p : Accepted Program} (inside : p ∈ (start readings sink).programs steps) {id : NodeId}
    (known : id ∈ Stmt.idsOfAll p.tree) :
    ((start readings sink).after steps).machine.locals.depth? id = p.locals.depth? id := by
  obtain ⟨before, behind, split⟩ := List.append_of_mem inside
  have apart := apart_programs (start readings sink) steps
  rw [split] at apart
  obtain ⟨-, rest, across⟩ := List.pairwise_append.mp apart
  -- a program that is apart from this one has no entry for the occurrence
  have unknown {q : Accepted Program} (among : q ∈ (start readings sink).programs steps)
      (outside : id ∉ Stmt.idsOfAll q.tree) : q.locals.depth? id = none :=
    depth?_ofProgram (programs_spec among).1 outside
  have tables : ((start readings sink).programs steps).map (·.locals) =
      before.map (·.locals) ++ p.locals :: behind.map (·.locals) := by
    rw [split, List.map_append, List.map_cons]
  rw [locals_after]
  refine Locals.depth?_union tables ?early ?late
  case early =>
    intro table early
    obtain ⟨q, among, rfl⟩ := List.mem_map.mp early
    refine unknown (split ▸ List.mem_append_left _ among) fun also => ?_
    exact across q among p List.mem_cons_self id also known
  case late =>
    intro table late
    obtain ⟨q, among, rfl⟩ := List.mem_map.mp late
    refine unknown (split ▸ List.mem_append_right _ (List.mem_cons_of_mem _ among)) ?_
    exact List.rel_of_pairwise_cons rest among id known

/-- Behind any steps, the machine's table is the union of the tables that resolution made
for the programs that were run, to the end or not; no two of them have an entry for one
occurrence. So all occurrences of these programs have the entries that were noted for them
and no others, and the code of every function that the machine holds is in one of the
programs. To evaluate a single expression leaves the table of any machine as it was, if
its own one has other entries. -/
theorem tables_kept (readings : Nat → Float) (sink : Sink) (steps : List Step) :
    let ran := (start readings sink).programs steps
    let m := ((start readings sink).after steps).machine
    (m.locals = .union (ran.map (·.locals)) ∧
      (∀ p ∈ ran, ofProgram p.tree = .ok p.locals) ∧
      ran.Pairwise fun p q => ∀ id, (p.locals.depth? id).isSome → q.locals.depth? id = none) ∧
    (∀ p ∈ ran, ∀ id ∈ Stmt.idsOfAll p.tree, m.locals.depth? id = p.locals.depth? id) ∧
    (∀ closure, m.Has closure →
      ∃ p ∈ ran, Visited [.statements p.tree] (.function closure.declaration) ∧
        ∀ id ∈ closure.declaration.ids, m.locals.depth? id = p.locals.depth? id) ∧
    ∀ (fuel : Nat) (e : Expr) (table : Locals) (m' : Machine.State),
      (∀ id, (table.depth? id).isSome → m'.locals.depth? id = none) →
        (left (evaluateText fuel e table m')).locals = m'.locals := by
  intro ran m
  have own (p : Accepted Program) (inside : p ∈ ran) (id : NodeId)
      (known : id ∈ Stmt.idsOfAll p.tree) : m.locals.depth? id = p.locals.depth? id :=
    depth?_after inside known
  refine ⟨⟨locals_after .., fun p inside => (programs_spec inside).1, ?disjoint⟩, own,
    ?functions, fun fuel e _ _ apart => locals_evaluateText fuel e apart⟩
  case disjoint =>
    refine (apart_programs _ steps).imp_of_mem fun {p q} first second apart id known => ?_
    have inside := mem_ids_ofProgram (programs_spec first).1 known
    exact depth?_ofProgram (programs_spec second).1 (apart id inside)
  -- a closure that is still held comes from a function of some program, whose table holds its
  -- entries
  case functions =>
    intro closure has
    have along := along_states (grounded_start (inputsOf ran) readings sink) steps
      fun _ inside => mem_inputsOf inside
    have grounded := along.inv m (after_mem_states ..)
    obtain ⟨input, among, visited⟩ := (grounded.held closure has).code.of_mem
    obtain ⟨p, inside, rfl⟩ := List.mem_map.mp among
    exact ⟨p, inside, visited, fun id known => own p inside id (visited.ids_subset known)⟩

end ClassScript.Session
