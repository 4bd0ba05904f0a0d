import ClassScript.Proofs.Binding.Unique
import ClassScript.Proofs.Session.History

/-!
# Chains of scopes in sessions

Whenever a piece of an accepted program is evaluated or executed, the scopes from the
current one up to the globals are as many as those in which resolution visited the
piece, and bind level by level what it had defined (`chain_mirrored`). So the table
leads every occurrence to a scope of this chain.
-/

namespace ClassScript.Session

open Syntax Parsing Object Binding Machine

/-- The task evaluates or executes the piece. -/
def IsFor : Task → Node → Prop
  | .evaluate e, node => evaluates? node = some e
  | .execute s, node => node = .statement s
  | _, _ => False

/-- The task evaluates or executes a piece of a program. -/
def IsPiece : Task → Prop
  | .evaluate _ | .execute _ => True
  | _ => False

/-- The chain of scopes mirrors the scopes of the visit: after as many scopes as those
it reaches the globals, which have no parent, and no scope before is the global one.
Each binds the names that were defined at its level, apart from that of a class whose
superclass is evaluated. -/
structure Mirrored (m : Machine.State) (v : Visit) : Prop where
  globals : m.scopes.ancestor? v.walk.scopes.length m.current = some m.globals
  root : m.scopes.parent? m.globals = none
  level : ∀ depth names, v.walk.scopes[depth]? = some names →
    ∃ scope, m.scopes.ancestor? depth m.current = some scope ∧ scope ≠ m.globals ∧
      ∀ name : String, names[name]? = some true →
        (depth = 0 → v.node.pending ≠ some name) → (m.scopes.own? scope name).isSome

/-- The identity of an expression that refers to a binding. -/
def occurrence? : Expr → Option NodeId
  | .variable o => some o.id
  | .assign target _ => some target.id
  | .this id _ => some id
  | .super id _ _ => some id
  | _ => none

/-- What the expression reads is where the table says. -/
def ReadsFound (m : Machine.State) : Expr → Prop
  | .variable o => ∀ depth, m.locals.depth? o.id = some depth →
      ∃ v, m.scopes.getAt depth m.current o.name.text = .ok v
  | .this id _ => ∃ depth, m.locals.depth? id = some depth ∧
      ∃ o, m.scopes.getAt depth m.current "this" = .ok (.object o)
  | .super id _ _ => ∃ depth, m.locals.depth? id = some (depth + 1) ∧
      (∃ c, m.scopes.getAt (depth + 1) m.current "super" = .ok (.cls c)) ∧
      ∃ o, m.scopes.getAt depth m.current "this" = .ok (.object o)
  | _ => True

/-- What is known of the chain of scopes in the run of a step, with everything that it
calls. -/
structure ChainMirrored (inputs : List Input) (step : Step) (s : Session) : Prop where
  /-- From where a piece begins to where it ends, however it ends, the chain mirrors a
  visit of the piece, and what the table has for the piece leads into the chain. -/
  chain : ∀ n t m, step.Moment s n t m → IsPiece t →
    ∃ v, Seen inputs v ∧ IsFor t v.node ∧ Mirrored m v ∧ Mirrored (left (t.run n m)) v ∧
      ∀ e id depth, t = .evaluate e → occurrence? e = some id →
        m.locals.depth? id = some depth → depth < v.walk.scopes.length
  /-- A piece in which something occurs has one visit. -/
  unique : ∀ t v w, Seen inputs v → Seen inputs w → IsFor t v.node → IsFor t w.node →
    v.node.ids ≠ [] → v = w
  reads : ∀ n e m, step.Moment s n (.evaluate e) m → ReadsFound m e

section Pieces

variable {inputs : List Input} {m : Machine.State} {v : Visit}

/-- Scopes that mirror those of a walk, level by level. -/
theorem mirrored_of_mirrors (root : m.scopes.parent? m.globals = none)
    (h : Mirrors m.globals m.scopes v.node.pending v.walk.scopes m.current) :
    Mirrored m v where
  globals := h.reaches_globals
  root := root
  level depth names here := by
    obtain ⟨scope, above, parent, binds⟩ := h.level here
    refine ⟨scope, above, ?_, binds⟩
    -- a scope of the chain has a parent, and the global one has none
    intro same
    rw [same, root] at parent
    cases parent

/-- A run leaves the chain as it is. -/
theorem mirrored_after (healthy : Healthy inputs m) (here : At m v) (n : Nat) (t : Task) :
    Mirrored (left (t.run n m)) v := by
  have grows := grows_run n t m
  refine mirrored_of_mirrors ?_ ?_
  · rw [grows.globals, grows.scopes.parent _ healthy.inside]
    exact healthy.root
  · rw [grows.globals, grows.current]
    exact here.mirrors.mono grows.scopes

/-- The piece of a task that is ready, where it was visited. -/
theorem visit_of_ready {t : Task} (ready : t.Ready inputs m) (piece : IsPiece t) :
    ∃ v, Seen inputs v ∧ IsFor t v.node ∧ At m v := by
  cases t with
  | evaluate e => exact ready
  | execute s => exact ready
  | _ => exact piece.elim

/-- The table has for an occurrence the depth of a scope of the walk. -/
theorem depth_lt_of_noted {e : Expr} {id : NodeId} {depth : Nat}
    (sound : Sound m.locals v) (node : evaluates? v.node = some e)
    (occurs : occurrence? e = some id) (noted : m.locals.depth? id = some depth) :
    depth < v.walk.scopes.length := by
  have of_depth {name : String} (same : m.locals.depth? id = depthOf name v.walk.scopes) :
      depth < v.walk.scopes.length :=
    Mirrors.depth_lt (same.symm.trans noted)
  obtain ⟨piece, context, w⟩ := v
  -- what the table holds for an occurrence is a position in the scopes walked, so less than their
  -- number
  rcases evaluates?_eq node with rfl | ⟨name, o, rfl, rfl⟩
  · cases e with
    | «variable» o => cases occurs; exact of_depth sound.variable.1
    | assign target value => cases occurs; exact of_depth sound.assign
    | this id line =>
      cases occurs
      obtain ⟨depth', same, found⟩ := sound.this
      exact of_depth (same.trans found.symm)
    | super id line method =>
      cases occurs
      obtain ⟨depth', same, -, found⟩ := sound.super
      exact of_depth (same.trans found.symm)
    | _ => cases occurs
  · cases occurs
    exact of_depth sound.superclass.1

/-- What a piece reads is found where the table says. -/
theorem readsFound {e : Expr} (healthy : Healthy inputs m) (seen : Seen inputs v)
    (node : evaluates? v.node = some e) (here : At m v) : ReadsFound m e := by
  have sound := healthy.sound v seen
  -- a name bound in the scope climbed to is read there
  have value {depth : Nat} {scope : ScopeId} {name : String}
      (above : m.scopes.ancestor? depth m.current = some scope)
      (bound : (m.scopes.own? scope name).isSome) :
      ∃ x, m.scopes.own? scope name = some x ∧
        m.scopes.getAt depth m.current name = .ok x := by
    obtain ⟨x, bound⟩ := Option.isSome_iff_exists.mp bound
    exact ⟨x, bound, Scopes.getAt_of_found above bound⟩
  obtain ⟨piece, context, w⟩ := v
  -- this is bound to an object wherever it is bound
  have object {depth : Nat} (calm : piece.pending = none)
      (found : depthOf "this" w.scopes = some depth) :
      ∃ o, m.scopes.getAt depth m.current "this" = .ok (.object o) := by
    obtain ⟨scope, above, bound⟩ := here.reserved sound.inOrder (by simp [reserved]) calm found
    obtain ⟨x, own, read⟩ := value above bound
    obtain ⟨o, rfl⟩ := healthy.this scope x own
    exact ⟨o, read⟩
  cases e with
  | «variable» o =>
    intro depth noted
    obtain ⟨scope, above, bound⟩ := here.found_variable sound node depth noted
    obtain ⟨x, -, read⟩ := value above bound
    exact ⟨x, read⟩
  | this id line =>
    rcases evaluates?_eq node with rfl | ⟨name, o, rfl, same⟩
    · obtain ⟨depth, noted, found⟩ := sound.this
      exact ⟨depth, noted, object rfl found⟩
    · cases same
  | super id line method =>
    rcases evaluates?_eq node with rfl | ⟨name, o, rfl, same⟩
    · obtain ⟨depth, noted, this, super⟩ := sound.super
      refine ⟨depth, noted, ?_, object rfl this⟩
      obtain ⟨scope, above, bound⟩ :=
        here.reserved sound.inOrder (by simp [reserved]) rfl super
      obtain ⟨x, own, read⟩ := value above bound
      obtain ⟨c, rfl⟩ := healthy.super scope x own
      exact ⟨c, read⟩
    · cases same
  | _ => trivial

/-- The piece of a task fixes its occurrences. -/
theorem ids_of_isFor {t : Task} {node other : Node} (first : IsFor t node)
    (second : IsFor t other) : node.ids = other.ids := by
  cases t with
  | evaluate e =>
    rcases evaluates?_eq first with rfl | ⟨name, o, rfl, rfl⟩ <;>
      rcases evaluates?_eq second with rfl | ⟨name', o', rfl, same⟩
    · rfl
    · rw [same]; rfl
    · rfl
    · cases same; rfl
  | execute s =>
    have first : node = .statement s := first
    have second : other = .statement s := second
    rw [first, second]
  | _ => exact first.elim

/-- A piece as a whole is no part of the same piece. -/
theorem eq_of_reaches {t : Task} {v w : Visit} (way : Reaches v w) (first : IsFor t v.node)
    (second : IsFor t w.node) : v = w := by
  have size {node : Node} (same : v.node = node) (same' : w.node = node) : v = w := by
    rcases way.smaller with rfl | less
    · rfl
    · rw [same, same'] at less
      exact absurd less (Nat.lt_irrefl _)
  cases t with
  | evaluate e =>
    -- a variable and a superclass have no parts
    have leaf {o : Occurrence} (same : e = .variable o) : v = w := by
      subst same
      rcases way.head with rfl | ⟨c, step, -⟩
      · rfl
      · obtain ⟨node, context, walk⟩ := v
        rcases evaluates?_eq first with rfl | ⟨name, o', rfl, -⟩ <;> cases step
    rcases evaluates?_eq first with whole | ⟨name, o, -, same⟩
    · rcases evaluates?_eq second with whole' | ⟨name, o, -, same⟩
      · exact size whole whole'
      · exact leaf same
    · exact leaf same
  | execute s => exact size first second
  | _ => exact first.elim

end Pieces

variable {readings : Nat → Float} {sink : Sink} {steps : List Step} {next : Step}

/-- A piece in which something occurs was visited once. -/
theorem visit_unique {t : Task} {v w : Visit} (first : Seen (known readings sink steps next) v)
    (second : Seen (known readings sink steps next) w) (node : IsFor t v.node)
    (node' : IsFor t w.node) (occurs : v.node.ids ≠ []) : v = w := by
  have steady := steady_after readings sink (steps ++ [next])
  obtain ⟨input, inside, reached⟩ := first
  obtain ⟨input', inside', reached'⟩ := second
  -- both visits have the same occurrences, and those of other inputs are other ones
  obtain ⟨id, own⟩ := List.exists_mem_of_ne_nil _ occurs
  have own' : id ∈ w.node.ids := ids_of_isFor node node' ▸ own
  obtain rfl := steady.apart input inside input' inside' id (reached.ids_subset own)
    (reached'.ids_subset own')
  have distinct := (steady.healthy.sound _ ⟨input, inside, .refl⟩).distinct
  rcases reached.comparable reached' distinct own own' with down | up
  · exact eq_of_reaches down node node'
  · exact (eq_of_reaches up node' node).symm

/-- Chains of scopes in sessions: whatever a session was handed before, and however
the step at hand goes on. -/
theorem chain_mirrored (readings : Nat → Float) (sink : Sink) (steps : List Step)
    (next : Step) :
    ChainMirrored (known readings sink steps next) next
      ((start readings sink).after steps) where
  chain n t m moment piece := by
    obtain ⟨healthy, ready⟩ := moment.sound
    obtain ⟨v, seen, node, here⟩ := visit_of_ready ready piece
    have begins := mirrored_of_mirrors healthy.root here.mirrors
    refine ⟨v, seen, node, begins, mirrored_after healthy here n t, ?_⟩
    rintro e id depth rfl occurs noted
    exact depth_lt_of_noted (healthy.sound v seen) node occurs noted
  unique t v w first second node node' occurs :=
    visit_unique first second node node' occurs
  reads n e m moment := by
    obtain ⟨healthy, v, seen, node, here⟩ := moment.sound
    exact readsFound healthy seen node here

end ClassScript.Session
