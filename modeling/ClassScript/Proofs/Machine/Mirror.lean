import ClassScript.Proofs.Binding.Sound
import ClassScript.Proofs.Machine.Frame

/-!
# Scopes of a run and scopes of a walk

The scopes from a scope of a run up to the globals mirror those of a walk if there
are as many of them and each binds the names that the walk has defined at its level
(`Mirrors`). So a name that resolution found some scopes up is found there by the
run (`Mirrors.find`). A mirror stays one, since scopes only grow.
-/

namespace ClassScript.Machine

open Object Binding

/-- The scopes from `id` up to the globals mirror those of a walk, the innermost one
possibly without the name that is pending. -/
inductive Mirrors (globals : ScopeId) (scopes : Scopes) :
    Option String → List Names → ScopeId → Prop
  | top {pending} : Mirrors globals scopes pending [] globals
  | scope {pending names outer id parent}
      (bound : ∀ name : String, names[name]? = some true → pending ≠ some name →
        (scopes.own? id name).isSome)
      (up : scopes.parent? id = some parent) (rest : Mirrors globals scopes none outer parent) :
      Mirrors globals scopes pending (names :: outer) id

namespace Mirrors

variable {globals : ScopeId} {scopes scopes' : Scopes} {pending : Option String}
  {names : Names} {levels : List Names} {id : ScopeId}

/-- Scopes that grow stay a mirror. -/
theorem mono (h : Mirrors globals scopes pending levels id) (grows : scopes.Extends scopes') :
    Mirrors globals scopes' pending levels id := by
  induction h with
  | top => exact .top
  | scope bound up _ ih =>
    exact .scope (fun name defined other => grows.bound _ name (bound name defined other))
      (grows.parent? up) ih

/-- Where nothing is pending, nothing needs to be left out. -/
theorem weaken (h : Mirrors globals scopes none levels id) (pending : Option String) :
    Mirrors globals scopes pending levels id := by
  cases h with
  | top => exact .top
  | scope bound up rest => exact .scope (fun name defined _ => bound name defined nofun) up rest

/-- A name more that is not to be bound. -/
theorem mark (h : Mirrors globals scopes none levels id) {name : String} {isDefined : Bool}
    (skipped : isDefined = true → pending = some name) :
    Mirrors globals scopes pending (marked name isDefined levels) id := by
  cases h with
  | top => exact .top
  | scope bound up rest =>
    refine .scope (fun other defined differ => ?_) up rest
    rw [Std.ExtTreeMap.getElem?_insert] at defined
    split at defined
    · next same =>
      -- the name itself is defined only while it is pending
      have same : name = other := by simpa using same
      have pends := skipped (Option.some.inj defined)
      exact absurd (pends.trans (congrArg some same)) differ
    · exact bound other defined nofun

/-- Names more that are bound. -/
theorem declare (h : Mirrors globals scopes none levels id) {texts : List String}
    (bound : ∀ name ∈ texts, (scopes.own? id name).isSome) :
    Mirrors globals scopes none (declared texts levels) id := by
  induction texts generalizing levels with
  | nil => exact h
  | cons text rest ih =>
    simp only [List.mem_cons, forall_eq_or_imp] at bound
    refine ih ?_ bound.2
    cases h with
    | top => exact .top
    | scope old up rest =>
      -- a defined name of the new level is the one just declared or an old one
      refine .scope (fun other defined _ => ?_) up rest
      rw [Std.ExtTreeMap.getElem?_insert] at defined
      split at defined
      · next same =>
        have same : text = other := by simpa using same
        exact same ▸ bound.1
      · exact old other defined nofun

/-- A scope more, whose names are bound. -/
theorem push (h : Mirrors globals scopes none levels id) {inner : ScopeId}
    (up : scopes.parent? inner = some id)
    (bound : ∀ name : String, names[name]? = some true → (scopes.own? inner name).isSome) :
    Mirrors globals scopes none (names :: levels) inner :=
  .scope (fun name defined _ => bound name defined) up h

/-- The chain reaches the globals after as many scopes as the walk has. -/
theorem reaches_globals (h : Mirrors globals scopes pending levels id) :
    scopes.ancestor? levels.length id = some globals := by
  induction h with
  | top => rfl
  | scope _ up _ ih =>
    simp only [List.length_cons, Scopes.ancestor?, up]
    exact ih

/-- Level by level, the scopes below the globals are those of the walk: each has a
parent, and binds what the walk has defined. -/
theorem level (h : Mirrors globals scopes pending levels id) {depth : Nat}
    (at_depth : levels[depth]? = some names) :
    ∃ scope, scopes.ancestor? depth id = some scope ∧ (scopes.parent? scope).isSome ∧
      ∀ name : String, names[name]? = some true → (depth = 0 → pending ≠ some name) →
        (scopes.own? scope name).isSome := by
  induction h generalizing depth with
  | top => simp at at_depth
  | @scope pending first outer id parent bound up _ ih =>
    cases depth with
    | zero =>
      cases at_depth
      exact ⟨id, rfl, by rw [up]; rfl, fun name defined other => bound name defined (other rfl)⟩
    | succ depth =>
      obtain ⟨scope, above, parent, binds⟩ := ih at_depth
      refine ⟨scope, by simpa only [Scopes.ancestor?, up] using above, parent, ?_⟩
      intro name defined _
      exact binds name defined fun _ => by simp

/-- A name that the walk finds some levels up is bound there. -/
theorem find (h : Mirrors globals scopes pending levels id) {name : String} {depth : Nat}
    (found : depthOf name levels = some depth)
    (defined : ∀ names, levels[depth]? = some names → names[name]? ≠ some false)
    (other : depth = 0 → pending ≠ some name) :
    ∃ scope, scopes.ancestor? depth id = some scope ∧ (scopes.own? scope name).isSome := by
  obtain ⟨inside, has, -⟩ := List.findIdx?_eq_some_iff_getElem.mp found
  have at_depth : levels[depth]? = some levels[depth] := List.getElem?_eq_getElem inside
  obtain ⟨scope, above, -, binds⟩ := h.level at_depth
  refine ⟨scope, above, binds name ?_ other⟩
  -- the level has the name, so it is defined there or about to be
  have some_state : (levels[depth])[name]?.isSome := by
    rwa [Std.ExtTreeMap.isSome_getElem?_eq_contains]
  obtain ⟨state, holds⟩ := Option.isSome_iff_exists.mp some_state
  cases state with
  | true => exact holds
  | false => exact absurd holds (defined _ at_depth)

/-- The scope where the chain begins is one of the scopes. -/
theorem inside (h : Mirrors globals scopes pending levels id) (root : globals < scopes.size) :
    id < scopes.size := by
  cases h with
  | top => exact root
  | scope _ up _ => exact Scopes.lt_size_of_parent? up

/-- What is found in the chain is below the globals. -/
theorem depth_lt {name : String} {depth : Nat} (found : depthOf name levels = some depth) :
    depth < levels.length :=
  (List.findIdx?_eq_some_iff_getElem.mp found).1

end Mirrors

/-- The current scope binds only what the walk has defined in its innermost scope. -/
def Tight (m : State) (levels : List Names) : Prop :=
  ∀ names ∈ levels.head?, ∀ name : String, (m.scopes.own? m.current name).isSome →
    names[name]? = some true

/-- The machine is where the visit was. -/
structure At (m : State) (v : Visit) : Prop where
  mirrors : Mirrors m.globals m.scopes v.node.pending v.walk.scopes m.current
  tight : Tight m v.walk.scopes

namespace At

variable {m m' : State} {v c : Visit}

/-- The current scope is one of the scopes. -/
theorem inside (h : At m v) (globals : m.globals < m.scopes.size) :
    m.current < m.scopes.size :=
  h.mirrors.inside globals

/-- A piece that is visited with the same scopes. -/
theorem same (h : At m v) (scopes : c.walk.scopes = v.walk.scopes)
    (calm : v.node.pending = none) : At m c where
  mirrors := by
    have mirrors := h.mirrors
    rw [calm] at mirrors
    rw [scopes]
    exact mirrors.weaken _
  tight := by rw [scopes]; exact h.tight

/-- A run that has bound the names that it may have bound in the current scope. -/
theorem after (h : At m v) (globals : m.globals < m.scopes.size)
    (calm : v.node.pending = none) {texts : List String} (grows : Grows texts m m')
    (bound : ∀ name ∈ texts, (m'.scopes.own? m'.current name).isSome)
    (scopes : c.walk.scopes = declared texts v.walk.scopes) : At m' c where
  mirrors := by
    have mirrors := h.mirrors
    rw [calm] at mirrors
    rw [scopes, grows.globals]
    refine Mirrors.weaken (Mirrors.declare ?_ bound) _
    rw [grows.current]
    exact mirrors.mono grows.scopes
  tight := by
    rw [scopes]
    have tight := h.tight
    intro names first name own
    cases shape : v.walk.scopes with
    | nil =>
      have none : declared texts [] = [] := List.length_eq_zero_iff.mp (declared_length texts [])
      rw [shape, none] at first
      cases first
    | cons top outer =>
      rw [shape, declared_cons_scopes] at first
      obtain rfl := Option.some.inj first
      rw [getElem?_foldl_insert]
      split
      · rfl
      · next outside =>
        -- what the run did not declare was bound before it
        rw [grows.current] at own
        rcases grows.fresh _ name (h.inside globals) own with old | new
        · exact tight top (by rw [shape]; rfl) name old
        · exact absurd new.2 outside

/-- A run that has bound nothing in the current scope. -/
theorem still (h : At m v) (globals : m.globals < m.scopes.size)
    (calm : v.node.pending = none) (grows : Grows [] m m')
    (scopes : c.walk.scopes = v.walk.scopes) : At m' c :=
  h.after globals calm grows (by simp) scopes

/-- A name that is declared for the walk, and is not bound yet. -/
theorem mark (h : At m v) (calm : v.node.pending = none) {name : String} {isDefined : Bool}
    (skipped : isDefined = true → c.node.pending = some name)
    (new : isDefined = false → ∀ names ∈ v.walk.scopes.head?, names[name]? = none)
    (scopes : c.walk.scopes = marked name isDefined v.walk.scopes) : At m c where
  mirrors := by
    have mirrors := h.mirrors
    rw [calm] at mirrors
    rw [scopes]
    exact mirrors.mark skipped
  tight := by
    rw [scopes]
    have tight := h.tight
    intro names first other own
    cases shape : v.walk.scopes with
    | nil => rw [shape] at first; simp [marked] at first
    | cons top outer =>
      rw [shape] at first tight new
      obtain rfl := Option.some.inj first
      have defined := tight top rfl other own
      rw [Std.ExtTreeMap.getElem?_insert]
      split
      · next same =>
        have same : name = other := by simpa using same
        -- a name declared only is new, so the machine has no binding for it yet
        cases isDefined with
        | true => rfl
        | false =>
          have absent := new rfl top rfl
          rw [same, defined] at absent
          cases absent
      · exact defined

/-- A new scope inside the one that the machine is in, with the names of the walk's
new scope. -/
theorem push {levels : List Names} {names : Names} {outer scope : ScopeId}
    (mirrors : Mirrors m.globals m.scopes none levels outer)
    (up : m.scopes.parent? scope = some outer)
    (bound : ∀ name : String, names[name]? = some true ↔ (m.scopes.own? scope name).isSome)
    (scopes : c.walk.scopes = names :: levels) : At { m with current := scope } c where
  mirrors := by
    rw [scopes]
    exact (mirrors.push up fun name defined => (bound name).mp defined).weaken _
  tight := by
    rw [scopes]
    intro names' first name own
    obtain rfl := Option.some.inj first
    exact (bound name).mpr own

end At

end ClassScript.Machine
