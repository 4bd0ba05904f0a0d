import ClassScript.Machine.Access

/-!
# Scopes that grow

Scopes are only ever added and names only ever bound: no step of a run takes a
binding away or moves a scope below another parent. So a chain of parents, once it
is there, stays as it is.
-/

namespace ClassScript.Machine

open Syntax Object

namespace Scopes

variable (scopes : Scopes) (id other : ScopeId) (name text : String) (value : Value)

/-- The number of scopes, which is the place of the next one. -/
def size : Nat := scopes.cells.size

@[simp] theorem push_fst (parent : Option ScopeId) :
    (scopes.push parent).1 = scopes.size := rfl

@[simp] theorem size_push (parent : Option ScopeId) :
    (scopes.push parent).2.size = scopes.size + 1 := by
  simp [push, size]

@[simp] theorem size_define : (scopes.define id name value).size = scopes.size := by
  simp [define, size]

@[simp] theorem parent?_define :
    (scopes.define id name value).parent? other = scopes.parent? other := by
  simp only [parent?, define, Array.getElem?_modify]
  split <;> cases scopes.cells[other]? <;> rfl

/-- Only the new scope gets a parent. -/
theorem parent?_push (parent : Option ScopeId) :
    (scopes.push parent).2.parent? other =
      if other = scopes.size then parent else scopes.parent? other := by
  simp only [parent?, push, Array.getElem?_push, size]
  split <;> rename_i place <;> simp [place]

/-- A new scope is right below the given one. -/
@[simp] theorem parent?_push_self (parent : Option ScopeId) :
    (scopes.push parent).2.parent? scopes.size = parent := by
  rw [parent?_push, if_pos rfl]

/-- A new scope has no names. -/
@[simp] theorem own?_push (parent : Option ScopeId) :
    (scopes.push parent).2.own? other text = scopes.own? other text := by
  simp only [own?, push, Array.getElem?_push]
  split
  · next at_end => subst at_end; simp
  · rfl

/-- Only the name that is defined changes, and only where there is such a scope. -/
theorem own?_define :
    (scopes.define id name value).own? other text =
      if id = other ∧ name = text ∧ id < scopes.size then some value
      else scopes.own? other text := by
  simp only [own?, define, Array.getElem?_modify, size]
  by_cases same : id = other
  · subst same
    by_cases inside : id < scopes.cells.size
    · simp [inside, Std.ExtTreeMap.getElem?_insert]
    · simp [inside]
  · simp [same]

variable {scopes id other name text value}

theorem lt_size_of_own? (bound : scopes.own? id name = some value) : id < scopes.size := by
  simp only [own?, Option.bind_eq_some_iff] at bound
  obtain ⟨scope, found, _⟩ := bound
  exact (Array.getElem?_eq_some_iff.mp found).1

/-- Behind the scopes nothing is bound yet. -/
@[simp] theorem own?_size : scopes.own? scopes.size name = none := by
  cases bound : scopes.own? scopes.size name with
  | none => rfl
  | some value => exact absurd (lt_size_of_own? bound) (Nat.lt_irrefl _)

theorem lt_size_of_parent? {parent : ScopeId} (up : scopes.parent? id = some parent) :
    id < scopes.size := by
  simp only [parent?, Option.bind_eq_some_iff] at up
  obtain ⟨scope, found, _⟩ := up
  exact (Array.getElem?_eq_some_iff.mp found).1

/-- A scope that binds a name is found only where the name is bound. -/
theorem contains_of_ownerWithin? {fuel : Nat} {owner : ScopeId}
    (found : scopes.ownerWithin? name fuel id = some owner) :
    scopes.contains owner name = true := by
  induction fuel generalizing id with
  | zero => simp [ownerWithin?] at found
  | succ fuel ih =>
    simp only [ownerWithin?] at found
    split at found
    · next here => cases found; exact here
    · split at found
      · exact ih found
      · simp at found

/-- The scope that is found for a name has it. -/
theorem contains_of_owner? {owner : ScopeId} (found : scopes.owner? id name = some owner) :
    scopes.contains owner name = true :=
  contains_of_ownerWithin? found

theorem contains_of_target {line : Nat} {owner : ScopeId}
    (found : scopes.target id name line = .ok owner) :
    scopes.contains owner name = true := by
  simp only [target] at found
  split at found
  · next owner' h => cases found; exact contains_of_owner? h
  · simp at found

/-- The scope that an assignment by hops is for has the name. -/
theorem contains_of_targetAt {hops : Nat} {owner : ScopeId}
    (found : scopes.targetAt hops id name = .ok owner) :
    scopes.contains owner name = true := by
  simp only [targetAt] at found
  split at found
  · simp at found
  · split at found
    · next here => cases found; exact here
    · simp at found

/-- A scope without parent is searched alone. -/
theorem owner?_of_parentless (inside : id < scopes.size) (root : scopes.parent? id = none) :
    scopes.owner? id name = if scopes.contains id name then some id else none := by
  have positive : 0 < scopes.cells.size := Nat.zero_lt_of_lt inside
  obtain ⟨fuel, enough⟩ : ∃ fuel, scopes.cells.size = fuel + 1 :=
    ⟨scopes.cells.size - 1, by omega⟩
  rw [owner?, enough, ownerWithin?, root]

/-- A name is read by hops from the scope that they lead to, if it is bound there. -/
theorem getAt_of_found {hops : Nat} {scope : ScopeId}
    (above : scopes.ancestor? hops id = some scope)
    (bound : scopes.own? scope name = some value) : scopes.getAt hops id name = .ok value := by
  simp only [getAt, ancestor, above, bound]

/-- What is read at a distance is bound in the scope there. -/
theorem own?_of_getAt {hops : Nat} (read : scopes.getAt hops id name = .ok value) :
    ∃ scope, scopes.ancestor? hops id = some scope ∧ scopes.own? scope name = some value := by
  simp only [getAt, ancestor] at read
  cases above : scopes.ancestor? hops id with
  | none => rw [above] at read; cases read
  | some scope =>
    rw [above] at read
    cases bound : scopes.own? scope name with
    | none => simp only [bound] at read; cases read
    | some found =>
      simp only [bound] at read
      exact ⟨scope, rfl, bound.trans (congrArg some (Except.ok.inj read))⟩

/-- What a search gives is bound in some scope. -/
theorem own?_of_get {line : Nat} (read : scopes.get id name line = .ok value) :
    ∃ owner, scopes.own? owner name = some value := by
  simp only [get] at read
  split at read
  · next found =>
    obtain ⟨owner, -, bound⟩ := Option.bind_eq_some_iff.mp found
    exact ⟨owner, bound.trans (congrArg some (Except.ok.inj read))⟩
  · cases read

/-- Where the hops lead to a scope without the name, the fault is internal. -/
theorem getAt_of_missing {hops : Nat} {scope : ScopeId}
    (above : scopes.ancestor? hops id = some scope) (unbound : scopes.own? scope name = none) :
    scopes.getAt hops id name = .error (.internal (.missing name hops)) := by
  simp only [getAt, ancestor, above, unbound]

theorem targetAt_of_found {hops : Nat} {scope : ScopeId}
    (above : scopes.ancestor? hops id = some scope)
    (bound : (scopes.own? scope name).isSome) :
    scopes.targetAt hops id name = .ok scope := by
  have contained : scopes.contains scope name = true := bound
  simp only [targetAt, ancestor, above, contained, if_true]

/-- `after` has the scopes of `before`, in their places, with their bound names. -/
structure Extends (before after : Scopes) : Prop where
  size : before.size ≤ after.size
  parent : ∀ id < before.size, after.parent? id = before.parent? id
  bound : ∀ id name, (before.own? id name).isSome → (after.own? id name).isSome

namespace Extends

variable {a b c : Scopes}

theorem refl (a : Scopes) : Extends a a :=
  ⟨Nat.le_refl _, fun _ _ => rfl, fun _ _ h => h⟩

/-- Scopes that are added stay where they are. -/
theorem trans (first : Extends a b) (second : Extends b c) : Extends a c where
  size := Nat.le_trans first.size second.size
  parent id inside :=
    (second.parent id (Nat.lt_of_lt_of_le inside first.size)).trans (first.parent id inside)
  bound id name h := second.bound id name (first.bound id name h)

theorem parent? (grows : Extends a b) {id up : ScopeId} (h : a.parent? id = some up) :
    b.parent? id = some up :=
  (grows.parent id (lt_size_of_parent? h)).trans h

/-- A new scope moves none of the others. -/
theorem push (a : Scopes) (parent : Option ScopeId) : Extends a (a.push parent).2 where
  size := by simp
  parent id inside := by rw [parent?_push, if_neg (Nat.ne_of_lt inside)]
  bound id name h := by simpa using h

theorem define (a : Scopes) (id : ScopeId) (name : String) (value : Value) :
    Extends a (a.define id name value) where
  size := by simp
  parent id inside := by simp
  bound id name h := by
    rw [own?_define]
    split
    · rfl
    · exact h

/-- A chain of parents stays as it is. -/
theorem ancestor? (grows : Extends a b) {hops : Nat} {id up : ScopeId}
    (h : a.ancestor? hops id = some up) : b.ancestor? hops id = some up := by
  induction hops generalizing id with
  | zero => exact h
  | succ hops ih =>
    simp only [Scopes.ancestor?] at h ⊢
    cases hp : a.parent? id with
    | none => simp [hp] at h
    | some parent =>
      rw [hp] at h
      rw [grows.parent? hp]
      exact ih h

end Extends

end Scopes

/-- Where the current scope binds the name, a search for it ends there. -/
theorem assign_eq_define {m : State} {name : Name}
    (bound : (m.scopes.own? m.current name.text).isSome) (v : Value) :
    assign name v m = define name.text v m := by
  have here : m.scopes.contains m.current name.text = true := bound
  obtain ⟨old, found⟩ := Option.isSome_iff_exists.mp bound
  have inside : m.current < m.scopes.cells.size := Scopes.lt_size_of_own? found
  obtain ⟨fuel, enough⟩ := Nat.exists_eq_succ_of_ne_zero (Nat.ne_of_gt (Nat.zero_lt_of_lt inside))
  have owner : m.scopes.owner? m.current name.text = some m.current := by
    rw [Scopes.owner?, enough, Scopes.ownerWithin?, if_pos here]
  simp only [assign, Scopes.target, owner, define]

end ClassScript.Machine
