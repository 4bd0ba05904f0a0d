import ClassScript.Proofs.Machine.Heap

/-!
# Scopes form a tree

Every scope is made inside one that is there already, so parents are older than the scopes
inside them, and only the root has none (`Scopes.Rooted`). From this alone it follows that
every chain of parents ends at the root and never comes back (`Rooted.climbs`,
`Rooted.acyclic`), and that a search for a name ends by itself, before its bound is reached
(`Rooted.owner?_eq`).
-/

namespace ClassScript.Machine

open Object

namespace Scopes

/-- A scope's parent is older than the scope, and only the root has no parent. -/
structure Rooted (scopes : Scopes) (root : ScopeId) : Prop where
  inside : root < scopes.size
  parentless : scopes.parent? root = none
  only : ∀ id, id < scopes.size → scopes.parent? id = none → id = root
  older : ∀ id up, scopes.parent? id = some up → up < id

namespace Rooted

variable {scopes : Scopes} {root id up : ScopeId}

/-! ## Scopes that are added -/

/-- At first there is the global scope alone. -/
theorem start : Rooted (Scopes.empty.push none).2 0 where
  inside := by simp
  parentless := rfl
  only id (inside : id < (Scopes.empty.push none).2.size) _ := by
    rw [size_push] at inside
    exact Nat.lt_one_iff.mp inside
  older id up above := by
    have inside := lt_size_of_parent? above
    rw [size_push] at inside
    obtain rfl : id = 0 := Nat.lt_one_iff.mp inside
    cases above

/-- A new scope inside one that is there. -/
theorem push (rooted : Rooted scopes root) {parent : ScopeId} (inside : parent < scopes.size) :
    Rooted (scopes.push (some parent)).2 root where
  inside := by
    rw [size_push]
    exact Nat.lt_succ_of_lt rooted.inside
  parentless := by
    rw [parent?_push, if_neg (Nat.ne_of_lt rooted.inside)]
    exact rooted.parentless
  only id within none := by
    rw [parent?_push] at none
    split at none
    · cases none
    · next other =>
      rw [size_push] at within
      exact rooted.only id (Nat.lt_of_le_of_ne (Nat.le_of_lt_succ within) other) none
  older id up above := by
    rw [parent?_push] at above
    split at above
    · next here =>
      -- the new scope is behind all that are there
      obtain rfl := Option.some.inj above
      rwa [here]
    · exact rooted.older id up above

/-- To define a name moves no scope. -/
theorem define (rooted : Rooted scopes root) (id : ScopeId) (name : String) (value : Value) :
    Rooted (scopes.define id name value) root where
  inside := by simpa using rooted.inside
  parentless := by simpa using rooted.parentless
  only other within none := rooted.only other (by simpa using within) (by simpa using none)
  older other up above := rooted.older other up (by simpa using above)

/-! ## Chains of parents -/

/-- Every parent further up is older by one at least. -/
theorem ancestor_le (rooted : Rooted scopes root) {hops : Nat}
    (above : scopes.ancestor? hops id = some up) : up + hops ≤ id := by
  induction hops generalizing id with
  | zero =>
    obtain rfl := Option.some.inj above
    exact Nat.le_refl _
  | succ hops ih =>
    simp only [ancestor?] at above
    cases parent : scopes.parent? id with
    | none =>
      rw [parent] at above
      cases above
    | some next =>
      rw [parent] at above
      have rest := ih above
      have step := rooted.older id next parent
      exact Nat.le_trans (Nat.succ_le_succ rest) step

/-- No scope is above itself. -/
theorem acyclic (rooted : Rooted scopes root) {hops : Nat} (up : 0 < hops) :
    scopes.ancestor? hops id ≠ some id := by
  intro same
  have bound : id + hops ≤ id := rooted.ancestor_le same
  exact absurd bound (Nat.not_le.mpr (Nat.lt_add_of_pos_right up))

/-- Going up from parent to parent cannot go on for ever. -/
theorem founded (rooted : Rooted scopes root) :
    WellFounded fun up id => scopes.parent? id = some up := by
  have lower : Subrelation (fun up id => scopes.parent? id = some up)
      (fun up id : ScopeId => up < id) := fun above => rooted.older _ _ above
  exact lower.wf Nat.lt_wfRel.wf

/-- The chain of parents of a scope has the root at its end, and nothing behind that. -/
theorem climbs (rooted : Rooted scopes root) (inside : id < scopes.size) :
    ∃ depth, depth ≤ id ∧ scopes.ancestor? depth id = some root ∧
      ∀ hops, (scopes.ancestor? hops id).isSome ↔ hops ≤ depth := by
  induction id using Nat.strongRecOn with
  | ind id ih =>
    cases parent : scopes.parent? id with
    | none =>
      obtain rfl := rooted.only id inside parent
      refine ⟨0, Nat.zero_le _, rfl, fun hops => ?_⟩
      cases hops with
      | zero => simp [ancestor?]
      | succ hops => simp [ancestor?, parent]
    | some up =>
      -- a parent is older than its scope, which the induction is on
      have lower := rooted.older id up parent
      obtain ⟨depth, bound, ends, chain⟩ := ih up lower (Nat.lt_trans lower inside)
      refine ⟨depth + 1, Nat.succ_le_of_lt (Nat.lt_of_le_of_lt bound lower), ?_, fun hops => ?_⟩
      · simp only [ancestor?, parent]
        exact ends
      · cases hops with
        | zero => simp [ancestor?]
        | succ hops =>
          simp only [ancestor?, parent, chain hops, Nat.add_le_add_iff_right]

/-! ## Searching for a name -/

/-- How long a search may go on does not matter, once it may come to the root. -/
theorem ownerWithin?_eq (rooted : Rooted scopes root) (name : String) {fuel more : Nat}
    (enough : id < fuel) (also : id < more) :
    scopes.ownerWithin? name fuel id = scopes.ownerWithin? name more id := by
  induction fuel generalizing id more with
  | zero => exact absurd enough (Nat.not_lt_zero id)
  | succ fuel ih =>
    cases more with
    | zero => exact absurd also (Nat.not_lt_zero id)
    | succ more =>
      simp only [ownerWithin?]
      split
      · rfl
      · cases parent : scopes.parent? id with
        | none => rfl
        | some up =>
          -- the scope searched next has a smaller number than either fuel left
          have lower := rooted.older id up parent
          exact ih (Nat.lt_of_lt_of_le lower (Nat.le_of_lt_succ enough))
            (Nat.lt_of_lt_of_le lower (Nat.le_of_lt_succ also))

/-- The search looks at a scope, and then goes on from its parent, with no bound. -/
theorem owner?_eq (rooted : Rooted scopes root) (name : String) (inside : id < scopes.size) :
    scopes.owner? id name =
      if scopes.contains id name then some id
      else (scopes.parent? id).bind fun up => scopes.owner? up name := by
  have more : scopes.owner? id name = scopes.ownerWithin? name (scopes.size + 1) id :=
    rooted.ownerWithin?_eq name inside (Nat.lt_succ_of_lt inside)
  rw [more, ownerWithin?]
  cases scopes.parent? id <;> rfl

end Rooted

end Scopes

end ClassScript.Machine
