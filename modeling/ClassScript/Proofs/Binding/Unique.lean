import ClassScript.Proofs.Binding.Visit

/-!
# One visit for each piece

Every occurrence of a program has an identity of its own, so two visits that share an
occurrence lie on one way from the root (`Reaches.comparable`). Along a way the pieces
only get smaller (`Reaches.smaller`), so none is a proper part of itself.
-/

namespace ClassScript.Binding

open Syntax

namespace Reaches

variable {root v w a b : Visit}

/-- The first step of a way. -/
theorem head (h : Reaches v w) : v = w ∨ ∃ c, Child v c ∧ Reaches c w := by
  induction h with
  | refl => exact .inl rfl
  | @child u c before step ih =>
    rcases ih with rfl | ⟨first, begins, way⟩
    · exact .inr ⟨c, step, .refl⟩
    · exact .inr ⟨first, begins, .child way step⟩

end Reaches

/-- The occurrences of a part are among those of the whole. -/
theorem Child.ids_subset {v c : Visit} (h : Child v c) : c.node.ids ⊆ v.node.ids := by
  obtain ⟨before, behind, ids, -, -⟩ := h.split
  intro id inside
  rw [ids]
  simp [inside]

/-- What a visit reaches has identities of the visit only. -/
theorem Reaches.ids_subset {v w : Visit} (h : Reaches v w) : w.node.ids ⊆ v.node.ids := by
  induction h with
  | refl => exact List.Subset.refl _
  | child _ step ih => exact List.Subset.trans step.ids_subset ih

theorem Child.nodup {v c : Visit} (h : Child v c) (distinct : v.node.ids.Nodup) :
    c.node.ids.Nodup := by
  obtain ⟨before, behind, ids, -, -⟩ := h.split
  rw [ids] at distinct
  exact (List.nodup_append.mp (List.nodup_append.mp distinct).2.1).1

/-- Distinct identities are distinct in all that is reached. -/
theorem Reaches.nodup {v w : Visit} (h : Reaches v w) (distinct : v.node.ids.Nodup) :
    w.node.ids.Nodup := by
  induction h with
  | refl => exact distinct
  | child _ step ih => exact step.nodup ih

/-- A part is smaller than the whole. -/
theorem Child.smaller {v c : Visit} (h : Child v c) : sizeOf c.node < sizeOf v.node := by
  cases h <;> simp <;> omega

/-- What is reached is the piece itself, or smaller. -/
theorem Reaches.smaller {v w : Visit} (h : Reaches v w) :
    v = w ∨ sizeOf w.node < sizeOf v.node := by
  induction h with
  | refl => exact .inl rfl
  | child _ step ih =>
    have last := step.smaller
    rcases ih with rfl | before
    · exact .inr last
    · exact .inr (Nat.lt_trans last before)

/-- No identity is in two of the rows that make up a row without repetitions. -/
theorem not_mem_both {xs ys zs : List NodeId} {id : NodeId}
    (distinct : (xs ++ (ys ++ zs)).Nodup) :
    (id ∈ xs → id ∉ ys ∧ id ∉ zs) ∧ (id ∈ ys → id ∉ zs) := by
  obtain ⟨-, rest, first⟩ := List.nodup_append.mp distinct
  obtain ⟨-, -, second⟩ := List.nodup_append.mp rest
  refine ⟨fun inside => ⟨?_, ?_⟩, ?_⟩
  · intro also
    exact first id inside id (List.mem_append_left _ also) rfl
  · intro also
    exact first id inside id (List.mem_append_right _ also) rfl
  · intro inside also
    exact second id inside id also rfl

/-- Two different parts of a piece share no occurrence. -/
theorem Child.apart {v a b : Visit} (first : Child v a) (second : Child v b)
    (distinct : v.node.ids.Nodup) {id : NodeId} (inside : id ∈ a.node.ids)
    (also : id ∈ b.node.ids) : a = b := by
  have split {xs ys : List NodeId} (distinct : (xs ++ ys).Nodup) (left : id ∈ xs)
      (right : id ∈ ys) : False :=
    (List.nodup_append.mp distinct).2.2 id left id right rfl
  -- pieces with at most two parts first, then those with three
  cases first <;> cases second <;> first
    | rfl
    | exact (split distinct inside also).elim
    | exact (split distinct also inside).elim
    | skip
  case branchCondition.branchYes e yes no c w =>
    cases no with
    | none => exact (split distinct inside also).elim
    | some no => exact absurd also ((not_mem_both distinct).1 inside).1
  case branchYes.branchCondition e yes no c w =>
    cases no with
    | none => exact (split distinct also inside).elim
    | some no => exact absurd inside ((not_mem_both distinct).1 also).1
  case branchCondition.branchNo => exact absurd also ((not_mem_both distinct).1 inside).2
  case branchNo.branchCondition => exact absurd inside ((not_mem_both distinct).1 also).2
  case branchYes.branchNo => exact absurd also ((not_mem_both distinct).2 inside)
  case branchNo.branchYes => exact absurd inside ((not_mem_both distinct).2 also)
  case loopCondition.loopBody => exact absurd also ((not_mem_both distinct).1 inside).1
  case loopBody.loopCondition => exact absurd inside ((not_mem_both distinct).1 also).1
  case loopCondition.loopIncrement =>
    exact absurd also ((not_mem_both distinct).1 inside).2
  case loopIncrement.loopCondition =>
    exact absurd inside ((not_mem_both distinct).1 also).2
  case loopBody.loopIncrement => exact absurd also ((not_mem_both distinct).2 inside)
  case loopIncrement.loopBody => exact absurd inside ((not_mem_both distinct).2 also)

/-- Of two visits that share an occurrence, one lies within the other. -/
theorem Reaches.comparable {root a b : Visit} (first : Reaches root a)
    (second : Reaches root b) (distinct : root.node.ids.Nodup) {id : NodeId}
    (inside : id ∈ a.node.ids) (also : id ∈ b.node.ids) : Reaches a b ∨ Reaches b a := by
  induction first with
  | refl => exact .inl second
  | @child v c before step ih =>
    rcases ih (step.ids_subset inside) with down | up
    · rcases down.head with rfl | ⟨c', begins, way⟩
      · exact .inr (.child .refl step)
      · -- both ways leave `v` through the part that has the occurrence
        have same : c = c' :=
          step.apart begins (before.nodup distinct) inside (way.ids_subset also)
        exact .inl (same ▸ way)
    · exact .inr (.child up step)

end ClassScript.Binding
