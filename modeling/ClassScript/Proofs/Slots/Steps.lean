import ClassScript.Proofs.Machine.Looks
import ClassScript.Proofs.Slots.Pairs

/-!
# Steps side by side

Two computations, one on the machine and one on the store, simulate each other if from
a related pair on they end alike: with the same result and a related pair again, or
with the same fault, where internal faults all count as one (`Sim`). The rules here put
steps together; that the values of a related pair look the same makes operators give
the same on both sides.
-/

namespace ClassScript.Slots

open Syntax Parsing Object Binding Machine

/-- The fault is an internal one. -/
def IsInternal (fault : Fault) : Prop := ∃ cause, fault = .internal cause

/-- The same reason to stop, up to what an internal fault says. -/
def SameStop : Stop → Stop → Prop
  | .outOfFuel, .outOfFuel => True
  | .fault f, .fault g => f = g ∨ IsInternal f ∧ IsInternal g
  | _, _ => False

/-- Reasons that are the same are equal, or both internal faults. -/
theorem SameStop.cases {e e' : Stop} (same : SameStop e e') :
    e = e' ∨ ∃ f g, e = .fault (.internal f) ∧ e' = .fault (.internal g) := by
  cases e with
  | outOfFuel =>
    cases e' with
    | outOfFuel => exact .inl rfl
    | fault fault => exact same.elim
  | fault fault =>
    cases e' with
    | outOfFuel => exact same.elim
    | fault fault' =>
      rcases same with rfl | ⟨⟨f, rfl⟩, ⟨g, rfl⟩⟩
      · exact .inl rfl
      · exact .inr ⟨f, g, rfl, rfl⟩

/-- The fault of a machine and the fault of a store that it goes with. Internal faults may
say different things; but where the machine misses a variable of the program, the slot of
that name is empty. -/
inductive Matches : Fault → Fault → Prop
  | refl (fault : Fault) : Matches fault fault
  | missing (name : String) (hops : Nat) :
      Matches (.internal (.missing name hops)) (empty name)
  | internal {f : InternalFault} (g : InternalFault)
      (special : ∀ name hops, f = .missing name hops → name ∈ reserved) :
      Matches (.internal f) (.internal g)

/-- The reason of a machine to stop, and that of a store. -/
inductive MatchesStop : Stop → Stop → Prop
  | outOfFuel : MatchesStop .outOfFuel .outOfFuel
  | fault {f g : Fault} (same : Matches f g) : MatchesStop (.fault f) (.fault g)

section Simulation

variable {α α' β β' : Type} {inputs : List Input} {base : Nat} {names : List String}
  {p : Pair}

/-- The computations end alike. -/
def Sim (inputs : List Input) (base : Nat) (names : List String) (p : Pair)
    (x : Machine.Run α) (y : Run β) (good : Pair → α → β → Prop) : Prop :=
  match x p.machine, y p.store with
  | .ok a m, .ok b σ => ∃ homes, To base names p ⟨homes, m, σ⟩ ∧
      Related inputs ⟨homes, m, σ⟩ ∧ good ⟨homes, m, σ⟩ a b
  | .error e m, .error e' σ => MatchesStop e e' ∧ σ.sink = m.sink
  | _, _ => False

namespace Sim

variable {x : Machine.Run α} {y : Run β} {good : Pair → α → β → Prop}

theorem of_ok {q : Pair} {a : α} {b : β} (left : x p.machine = .ok a q.machine)
    (right : y p.store = .ok b q.store) (onto : To base names p q) (related : Related inputs q)
    (holds : good q a b) : Sim inputs base names p x y good := by
  unfold Sim
  rw [left, right]
  exact ⟨q.homes, onto, related, holds⟩

theorem of_error {e e' : Stop} {m : Machine.State} {σ : Store}
    (left : x p.machine = .error e m) (right : y p.store = .error e' σ)
    (same : MatchesStop e e') (sink : σ.sink = m.sink) : Sim inputs base names p x y good := by
  unfold Sim
  rw [left, right]
  exact ⟨same, sink⟩

/-- How computations end that simulate each other. -/
theorem cases (h : Sim inputs base names p x y good) :
    (∃ q a b, x p.machine = .ok a q.machine ∧ y p.store = .ok b q.store ∧
        To base names p q ∧ Related inputs q ∧ good q a b) ∨
      ∃ e e' m σ, x p.machine = .error e m ∧ y p.store = .error e' σ ∧
        MatchesStop e e' ∧ σ.sink = m.sink := by
  unfold Sim at h
  cases left : x p.machine with
  | ok a m =>
    cases right : y p.store with
    | ok b σ =>
      rw [left, right] at h
      obtain ⟨homes, onto, related, holds⟩ := h
      exact .inl ⟨⟨homes, m, σ⟩, a, b, rfl, rfl, onto, related, holds⟩
    | error e' σ => rw [left, right] at h; exact h.elim
  | error e m =>
    cases right : y p.store with
    | ok b σ => rw [left, right] at h; exact h.elim
    | error e' σ =>
      rw [left, right] at h
      exact .inr ⟨e, e', m, σ, rfl, rfl, h⟩

theorem pure {a : α} {b : β} (related : Related inputs p) (holds : good p a b) :
    Sim inputs base names p (Pure.pure a) (Pure.pure b) good :=
  of_ok rfl rfl (.refl base names p) related holds

/-- Computations that stop with the same fault, and do nothing before. -/
theorem fault {f g : Fault} (related : Related inputs p)
    (left : x p.machine = .error (.fault f) p.machine)
    (right : y p.store = .error (.fault g) p.store)
    (same : Matches f g) : Sim inputs base names p x y good :=
  of_error left right (.fault same) (congrArg (·.2.2.2) related.rest)

/-- Two computations that end alike, one after the other. -/
theorem bind {f : α → Machine.Run α'} {g : β → Run β'} {good' : Pair → α' → β' → Prop}
    (first : Sim inputs base names p x y good)
    (rest : ∀ q a b, To base names p q → Related inputs q → good q a b →
      Sim inputs base names q (f a) (g b) good') :
    Sim inputs base names p (x >>= f) (y >>= g) good' := by
  rcases first.cases with
    ⟨q, a, b, left, right, onto, related, holds⟩ | ⟨e, e', m, σ, left, right, same, sink⟩
  · have onLeft : (x >>= f) p.machine = f a q.machine := by
      simp only [Bind.bind, EStateM.bind, left]
    have onRight : (y >>= g) p.store = g b q.store := by
      simp only [Bind.bind, EStateM.bind, right]
    rcases (rest q a b onto related holds).cases with
      ⟨r, a', b', left', right', to', related', holds'⟩ | ⟨e, e', m, σ, left', right', same, sink⟩
    · exact .of_ok (onLeft.trans left') (onRight.trans right') (onto.trans to') related' holds'
    · exact .of_error (onLeft.trans left') (onRight.trans right') same sink
  · refine .of_error (m := m) (σ := σ) ?_ ?_ same sink
    · simp only [Bind.bind, EStateM.bind, left]
    · simp only [Bind.bind, EStateM.bind, right]

/-- What holds where two computations end alike may be weakened. -/
theorem imp {good' : Pair → α → β → Prop} (h : Sim inputs base names p x y good)
    (holds : ∀ q a b, To base names p q → Related inputs q → good q a b → good' q a b) :
    Sim inputs base names p x y good' := by
  rcases h.cases with
    ⟨q, a, b, left, right, onto, related, good⟩ | ⟨e, e', m, σ, left, right, same, sink⟩
  · exact .of_ok left right onto related (holds q a b onto related good)
  · exact .of_error left right same sink

/-- Computations that do, from this pair on, what ones that simulate each other do. -/
theorem congr {x' : Machine.Run α} {y' : Run β} (h : Sim inputs base names p x' y' good)
    (left : x p.machine = x' p.machine) (right : y p.store = y' p.store) :
    Sim inputs base names p x y good := by
  unfold Sim at h ⊢
  rw [left, right]
  exact h

/-- What is new may be less than what is allowed. -/
theorem mono {base' : Nat} {less : List String} (h : Sim inputs base' less p x y good)
    (below : base ≤ base') (sub : less ⊆ names) : Sim inputs base names p x y good := by
  rcases h.cases with
    ⟨q, a, b, left, right, onto, related, good⟩ | ⟨e, e', m, σ, left, right, same, sink⟩
  · exact .of_ok left right (onto.mono below sub) related good
  · exact .of_error left right same sink

/-- What comes first may change less. -/
theorem bind_of_subset {less : List String} {f : α → Machine.Run α'} {g : β → Run β'}
    {good' : Pair → α' → β' → Prop} (sub : less ⊆ names)
    (first : Sim inputs base less p x y good)
    (rest : ∀ q a b, To base less p q → Related inputs q → good q a b →
      Sim inputs base names q (f a) (g b) good') :
    Sim inputs base names p (x >>= f) (y >>= g) good' := by
  have kept : Sim inputs base less p x y fun q a b => To base less p q ∧ good q a b :=
    first.imp fun _ _ _ onto _ holds => ⟨onto, holds⟩
  exact (kept.mono (Nat.le_refl _) sub).bind
    fun q a b _ related holds => rest q a b holds.1 related holds.2

/-- A step that only the store takes. -/
theorem right {q : Pair} {b : β} {g : β → Run β'} {x : Machine.Run α'}
    {good' : Pair → α' → β' → Prop} (taken : y p.store = .ok b q.store)
    (machine : q.machine = p.machine) (onto : To base names p q) (related : Related inputs q)
    (rest : Sim inputs base names q x (g b) good') :
    Sim inputs base names p x (y >>= g) good' := by
  have waits : (Pure.pure () : Machine.Run Unit) p.machine = .ok () q.machine := by
    rw [machine]
    rfl
  have first : Sim inputs base names p (Pure.pure () : Machine.Run Unit) y
      fun q' _ b' => q' = q ∧ b' = b := of_ok waits taken onto related ⟨rfl, rfl⟩
  show Sim inputs base names p (Pure.pure () >>= fun _ => x) (y >>= g) good'
  refine first.bind ?_
  rintro _ _ _ _ _ ⟨rfl, rfl⟩
  exact rest

end Sim

end Simulation

/-! ## Values look the same -/

section Looks

variable {inputs : List Input} {p : Pair} {v w : Value}

theorem SameClass.arity {c d : ObjectClass} (h : SameClass inputs p c d) : d.arity = c.arity := by
  have same := h.methods initializerName
  unfold ObjectClass.arity
  cases hc : c.method? initializerName <;> cases hd : d.method? initializerName <;>
    rw [hc, hd] at same
  · cases same
  · cases same
  · rw [Option.rel_some_some] at same
    simp only [Closure.arity, same.declaration]

/-- Values that are the same look the same to a program. -/
theorem Same.looks (h : Same inputs p v w) : Looks v w := by
  cases h with
  | data data => exact .data data
  | host f => exact .host f
  | function id same =>
    exact .function id (by simp only [Closure.name, same.declaration])
      (by simp only [Closure.arity, same.declaration])
  | cls same => exact .cls same.id same.name same.arity
  | object id same => exact .object id same.name

theorem SameRow.length {vs ws : List Value} (h : SameRow inputs p vs ws) :
    ws.length = vs.length := by
  induction h with
  | nil => rfl
  | cons _ _ ih => simp only [List.length_cons, ih]

end Looks

end ClassScript.Slots
