import ClassScript.Proofs.Machine.Rooted
import Mathlib.Data.Fintype.Card
import Mathlib.Order.WellFounded

/-!
# Searching for a name and going straight to it

A name is found by searching from a scope on upward, or by going up a number of parents that
is known. Where every chain of parents ends, both lead to the same binding: the search ends
at the nearest scope that binds the name (`owner?_eq_some_iff`), and finds none only if no
scope of the chain binds it. A write reaches one binding and no other, and through whichever
chain that scope is looked at, the new value is seen (`search_and_hops_agree`).
-/

namespace ClassScript.Machine

open Syntax Object

namespace Scopes

variable {scopes : Scopes} {id up owner : ScopeId} {name : String}

/-- Going up from parent to parent comes to an end, from every scope on. -/
def Founded (scopes : Scopes) : Prop :=
  WellFounded fun up id => scopes.parent? id = some up

/-! ## Chains of parents -/

/-- A way over some hops can be taken in two parts. -/
theorem ancestor?_add (scopes : Scopes) (more hops : Nat) (id : ScopeId) :
    scopes.ancestor? (hops + more) id =
      (scopes.ancestor? hops id).bind (scopes.ancestor? more) := by
  induction hops generalizing id with
  | zero => rw [Nat.zero_add]; rfl
  | succ hops ih =>
    rw [Nat.add_right_comm]
    simp only [ancestor?]
    cases scopes.parent? id with
    | none => rfl
    | some parent => exact ih parent

namespace Founded

/-- No scope is above itself. -/
theorem acyclic (founded : scopes.Founded) {hops : Nat}
    (climbs : scopes.ancestor? (hops + 1) id = some up) : up ≠ id := by
  -- climbing is the transitive closure of the parent relation, which a founded heap has no loop
  -- in
  have above : Relation.TransGen (fun up id => scopes.parent? id = some up) up id := by
    induction hops generalizing id with
    | zero =>
      refine .single ?_
      simp only [ancestor?] at climbs
      cases parent : scopes.parent? id with
      | none => rw [parent] at climbs; cases climbs
      | some next => rw [parent] at climbs; exact climbs
    | succ hops ih =>
      rw [ancestor?] at climbs
      cases parent : scopes.parent? id with
      | none => rw [parent] at climbs; cases climbs
      | some next =>
        rw [parent] at climbs
        exact .tail (ih climbs) parent
  rintro rfl
  exact founded.transGen.irrefl.irrefl up above

/-- The scopes of a chain are different ones. -/
theorem injective (founded : scopes.Founded) {few many : Nat} (less : few < many)
    (here : scopes.ancestor? few id = some up) : scopes.ancestor? many id ≠ some up := by
  obtain ⟨more, rfl⟩ : ∃ more, many = few + (more + 1) := ⟨many - few - 1, by omega⟩
  rw [ancestor?_add, here]
  exact fun there => founded.acyclic there rfl

/-- No chain is longer than there are scopes. -/
theorem hops_lt_size (founded : scopes.Founded) {hops : Nat}
    (climbs : scopes.ancestor? hops id = some owner) (inside : owner < scopes.size) :
    hops < scopes.size := by
  -- every scope passed on the way is one of the heap, and no two are the same
  have passed (k : Fin (hops + 1)) : ∃ up : Fin scopes.size, scopes.ancestor? k id = some up := by
    obtain ⟨rest, split⟩ : ∃ rest, hops = k + rest := ⟨hops - k, by omega⟩
    rw [split, ancestor?_add] at climbs
    obtain ⟨up, here, there⟩ := Option.bind_eq_some_iff.mp climbs
    refine ⟨⟨up, ?_⟩, here⟩
    cases rest with
    | zero => obtain rfl := Option.some.inj there; exact inside
    | succ rest =>
      rw [ancestor?] at there
      cases parent : scopes.parent? up with
      | none => rw [parent] at there; cases there
      | some next => exact lt_size_of_parent? parent
  choose place placed using passed
  have distinct : Function.Injective place := by
    intro j k same
    rcases Nat.lt_trichotomy j k with less | equal | less
    · exact absurd (placed k) (founded.injective less (same ▸ placed j))
    · exact Fin.ext equal
    · exact absurd (placed j) (founded.injective less (same ▸ placed k))
  have fits := Fintype.card_le_of_injective place distinct
  rwa [Fintype.card_fin, Fintype.card_fin] at fits

end Founded

/-! ## The nearest binding -/

/-- A scope binds the name that many parents further up, and no scope before it does. -/
structure Nearest (scopes : Scopes) (id : ScopeId) (name : String) (hops : Nat)
    (owner : ScopeId) : Prop where
  above : scopes.ancestor? hops id = some owner
  binds : scopes.contains owner name = true
  first : ∀ fewer < hops, ∀ up, scopes.ancestor? fewer id = some up →
    scopes.contains up name = false

/-- The nearest scope with a name is one of the heap. -/
theorem Nearest.inside {hops : Nat} (nearest : scopes.Nearest id name hops owner) :
    owner < scopes.size := by
  obtain ⟨value, bound⟩ := Option.isSome_iff_exists.mp nearest.binds
  exact lt_size_of_own? bound

/-- What is nearest to the parent is nearest to a scope that does not bind the name. -/
theorem nearest_succ_iff {hops : Nat} (other : scopes.contains id name = false)
    (parent : scopes.parent? id = some up) :
    scopes.Nearest id name (hops + 1) owner ↔ scopes.Nearest up name hops owner := by
  have step (hops : Nat) : scopes.ancestor? (hops + 1) id = scopes.ancestor? hops up := by
    simp only [ancestor?, parent]
  constructor
  · rintro ⟨above, binds, first⟩
    refine ⟨(step hops).symm.trans above, binds, fun fewer less scope climbs => ?_⟩
    exact first (fewer + 1) (by omega) scope ((step fewer).trans climbs)
  · rintro ⟨above, binds, first⟩
    refine ⟨(step hops).trans above, binds, fun fewer less scope climbs => ?_⟩
    cases fewer with
    | zero => obtain rfl := Option.some.inj climbs; exact other
    | succ fewer => exact first fewer (by omega) scope ((step fewer).symm.trans climbs)

/-- A search ends at the nearest scope that binds the name, if it may go on for so long. -/
theorem ownerWithin?_of_nearest {fuel hops : Nat} (nearest : scopes.Nearest id name hops owner)
    (enough : hops < fuel) : scopes.ownerWithin? name fuel id = some owner := by
  induction hops generalizing id fuel with
  | zero =>
    obtain rfl := Option.some.inj nearest.above
    obtain ⟨fuel, rfl⟩ := Nat.exists_eq_succ_of_ne_zero (Nat.ne_of_gt enough)
    rw [ownerWithin?, if_pos nearest.binds]
  | succ hops ih =>
    obtain ⟨fuel, rfl⟩ := Nat.exists_eq_succ_of_ne_zero (Nat.ne_of_gt (Nat.zero_lt_of_lt enough))
    -- this scope does not bind the name, as the nearest one is further away
    have other := nearest.first 0 (Nat.succ_pos hops) id rfl
    cases parent : scopes.parent? id with
    | none =>
      have above := nearest.above
      simp only [ancestor?, parent] at above
      cases above
    | some up =>
      simp only [ownerWithin?, other, parent]
      exact ih ((nearest_succ_iff other parent).mp nearest) (by omega)

/-- What the search finds is the nearest scope with the name. -/
theorem nearest_of_ownerWithin? {fuel : Nat}
    (found : scopes.ownerWithin? name fuel id = some owner) :
    ∃ hops, scopes.Nearest id name hops owner := by
  induction fuel generalizing id with
  | zero => cases found
  | succ fuel ih =>
    -- the search stops here or goes on one hop further
    cases here : scopes.contains id name with
    | true =>
      rw [ownerWithin?, if_pos here] at found
      obtain rfl := Option.some.inj found
      exact ⟨0, rfl, here, fun _ less => absurd less (Nat.not_lt_zero _)⟩
    | false =>
      simp only [ownerWithin?, here] at found
      cases parent : scopes.parent? id with
      | none => rw [parent] at found; cases found
      | some up =>
        rw [parent] at found
        obtain ⟨hops, nearest⟩ := ih found
        exact ⟨hops + 1, (nearest_succ_iff here parent).mpr nearest⟩

/-- Where chains end, a search finds the nearest scope that binds the name, and no other. -/
theorem owner?_eq_some_iff (founded : scopes.Founded) :
    scopes.owner? id name = some owner ↔ ∃ hops, scopes.Nearest id name hops owner := by
  constructor
  · exact nearest_of_ownerWithin?
  · rintro ⟨hops, nearest⟩
    exact ownerWithin?_of_nearest nearest (founded.hops_lt_size nearest.above nearest.inside)

/-- The search finds nothing if and only if no scope above has the name. -/
theorem owner?_eq_none_iff (founded : scopes.Founded) :
    scopes.owner? id name = none ↔
      ∀ hops up, scopes.ancestor? hops id = some up → scopes.contains up name = false := by
  constructor
  · -- otherwise some scope of the chain is the nearest one
    intro missing
    by_contra bound
    push Not at bound
    have found : ∃ hops, ∃ up, scopes.ancestor? hops id = some up ∧
        scopes.contains up name = true := by
      obtain ⟨hops, up, climbs, binds⟩ := bound
      exact ⟨hops, up, climbs, Bool.eq_true_of_not_eq_false binds⟩
    classical
    obtain ⟨up, climbs, binds⟩ := Nat.find_spec found
    have nearest : scopes.Nearest id name (Nat.find found) up := by
      refine ⟨climbs, binds, fun fewer less scope climbs => ?_⟩
      exact Bool.eq_false_of_not_eq_true fun binds =>
        Nat.find_min found less ⟨scope, climbs, binds⟩
    rw [(owner?_eq_some_iff founded).mpr ⟨_, nearest⟩] at missing
    cases missing
  · intro unbound
    cases found : scopes.owner? id name with
    | none => rfl
    | some owner =>
      obtain ⟨hops, nearest⟩ := nearest_of_ownerWithin? found
      have binds := nearest.binds
      rw [unbound hops owner nearest.above] at binds
      cases binds

/-! ## Writes -/

/-- The ways to write to a name. -/
inductive Write where
  /-- Bind it in a scope. -/
  | define (id : ScopeId)
  /-- Change its binding, searched from a scope on upward. -/
  | assign (id : ScopeId) (line : Nat)
  /-- Change its binding a number of parents above a scope. -/
  | assignAt (hops : Nat) (id : ScopeId)

namespace Write

/-- The scopes after a write, or why it fails. -/
def run (write : Write) (name : String) (value : Value) (scopes : Scopes) : Except Fault Scopes :=
  match write with
  | define id => .ok (scopes.define id name value)
  | assign id line => scopes.assign id name value line
  | assignAt hops id => scopes.assignAt hops id name value

/-- The scope that a write goes out from. -/
def origin : Write → ScopeId
  | define id | assign id _ | assignAt _ id => id

/-- The scope that a write goes to. -/
def Reaches (scopes : Scopes) (name : String) (owner : ScopeId) : Write → Prop
  | define id => id = owner
  | assign id _ => ∃ hops, scopes.Nearest id name hops owner
  | assignAt hops id => scopes.ancestor? hops id = some owner ∧ scopes.contains owner name = true

/-- A write that succeeds binds the name in the scope that it goes to, and that scope is one
of those that are there. -/
theorem run_eq_ok (founded : scopes.Founded) {write : Write} (inside : write.origin < scopes.size)
    {value : Value} {after : Scopes} (done : write.run name value scopes = .ok after) :
    ∃ owner < scopes.size, write.Reaches scopes name owner ∧
      after = scopes.define owner name value := by
  -- a scope that binds a name exists
  have bound {owner : ScopeId} (binds : scopes.contains owner name = true) :
      owner < scopes.size := by
    obtain ⟨old, found⟩ := Option.isSome_iff_exists.mp binds
    exact lt_size_of_own? found
  cases write with
  | define id => exact ⟨id, inside, rfl, (Except.ok.inj done).symm⟩
  | assign id line =>
    simp only [run, Scopes.assign, target] at done
    cases found : scopes.owner? id name with
    | none => rw [found] at done; cases done
    | some owner =>
      rw [found] at done
      exact ⟨owner, bound (contains_of_owner? found), (owner?_eq_some_iff founded).mp found,
        (Except.ok.inj done).symm⟩
  | assignAt hops id =>
    simp only [run, Scopes.assignAt, targetAt, ancestor] at done
    cases climbs : scopes.ancestor? hops id with
    | none => rw [climbs] at done; cases done
    | some owner =>
      cases binds : scopes.contains owner name with
      | false => simp only [climbs, binds] at done; cases done
      | true =>
        simp only [climbs, binds] at done
        exact ⟨owner, bound binds, ⟨climbs, binds⟩, (Except.ok.inj done).symm⟩

end Write

/-- To define a name moves no scope. -/
@[simp] theorem ancestor?_define (scopes : Scopes) (owner : ScopeId) (name : String) (value : Value)
    (hops : Nat) (id : ScopeId) :
    (scopes.define owner name value).ancestor? hops id = scopes.ancestor? hops id := by
  induction hops generalizing id with
  | zero => rfl
  | succ hops ih => simp only [ancestor?, parent?_define, ih]

/-- What is seen from any scope at any distance after a name is bound in one scope. -/
theorem getAt_define (inside : owner < scopes.size) (value : Value) (hops : Nat) (id : ScopeId)
    (text : String) : (scopes.define owner name value).getAt hops id text =
      if scopes.ancestor? hops id = some owner ∧ name = text then .ok value
      else scopes.getAt hops id text := by
  simp only [getAt, ancestor, ancestor?_define]
  cases scopes.ancestor? hops id with
  | none => rfl
  | some up =>
    by_cases here : up = owner ∧ name = text
    · obtain ⟨rfl, rfl⟩ := here
      simp [own?_define, inside]
    · have other : ¬ (owner = up ∧ name = text ∧ owner < scopes.size) :=
        fun there => here ⟨there.1.symm, there.2.1⟩
      simp only [own?_define, if_neg other, Option.some.injEq, if_neg here]

/-- To change a binding that is there makes no other one. -/
theorem contains_define (binds : scopes.contains owner name = true) (value : Value) (id : ScopeId)
    (text : String) :
    (scopes.define owner name value).contains id text = scopes.contains id text := by
  simp only [contains, own?_define]
  split
  · next here =>
    obtain ⟨rfl, rfl, -⟩ := here
    exact binds.symm
  · rfl

end Scopes

/-- What a machine does with a write: it goes on with the scopes after it, or it stops. -/
def State.write (m : State) (name : String) (value : Value) (write : Scopes.Write) :
    EStateM.Result Stop State Unit :=
  match write.run name value m.scopes with
  | .ok scopes => .ok () { m with scopes }
  | .error fault => .error (.fault fault) m

theorem define_eq_write (name : String) (value : Value) (m : State) :
    define name value m = m.write name value (.define m.current) := rfl

theorem assign_eq_write (name : Name) (value : Value) (m : State) :
    assign name value m = m.write name.text value (.assign m.current name.line) := by
  unfold assign State.write
  simp only [Scopes.Write.run, Scopes.assign]
  cases m.scopes.target m.current name.text name.line <;> rfl

theorem writeVariable_eq_write (target : Occurrence) (value : Value) (m : State) :
    writeVariable target value m = m.write target.name.text value
      (match m.locals.depth? target.id with
        | some hops => .assignAt hops m.current
        | none => .assign m.globals target.name.line) := by
  unfold writeVariable writeTarget State.write
  cases m.locals.depth? target.id with
  | none =>
    simp only [Scopes.Write.run, Scopes.assign]
    cases m.scopes.target m.globals target.name.text target.name.line <;> rfl
  | some hops =>
    simp only [Scopes.Write.run, Scopes.assignAt]
    cases m.scopes.targetAt hops m.current target.name.text <;> rfl

namespace Scopes

/-- Searching for a name and going up to its nearest binding are one and the same, and only a
name that no scope of the chain binds is undefined. A write that succeeds changes what is seen
of the one name in the one scope that it goes to, from wherever that scope is looked at, and
leaves the chains as they are; only `define` makes a binding. The writes of a machine are
these, and one that fails leaves the machine as it was. -/
theorem search_and_hops_agree (scopes : Scopes) (founded : scopes.Founded) :
    (∀ id name value line hops owner, scopes.Nearest id name hops owner →
      (∃ found, scopes.get id name line = .ok found ∧ scopes.getAt hops id name = .ok found) ∧
      ∃ after, scopes.assign id name value line = .ok after ∧
        scopes.assignAt hops id name value = .ok after) ∧
    (∀ id name value line,
      (∀ hops up, scopes.ancestor? hops id = some up → scopes.contains up name = false) →
        scopes.get id name line = .error (.undefinedVariable name line) ∧
        scopes.assign id name value line = .error (.undefinedVariable name line)) ∧
    (∀ (write : Write) name value after, write.origin < scopes.size →
      write.run name value scopes = .ok after → ∃ owner, write.Reaches scopes name owner ∧
        (∀ hops id text, after.getAt hops id text =
          if scopes.ancestor? hops id = some owner ∧ name = text then .ok value
          else scopes.getAt hops id text) ∧
        (∀ hops id, after.ancestor? hops id = scopes.ancestor? hops id) ∧
        ((∀ id, write ≠ .define id) →
          ∀ id text, after.contains id text = scopes.contains id text)) ∧
    ∀ m : State,
      (∀ text value, Machine.define text value m = m.write text value (.define m.current)) ∧
      (∀ name value,
        Machine.assign name value m = m.write name.text value (.assign m.current name.line)) ∧
      (∀ target value, writeVariable target value m = m.write target.name.text value
        (match m.locals.depth? target.id with
          | some hops => .assignAt hops m.current
          | none => .assign m.globals target.name.line)) ∧
      ∀ write text value stop m', m.write text value write = .error stop m' → m' = m := by
  refine ⟨?nearest, ?unbound, ?written, ?machine⟩
  case nearest =>
    intro id name value line hops owner nearest
    have search := (owner?_eq_some_iff founded).mpr ⟨hops, nearest⟩
    obtain ⟨found, bound⟩ := Option.isSome_iff_exists.mp nearest.binds
    -- reads by both ways give the value bound there, writes by both ways define it there
    refine ⟨⟨found, ?_, getAt_of_found nearest.above bound⟩, scopes.define owner name value, ?_, ?_⟩
    · simp only [Scopes.get, search, Option.bind_some, bound]
    · simp only [Scopes.assign, target, search, Except.map]
    · simp only [Scopes.assignAt, targetAt_of_found nearest.above nearest.binds, Except.map]
  case unbound =>
    intro id name value line unbound
    have search := (owner?_eq_none_iff founded).mpr unbound
    constructor
    · simp only [Scopes.get, search, Option.bind_none]
    · simp only [Scopes.assign, target, search, Except.map]
  case written =>
    intro write name value after inside done
    -- every successful write is one definition, in the scope that it reaches
    obtain ⟨owner, there, reaches, rfl⟩ := write.run_eq_ok founded inside done
    refine ⟨owner, reaches, getAt_define there value, ancestor?_define _ _ _ _, fun kept => ?_⟩
    cases write with
    | define id => exact absurd rfl (kept id)
    -- an assignment finds the name bound already, so it adds no binding
    | assign id line =>
      obtain ⟨hops, nearest⟩ := reaches
      exact contains_define nearest.binds value
    | assignAt hops id => exact contains_define reaches.2 value
  case machine =>
    intro m
    refine ⟨fun text value => define_eq_write text value m,
      fun name value => assign_eq_write name value m,
      fun target value => writeVariable_eq_write target value m, ?_⟩
    intro write text value stop m' failed
    unfold State.write at failed
    cases result : write.run text value m.scopes with
    | ok after => rw [result] at failed; cases failed
    | error fault =>
      rw [result] at failed
      injection failed with _ same
      exact same.symm

/-- Two scopes that bind a name, one inside the other, and a third one inside that binds
nothing. -/
def shadowed : Scopes :=
  ((((empty.push none).2.define 0 "x" .nil).push (some 0)).2.define 1 "x" (.bool true)
    |>.push (some 1)).2

/-- From the innermost scope the name is the one that is bound one scope further up. -/
theorem shadowed_by_search : shadowed.Founded ∧ shadowed.Nearest 2 "x" 1 1 ∧
    (∃ found, shadowed.get 2 "x" 1 = .ok found ∧ shadowed.getAt 1 2 "x" = .ok found) ∧
    ∃ after, shadowed.assign 2 "x" .nil 1 = .ok after ∧
      shadowed.assignAt 1 2 "x" .nil = .ok after := by
  have tree : shadowed.Rooted 0 :=
    (((Rooted.start.define 0 "x" .nil).push (by simp)).define 1 "x" (.bool true)).push (by simp)
  have none_there (id : ScopeId) : empty.own? id "x" = none := rfl
  have nearest : shadowed.Nearest 2 "x" 1 1 := by
    refine ⟨rfl, by simp [shadowed, contains, own?_define], ?_⟩
    intro fewer less up here
    obtain rfl := Nat.lt_one_iff.mp less
    obtain rfl := Option.some.inj here
    simp [shadowed, contains, own?_define, none_there]
  exact ⟨tree.founded, nearest,
    (search_and_hops_agree shadowed tree.founded).1 2 "x" .nil 1 1 1 nearest⟩

end Scopes

end ClassScript.Machine
