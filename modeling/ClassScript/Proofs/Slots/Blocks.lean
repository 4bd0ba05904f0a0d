import ClassScript.Proofs.Slots.Meaning
import ClassScript.Proofs.Syntax.Core

/-!
# Blocks and loops

A block around one statement that declares nothing does nothing of its own
(`effect_blockOf`), and the increment of a loop may stand at the end of its body
(`effect_loopOf`). The block of one statement only puts back the map in force, and what
declares nothing does not change it (`Inert`).
-/

namespace ClassScript.Slots

open Syntax Object Machine

/-! ## Computations that a block leaves as they are -/

/-- The computation does the same in a block of its own. -/
def Inert {α : Type} (x : Run α) : Prop :=
  ∀ σ, restore σ (x { σ with isLocal := true }) = x σ

/-- A block around an inert computation may be left out. -/
theorem Inert.block {α : Type} {x : Run α} (inert : Inert x) :
    (do within (← mapInForce) x) = x := by
  funext σ
  exact (within_eq σ.map x σ).trans (inert σ)

theorem content?_inside (σ : Store) (isLocal : Bool) :
    ({ σ with isLocal } : Store).content? = σ.content? := rfl

namespace Inert

variable {α β : Type}

theorem pure (a : α) : Inert (Pure.pure a : Run α) := fun _ => rfl

theorem throw (e : Stop) : Inert (throw e : Run α) := fun _ => rfl

/-- Behind an inert computation in a block is the store that is behind it elsewhere, in
the block. -/
theorem ends {x : Run α} (inert : Inert x) (σ : Store) :
    (∃ (a : α) (σ' : Store), x σ = .ok a { σ' with map := σ.map, isLocal := σ.isLocal } ∧
        x { σ with isLocal := true } = .ok a { σ' with map := σ.map, isLocal := true }) ∨
      ∃ (e : Stop) (σ' : Store), x σ = .error e { σ' with map := σ.map, isLocal := σ.isLocal } ∧
        x { σ with isLocal := true } = .error e { σ' with map := σ.map, isLocal := true } := by
  have inside := inert { σ with isLocal := true }
  have outside := inert σ
  cases ran : x { σ with isLocal := true } with
  | ok a σ' =>
    rw [ran] at inside outside
    exact .inl ⟨a, σ', outside.symm, inside.symm⟩
  | error e σ' =>
    rw [ran] at inside outside
    exact .inr ⟨e, σ', outside.symm, inside.symm⟩

/-- Two inert computations in a row are inert. -/
theorem bind {x : Run α} {f : α → Run β} (first : Inert x) (rest : ∀ a, Inert (f a)) :
    Inert (x >>= f) := by
  intro σ
  rcases first.ends σ with ⟨a, σ', outside, inside⟩ | ⟨e, σ', outside, inside⟩
  · simp only [Bind.bind, EStateM.bind, outside, inside]
    exact rest a { σ' with map := σ.map, isLocal := σ.isLocal }
  · simp only [Bind.bind, EStateM.bind, outside, inside]
    rfl

theorem ite {c : Prop} [Decidable c] {x y : Run α} (yes : Inert x) (no : Inert y) :
    Inert (if c then x else y) := by
  split
  · exact yes
  · exact no

theorem within (map : Map) (x : Run α) : Inert (within map x) := by
  intro σ
  rw [within_eq, within_eq]
  show restore σ (restore _ (x { σ with map, isLocal := true })) = _
  cases x { σ with map, isLocal := true } <;> rfl

theorem inBlock (x : Run α) : Inert (do Slots.within (← mapInForce) x) := fun σ =>
  within σ.map x σ

theorem liftExcept (result : Except Fault α) : Inert (liftExcept result) := by
  intro σ
  cases result <;> rfl

theorem read (name : Name) : Inert (read name) := by
  intro σ
  simp only [Slots.read, content?_inside]
  cases σ.map[name.text]? with
  | some slot =>
    simp only
    cases σ.content? slot <;> rfl
  | none =>
    simp only
    cases σ.globals[name.text]? <;> rfl

theorem write (name : Name) (value : Value) : Inert (write name value) := by
  intro σ
  simp only [Slots.write, content?_inside]
  cases σ.map[name.text]? with
  | some slot =>
    simp only
    cases σ.content? slot <;> rfl
  | none =>
    simp only
    cases σ.globals[name.text]? <;> rfl

theorem newObject (cls : ObjectClass) : Inert (newObject cls) := fun _ => rfl

theorem bindMethod (method : Closure) (o : Instance) : Inert (bindMethod method o) :=
  fun _ => rfl

theorem methodValue (method : Closure) (o : Instance) : Inert (methodValue method o) :=
  fun _ => rfl

theorem readProperty (subject : Value) (name : Name) : Inert (readProperty subject name) := by
  intro σ
  cases subject with
  | object o =>
    simp only [Slots.readProperty, Store.field?]
    cases σ.objects[o.id]?.bind fun fields => fields[name.text]? with
    | some value => rfl
    | none =>
      simp only
      cases o.cls.method? name.text <;> rfl
  | _ => rfl

theorem writeField (o : Instance) (name : String) (value : Value) :
    Inert (writeField o name value) := fun _ => rfl

theorem readSuper (method : Name) : Inert (readSuper method) := by
  intro σ
  simp only [Slots.readSuper, content?_inside]
  generalize σ.map["super"]?.bind σ.content? = superclass, σ.map["this"]?.bind σ.content? = object
  split
  · split <;> rfl
  · rfl

theorem print (value : Value) : Inert (print value) := by
  intro σ
  simp only [Slots.print]
  cases (σ.sink.write (value.display ++ "\n").toUTF8).1 <;> rfl

theorem callHost (f : HostRef) (arguments : List Value) (line : Nat) :
    Inert (callHost f arguments line) := by
  intro σ
  simp only [Slots.callHost]
  cases σ.hosts[f.id]? with
  | none => rfl
  | some action =>
    cases action with
    | clock => rfl
    | compute run =>
      simp only
      cases run arguments <;> rfl

/-- Steps of expressions are inert. -/
theorem stepwise : Stepwise Inert where
  pure := pure
  throw := throw
  bind := bind
  liftExcept := liftExcept
  read := read
  write := write
  newObject := newObject
  bindMethod := bindMethod
  readProperty := readProperty
  writeField := writeField
  readSuper := readSuper
  callHost := callHost

end Inert

namespace Inert

theorem callMap (closure : Closure) (arguments : List Value) :
    Inert (callMap closure arguments) := by
  obtain ⟨f, folds⟩ := bindParameters (closure.declaration.parameters.zip arguments)
  intro σ
  simp only [callMap_eq, folds]
  rfl

theorem callResult (closure : Closure) (completion : Completion) :
    Inert (callResult closure completion) := by
  unfold Slots.callResult
  refine ite (fun σ => ?_) ?_
  · simp only [boundObject, Store.captured, content?_inside]
    cases (σ.maps[closure.scope]?.getD ∅)["this"]?.bind σ.content? <;> rfl
  · cases completion with
    | returned value => exact pure value
    | normal => exact pure _
    | broke | continued => exact throw _

end Inert

theorem inert_invokeUpTo (limit : Nat) (closure : Closure) (arguments : List Value) :
    Inert (invokeUpTo limit closure arguments) := by
  cases limit with
  | zero => exact .throw _
  | succ limit =>
    refine .bind (.callMap closure arguments) fun map => ?_
    exact .bind (.within map _) fun completion => .callResult closure completion

section Inert

variable {invoke : Closure → List Value → Run Value}
  (functions : ∀ closure arguments, Inert (invoke closure arguments))
include functions

/-- A statement that declares nothing does the same in a block of its own. -/
theorem inert_effect {limit : Nat} : (s : Stmt) → s.declarations = [] →
    Inert (effect limit invoke s)
  | .expression e, _ => .bind (Inert.stepwise.valueOf functions e) fun _ => .pure _
  | .print e, _ =>
    .bind (Inert.stepwise.valueOf functions e) fun v => .bind (.print v) fun _ => .pure _
  | .block _, _ => .inBlock _
  | .branch condition yes none, plain =>
    .bind (Inert.stepwise.valueOf functions condition) fun _ =>
      .ite (inert_effect yes plain) (.pure _)
  | .branch condition yes (some no), plain =>
    have both := List.append_eq_nil_iff.mp plain
    .bind (Inert.stepwise.valueOf functions condition) fun _ =>
      .ite (inert_effect yes both.1) (inert_effect no both.2)
  | .loop condition body increment, plain =>
    Inert.stepwise.rounds (Inert.stepwise.valueOf functions condition) (inert_effect body plain)
      (Inert.stepwise.valueOf? functions increment) limit
  | .return _ value, _ => .bind (Inert.stepwise.valueOf? functions value) fun _ => .pure _
  | .break _, _ => .pure _
  | .continue _, _ => .pure _

end Inert

/-! ## Computations that never go on with a loop -/

/-- The computation does not end as `continue` does. -/
def NeverContinues (x : Run Completion) : Prop := ∀ σ σ', x σ ≠ .ok .continued σ'

namespace NeverContinues

theorem pure {c : Completion} (other : c ≠ .continued) : NeverContinues (Pure.pure c) := by
  rintro σ σ' ⟨⟩
  exact other rfl

theorem throw (e : Stop) : NeverContinues (throw e) := fun _ _ ended => nomatch ended

theorem bind {α : Type} {x : Run α} {f : α → Run Completion}
    (rest : ∀ σ a σ', x σ = .ok a σ' → NeverContinues (f a)) : NeverContinues (x >>= f) := by
  intro σ σ' ended
  simp only [Bind.bind, EStateM.bind] at ended
  cases ran : x σ with
  | ok a σ₁ =>
    rw [ran] at ended
    exact rest σ a σ₁ ran σ₁ σ' ended
  | error e σ₁ =>
    rw [ran] at ended
    cases ended

theorem ite {c : Prop} [Decidable c] {x y : Run Completion} (yes : NeverContinues x)
    (no : NeverContinues y) : NeverContinues (if c then x else y) := by
  split
  · exact yes
  · exact no

theorem within {map : Map} {x : Run Completion} (inner : NeverContinues x) :
    NeverContinues (within map x) := by
  intro σ σ' ended
  simp only [Slots.within] at ended
  cases ran : x { σ with map, isLocal := true } with
  | ok c σ₁ =>
    rw [ran] at ended
    cases ended
    exact inner _ _ ran
  | error e σ₁ =>
    rw [ran] at ended
    cases ended

/-- A loop whose body never goes on with an outer loop does not either: it takes `continue` for
itself. -/
theorem rounds {test : Run Value} {body : Run Completion} {step : Run Value} (limit : Nat) :
    NeverContinues (rounds test body step limit) := by
  induction limit with
  | zero => exact throw _
  | succ limit ih =>
    refine bind fun _ v _ _ => ite (bind fun _ completion _ _ => ?_) (pure nofun)
    cases completion with
    | normal | continued => exact bind fun _ _ _ _ => ih
    | broke => exact pure nofun
    | returned value => exact pure nofun

end NeverContinues

mutual

/-- A statement with no `continue` of an outer loop in it never ends as `continue` does. -/
theorem neverContinues_effect {limit : Nat} {invoke : Closure → List Value → Run Value} :
    (s : Stmt) → s.continues = false → NeverContinues (effect limit invoke s)
  | .expression _, _ | .print _, _ | .var _ _, _ | .function _, _ | .return _ _, _
  | .classDecl _ none _, _ | .classDecl _ (some _) _, _ => by
    simp only [effect]
    repeat refine .bind fun _ _ _ _ => ?_
    exact .pure nofun
  | .block body, stays => .bind fun _ _ _ _ => .within (neverContinues_effectOfAll body stays)
  | .branch _ yes none, stays =>
    .bind fun _ _ _ _ => .ite (neverContinues_effect yes stays) (.pure nofun)
  | .branch _ yes (some no), stays =>
    have both := Bool.or_eq_false_iff.mp stays
    .bind fun _ _ _ _ =>
      .ite (neverContinues_effect yes both.1) (neverContinues_effect no both.2)
  | .loop _ _ _, _ => .rounds limit
  | .break _, _ => .pure nofun

theorem neverContinues_effectOfAll {limit : Nat} {invoke : Closure → List Value → Run Value} :
    (ss : List Stmt) → Stmt.continuesAny ss = false →
      NeverContinues (effectOfAll limit invoke ss)
  | [], _ => .pure nofun
  | s :: rest, stays => by
    have both := Bool.or_eq_false_iff.mp stays
    refine .bind fun σ completion σ' ended => ?_
    cases completion with
    | normal => exact neverContinues_effectOfAll rest both.2
    | continued => exact absurd ended (neverContinues_effect s both.1 σ σ')
    | broke | returned _ => exact .pure nofun

end

/-! ## Statements that do the same -/

/-- A step behind a body that ends normally. -/
def withStep (body : Run Completion) (step : Run Value) : Run Completion := do
  match ← body with
  | .normal =>
    let _ ← step
    pure .normal
  | jump => pure jump

section Same

variable {limit : Nat} {invoke : Closure → List Value → Run Value}

/-- What one statement does, in a row of its own. -/
theorem effectOfAll_single (s : Stmt) :
    effectOfAll limit invoke [s] = effect limit invoke s := by
  have same : ∀ completion : Completion,
      (match completion with
        | .normal => effectOfAll limit invoke []
        | jump => pure jump) = (pure completion : Run Completion) := by
    intro completion
    cases completion <;> rfl
  exact (congrArg (effect limit invoke s >>= ·) (funext same)).trans (bind_pure _)

variable (functions : ∀ closure arguments, Inert (invoke closure arguments))
include functions

/-- A block around one statement that declares nothing may be left out. -/
theorem effect_blockOf (ss : List Stmt) :
    effect limit invoke (blockOf ss) = effect limit invoke (.block ss) := by
  unfold blockOf
  split
  · next s =>
    split
    · next plain =>
      rw [effect, effectOfAll_single]
      exact (inert_effect functions s plain).block.symm
    · rfl
  · rfl

omit functions in
/-- In a loop, the step may be taken at the end of the body. -/
theorem rounds_inner {test : Run Value} {body : Run Completion} {step : Run Value}
    (stays : NeverContinues body) :
    rounds test (withStep body step) (pure .nil) limit = rounds test body step limit := by
  induction limit with
  | zero => rfl
  | succ limit ih =>
    rw [rounds, ih, rounds]
    simp only [withStep, bind_assoc]
    congr 1
    funext v
    congr 1
    funext σ
    simp only [Bind.bind, EStateM.bind]
    cases ran : body σ with
    | error e σ' => rfl
    | ok completion σ' =>
      cases completion with
      | normal =>
        simp only [EStateM.bind]
        cases step σ' <;> rfl
      -- a body that ends with `continue` would miss the step inside, but no body does
      | continued => exact absurd ran (stays σ σ')
      | broke | returned _ => rfl

/-- The body of a loop and its increment in a block. -/
theorem effect_withStep {body : Stmt} (e : Expr) (plain : body.declarations = []) :
    effect limit invoke (.block [body, .expression e]) =
      withStep (effect limit invoke body) (valueOf invoke e) := by
  have inert : Inert (effectOfAll limit invoke [body, .expression e]) := by
    refine .bind (inert_effect functions body plain) fun completion => ?_
    cases completion with
    | normal =>
      rw [effectOfAll_single]
      exact inert_effect functions (.expression e) rfl
    | broke | continued | returned _ => exact .pure _
  rw [effect, inert.block, effectOfAll, effectOfAll_single]
  rfl

/-- The increment of a loop may stand at the end of its body. -/
theorem effect_loopOf (condition : Expr) (body : Stmt) (increment : Option Expr) :
    effect limit invoke (loopOf condition body increment) =
      effect limit invoke (.loop condition body increment) := by
  unfold loopOf
  split
  · rfl
  · next e =>
    split
    · next able =>
      rw [effect, effect_withStep functions e able.1, effect]
      exact rounds_inner (neverContinues_effect body able.2)
    · rfl

end Same

end ClassScript.Slots
