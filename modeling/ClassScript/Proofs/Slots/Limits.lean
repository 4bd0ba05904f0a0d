import ClassScript.Proofs.Machine.Output
import ClassScript.Proofs.Slots.Meaning

/-!
# Fuel and limits

The evaluators spend fuel on every construct, and meanings only on calls and rounds. With
the same number, an evaluator ends as the meaning does, or runs out of fuel after it has
written a part of what the meaning writes (`below_runProgram`). Conversely a meaning is
reached with enough fuel (`reaches_runProgram`). So both say the same of every run that
comes to an end, and of all that is written by a run that goes on for ever.
-/

namespace ClassScript.Slots

open Syntax Object Machine

/-- The first run is the second one, or it is cut short: it has run out of fuel, and what
it has written is a part of what the second one has. -/
def CutShort {α : Type} (r r' : EStateM.Result Stop Store α) : Prop :=
  r = r' ∨ ∃ σ, r = .error .outOfFuel σ ∧ σ.sink.Onto (final r').sink

/-- The run only adds to what was written. -/
def AddsOutput {α : Type} (x : Run α) : Prop := ∀ σ : Store, σ.sink.Onto (final (x σ)).sink

/-- The first computation is the second one, where it is not cut short. -/
structure Below {α : Type} (x y : Run α) : Prop where
  adds : AddsOutput x
  adds' : AddsOutput y
  cut : ∀ σ, CutShort (x σ) (y σ)

/-- With enough fuel, the second computation is the first one, where that is not cut
short. -/
structure Reaches {α : Type} (x : Run α) (y : Nat → Run α) : Prop where
  adds : ∀ fuel, AddsOutput (y fuel)
  cut : ∀ σ, ∃ enough, ∀ fuel ≥ enough, CutShort (x σ) (y fuel σ)

/-! ## Steps that only add to the output -/

namespace AddsOutput

variable {α β : Type} {x : Run α}

theorem of_sink (quiet : ∀ σ, (final (x σ)).sink = σ.sink) : AddsOutput x := by
  intro σ
  rw [quiet]
  exact .refl _

theorem pure (a : α) : AddsOutput (Pure.pure a : Run α) := of_sink fun _ => rfl

theorem throw (e : Stop) : AddsOutput (throw e : Run α) := of_sink fun _ => rfl

/-- Two runs in a row only add to what was written if each one does. -/
theorem bind {f : α → Run β} (first : AddsOutput x) (rest : ∀ a, AddsOutput (f a)) :
    AddsOutput (x >>= f) := by
  intro σ
  have begun := first σ
  simp only [Bind.bind, EStateM.bind]
  cases ran : x σ with
  | ok a σ' =>
    rw [ran] at begun
    exact begun.trans (rest a σ')
  | error e σ' =>
    rw [ran] at begun
    exact begun

theorem liftExcept (result : Except Fault α) : AddsOutput (liftExcept result) := by
  refine of_sink fun σ => ?_
  cases result <;> rfl

theorem declare (name : String) : AddsOutput (declare name) := by
  refine of_sink fun σ => ?_
  simp only [Slots.declare]
  split <;> rfl

theorem fill (slot : Option Nat) (name : String) (value : Value) :
    AddsOutput (fill slot name value) := by
  refine of_sink fun σ => ?_
  cases slot <;> rfl

theorem read (name : Name) : AddsOutput (read name) := by
  refine of_sink fun σ => ?_
  simp only [Slots.read]
  split <;> split <;> rfl

theorem write (name : Name) (value : Value) : AddsOutput (write name value) := by
  refine of_sink fun σ => ?_
  simp only [Slots.write]
  split <;> split <;> rfl

theorem newFunction (d : FunctionDecl) : AddsOutput (newFunction d) := of_sink fun _ => rfl

theorem newObject (cls : ObjectClass) : AddsOutput (newObject cls) := of_sink fun _ => rfl

theorem bindMethod (method : Closure) (o : Instance) : AddsOutput (bindMethod method o) :=
  of_sink fun _ => rfl

theorem readProperty (subject : Value) (name : Name) :
    AddsOutput (readProperty subject name) := by
  refine of_sink fun σ => ?_
  cases subject with
  | object o =>
    simp only [Slots.readProperty]
    split
    · rfl
    · split <;> rfl
  | _ => rfl

theorem writeField (o : Instance) (name : String) (value : Value) :
    AddsOutput (writeField o name value) := of_sink fun _ => rfl

theorem readSuper (method : Name) : AddsOutput (readSuper method) := by
  refine of_sink fun σ => ?_
  simp only [Slots.readSuper]
  split
  · split <;> rfl
  · rfl

theorem print (value : Value) : AddsOutput (print value) := by
  intro σ
  simp only [Slots.print]
  split <;> exact .write _ _

theorem callHost (f : HostRef) (arguments : List Value) (line : Nat) :
    AddsOutput (callHost f arguments line) := by
  refine of_sink fun σ => ?_
  simp only [Slots.callHost]
  split
  · rfl
  · split <;> rfl
  · rfl

/-- Adding to the output is kept by every step of expressions. -/
theorem stepwise : Stepwise AddsOutput where
  pure := pure
  throw := throw
  bind := bind
  liftExcept := liftExcept
  read := read
  write := write
  newObject := newObject
  bindMethod := bindMethod
  readProperty := readProperty
  writeField := writeField
  readSuper := readSuper
  callHost := callHost

theorem callMap (closure : Closure) (arguments : List Value) :
    AddsOutput (callMap closure arguments) := by
  obtain ⟨f, folds⟩ := bindParameters (closure.declaration.parameters.zip arguments)
  refine of_sink fun σ => ?_
  simp only [callMap_eq, folds]
  rfl

theorem callResult (closure : Closure) (completion : Completion) :
    AddsOutput (callResult closure completion) := by
  unfold Slots.callResult
  refine stepwise.ite (of_sink fun σ => ?_) ?_
  · simp only [boundObject]
    split <;> rfl
  · cases completion with
    | returned value => exact pure value
    | normal => exact pure _
    | broke | continued => exact throw _

theorem asSuperclass (value : Value) (line : Nat) : AddsOutput (asSuperclass value line) := by
  unfold Slots.asSuperclass
  split
  · exact pure _
  · exact throw _

theorem makeClass (slot : Option Nat) (name : Name) (superclass : Option ObjectClass)
    (methods : List FunctionDecl) : AddsOutput (makeClass slot name superclass methods) := by
  refine bind (of_sink fun σ => ?_) fun place => bind (of_sink fun σ => rfl) fun cls =>
    fill slot name.text _
  cases superclass <;> rfl

theorem mapInForce : AddsOutput mapInForce := of_sink fun _ => rfl

theorem within {map : Map} (inner : AddsOutput x) : AddsOutput (within map x) := by
  intro σ
  have adds := inner { σ with map, isLocal := true }
  rw [within_eq]
  cases ran : x { σ with map, isLocal := true } with
  | ok a σ' | error e σ' =>
    rw [ran] at adds
    exact adds

end AddsOutput

section Meanings

variable {limit : Nat} {invoke : Closure → List Value → Run Value}
  (functions : ∀ closure arguments, AddsOutput (invoke closure arguments))
include functions

set_option linter.unusedSectionVars false in
mutual

/-- Every statement only adds to what was written. -/
theorem adds_effect (s : Stmt) : AddsOutput (effect limit invoke s) := by
  have value := AddsOutput.stepwise.valueOf functions
  have value? := AddsOutput.stepwise.valueOf? functions
  match s with
  | .expression e => exact .bind (value e) fun _ => .pure _
  | .print e => exact .bind (value e) fun v => .bind (.print v) fun _ => .pure _
  | .var name initializer =>
    exact .bind (.declare _) fun slot => .bind (value? initializer) fun v =>
      .bind (.fill slot _ v) fun _ => .pure _
  | .block body => exact .bind .mapInForce fun map => .within (adds_effectOfAll body)
  | .branch condition yes none =>
    exact .bind (value condition) fun v => AddsOutput.stepwise.ite (adds_effect yes) (.pure _)
  | .branch condition yes (some no) =>
    exact .bind (value condition) fun v =>
      AddsOutput.stepwise.ite (adds_effect yes) (adds_effect no)
  | .loop condition body increment =>
    exact AddsOutput.stepwise.rounds (value condition) (adds_effect body) (value? increment) limit
  | .function d =>
    exact .bind (.declare _) fun slot => .bind (.newFunction d) fun v =>
      .bind (.fill slot _ v) fun _ => .pure _
  | .return _ e => exact .bind (value? e) fun _ => .pure _
  | .break _ | .continue _ => exact .pure _
  | .classDecl name none methods =>
    exact .bind (.declare _) fun slot => .bind (.makeClass slot name none methods) fun _ => .pure _
  | .classDecl name (some superclass) methods =>
    exact .bind (.declare _) fun slot => .bind (.read _) fun v => .bind (.asSuperclass v _)
      fun c => .bind (.makeClass slot name (some c) methods) fun _ => .pure _

theorem adds_effectOfAll (ss : List Stmt) : AddsOutput (effectOfAll limit invoke ss) := by
  match ss with
  | [] => exact .pure _
  | s :: rest =>
    refine .bind (adds_effect s) fun completion => ?_
    cases completion with
    | normal => exact adds_effectOfAll rest
    | broke | continued | returned _ => exact .pure _

end

end Meanings

theorem adds_invokeUpTo (limit : Nat) (closure : Closure) (arguments : List Value) :
    AddsOutput (invokeUpTo limit closure arguments) := by
  induction limit generalizing closure arguments with
  | zero => exact .throw _
  | succ limit ih =>
    refine .bind (.callMap closure arguments) fun map => ?_
    exact .bind (.within (adds_effectOfAll ih _)) fun completion => .callResult closure completion

/-! ## Rules -/

namespace CutShort

variable {α β : Type}

theorem refl (r : EStateM.Result Stop Store α) : CutShort r r := .inl rfl

/-- A run that is cut short where it begins. -/
theorem begins {x : Run α} (adds : AddsOutput x) (σ : Store) :
    CutShort (.error .outOfFuel σ) (x σ) := .inr ⟨σ, rfl, adds σ⟩

/-- A run cut short is cut short with whatever would have come after it. -/
theorem bind {x y : Run α} {f g : α → Run β} {σ : Store} (first : CutShort (x σ) (y σ))
    (adds : ∀ a, AddsOutput (g a))
    (rest : ∀ a σ', x σ = .ok a σ' → CutShort (f a σ') (g a σ')) :
    CutShort ((x >>= f) σ) ((y >>= g) σ) := by
  simp only [Bind.bind, EStateM.bind]
  rcases first with same | ⟨σ', out, onto⟩
  · rw [← same]
    cases ran : x σ with
    | ok a σ' => exact rest a σ' ran
    | error e σ' => exact .refl _
  · rw [out]
    refine .inr ⟨σ', rfl, onto.trans ?_⟩
    cases y σ with
    | ok a σ'' => exact adds a σ''
    | error e σ'' => exact .refl _

theorem restore {r r' : EStateM.Result Stop Store α} (h : CutShort r r') (σ : Store) :
    CutShort (restore σ r) (restore σ r') := by
  rcases h with rfl | ⟨σ', rfl, onto⟩
  · exact .refl _
  · refine .inr ⟨_, rfl, ?_⟩
    cases r' <;> exact onto

end CutShort

namespace Below

variable {α β : Type} {x y : Run α}

theorem refl (adds : AddsOutput x) : Below x x := ⟨adds, adds, fun _ => .refl _⟩

theorem pure (a : α) : Below (Pure.pure a : Run α) (Pure.pure a) := refl (.pure a)

theorem throw (e : Stop) : Below (throw e : Run α) (throw e) := refl (.throw e)

/-- Without fuel a run is cut short at once. -/
theorem outOfFuel (adds : AddsOutput y) : Below (MonadExcept.throw Stop.outOfFuel) y :=
  ⟨.throw _, adds, fun σ => .begins adds σ⟩

theorem bind {f g : α → Run β} (first : Below x y) (rest : ∀ a, Below (f a) (g a)) :
    Below (x >>= f) (y >>= g) where
  adds := first.adds.bind fun a => (rest a).adds
  adds' := first.adds'.bind fun a => (rest a).adds'
  cut σ := (first.cut σ).bind (fun a => (rest a).adds') fun a σ' _ => (rest a).cut σ'

theorem ite {c : Prop} [Decidable c] {x' y' : Run α} (yes : Below x y) (no : Below x' y') :
    Below (if c then x else x') (if c then y else y') := by
  split
  · exact yes
  · exact no

theorem within {map : Map} (inner : Below x y) : Below (within map x) (within map y) where
  adds := inner.adds.within
  adds' := inner.adds'.within
  cut σ := by
    rw [within_eq, within_eq]
    exact (inner.cut _).restore σ

end Below

namespace Reaches

variable {α β : Type} {x : Run α} {y : Nat → Run α}

theorem refl (adds : AddsOutput x) : Reaches x fun _ => x :=
  ⟨fun _ => adds, fun _ => ⟨0, fun _ _ => .refl _⟩⟩

theorem pure (a : α) : Reaches (Pure.pure a : Run α) fun _ => Pure.pure a := refl (.pure a)

theorem throw (e : Stop) : Reaches (throw e : Run α) fun _ => throw e := refl (.throw e)

theorem outOfFuel (adds : ∀ fuel, AddsOutput (y fuel)) :
    Reaches (MonadExcept.throw Stop.outOfFuel) y :=
  ⟨adds, fun σ => ⟨0, fun fuel _ => .begins (adds fuel) σ⟩⟩

/-- A construct costs one unit of fuel. -/
theorem cost (none : AddsOutput (y 0)) (h : Reaches x fun fuel => y (fuel + 1)) : Reaches x y where
  adds fuel := by
    cases fuel with
    | zero => exact none
    | succ fuel => exact h.adds fuel
  cut σ := by
    obtain ⟨enough, cut⟩ := h.cut σ
    refine ⟨enough + 1, fun fuel more => ?_⟩
    obtain ⟨fuel, rfl⟩ : ∃ less, fuel = less + 1 := ⟨fuel - 1, by omega⟩
    exact cut fuel (by omega)

theorem bind {f : α → Run β} {g : Nat → α → Run β} (first : Reaches x y)
    (rest : ∀ a, Reaches (f a) fun fuel => g fuel a) :
    Reaches (x >>= f) fun fuel => y fuel >>= g fuel where
  adds fuel := (first.adds fuel).bind fun a => (rest a).adds fuel
  cut σ := by
    obtain ⟨enough, cut⟩ := first.cut σ
    cases ran : x σ with
    | ok a σ' =>
      obtain ⟨enough', cut'⟩ := (rest a).cut σ'
      refine ⟨max enough enough', fun fuel more => ?_⟩
      refine (cut fuel (by omega)).bind (fun a => (rest a).adds fuel) ?_
      intro a' σ'' ran'
      rw [ran] at ran'
      obtain ⟨rfl, rfl⟩ := ran'
      exact cut' fuel (by omega)
    | error e σ' =>
      refine ⟨enough, fun fuel more => ?_⟩
      refine (cut fuel more).bind (fun a => (rest a).adds fuel) ?_
      intro a σ'' ran'
      rw [ran] at ran'
      cases ran'

theorem ite {c : Prop} [Decidable c] {x' : Run α} {y' : Nat → Run α} (yes : Reaches x y)
    (no : Reaches x' y') :
    Reaches (if c then x else x') fun fuel => if c then y fuel else y' fuel := by
  split
  · exact yes
  · exact no

theorem within {map : Map} (inner : Reaches x y) :
    Reaches (within map x) fun fuel => within map (y fuel) where
  adds fuel := (inner.adds fuel).within
  cut σ := by
    obtain ⟨enough, cut⟩ := inner.cut { σ with map, isLocal := true }
    refine ⟨enough, fun fuel more => ?_⟩
    rw [within_eq, within_eq]
    exact (cut fuel more).restore σ

end Reaches

/-! ## From fuel to limits -/

/-- With some fuel, the evaluators end as the meanings with at least that limit do, or
are cut short. -/
structure BelowAt (fuel : Nat) : Prop where
  evaluate : ∀ {limit}, fuel ≤ limit → ∀ e,
    Below (evaluate fuel e) (valueOf (invokeUpTo limit) e)
  evaluateAll : ∀ {limit}, fuel ≤ limit → ∀ es,
    Below (evaluateAll fuel es) (valuesOf (invokeUpTo limit) es)
  call : ∀ {limit}, fuel ≤ limit → ∀ callee arguments line,
    Below (call fuel callee arguments line) (callWith (invokeUpTo limit) callee arguments line)
  invoke : ∀ {limit}, fuel ≤ limit → ∀ closure arguments,
    Below (invoke fuel closure arguments) (invokeUpTo limit closure arguments)
  execute : ∀ {limit}, fuel ≤ limit → ∀ s,
    Below (execute fuel s) (effect limit (invokeUpTo limit) s)
  evaluate? : ∀ {limit}, fuel ≤ limit → ∀ e,
    Below (evaluate? fuel e) (valueOf? (invokeUpTo limit) e)
  executeAll : ∀ {limit}, fuel ≤ limit → ∀ ss,
    Below (executeAll fuel ss) (effectOfAll limit (invokeUpTo limit) ss)
  executeLoop : ∀ {limit}, fuel ≤ limit → ∀ {count}, fuel ≤ count → ∀ condition body increment,
    Below (executeLoop fuel condition body increment)
      (rounds (valueOf (invokeUpTo limit) condition) (effect limit (invokeUpTo limit) body)
        (valueOf? (invokeUpTo limit) increment) count)

/-- Without fuel, every run is cut short at once. -/
theorem belowAt_zero : BelowAt 0 where
  evaluate _ e := .outOfFuel (AddsOutput.stepwise.valueOf (adds_invokeUpTo _) e)
  evaluateAll {limit} _ es := by
    have adds := AddsOutput.stepwise.valuesOf (adds_invokeUpTo limit) es
    cases es <;> exact .outOfFuel adds
  call _ callee arguments line :=
    .outOfFuel (AddsOutput.stepwise.callWith (adds_invokeUpTo _) callee arguments line)
  invoke _ closure arguments := .outOfFuel (adds_invokeUpTo _ closure arguments)
  execute _ s := .outOfFuel (adds_effect (adds_invokeUpTo _) s)
  evaluate? {limit} _ e := by
    have adds := AddsOutput.stepwise.valueOf? (adds_invokeUpTo limit) e
    cases e <;> exact .outOfFuel adds
  executeAll {limit} _ ss := by
    cases ss <;> exact .outOfFuel (adds_effectOfAll (adds_invokeUpTo limit) _)
  executeLoop _ _ _ condition body increment :=
    .outOfFuel (AddsOutput.stepwise.rounds
      (AddsOutput.stepwise.valueOf (adds_invokeUpTo _) condition)
      (adds_effect (adds_invokeUpTo _) body)
      (AddsOutput.stepwise.valueOf? (adds_invokeUpTo _) increment) _)

section Below

variable {fuel : Nat} (ih : BelowAt fuel)
include ih

/-- With one more fuel, an expression ends as its meaning does, or is cut short. -/
theorem below_evaluate {limit : Nat} (within : fuel + 1 ≤ limit) (e : Expr) :
    Below (evaluate (fuel + 1) e) (valueOf (invokeUpTo limit) e) := by
  have less : fuel ≤ limit := by omega
  have value := ih.evaluate less
  cases e with
  | literal value => exact .pure _
  | group inner => exact value inner
  | unary op line operand => exact .bind (value operand) fun v => .refl (.liftExcept _)
  | binary op line left right =>
    exact .bind (value left) fun a => .bind (value right) fun b => .refl (.liftExcept _)
  | logical op left right => exact .bind (value left) fun a => .ite (.pure a) (value right)
  | «variable» occurrence => exact .refl (.read _)
  | assign target e =>
    exact .bind (value e) fun v => .bind (.refl (.write _ v)) fun _ => .pure v
  | call callee line arguments =>
    refine .bind (value callee) fun f => .bind (ih.evaluateAll less arguments) fun vs => ?_
    exact .bind (.refl (AddsOutput.stepwise.checkCall f vs line)) fun _ => ih.call less f vs line
  | get object name => exact .bind (value object) fun v => .refl (.readProperty v name)
  -- the value is evaluated only if the subject is an object
  | set object name e =>
    refine .bind (value object) fun subject => ?_
    cases subject with
    | object o =>
      exact .bind (value e) fun v => .bind (.refl (.writeField o _ v)) fun _ => .pure v
    | _ => exact .throw _
  | this id line => exact .refl (.read _)
  | super id line method => exact .refl (.readSuper method)

theorem below_call {limit : Nat} (within : fuel + 1 ≤ limit) (callee : Value)
    (arguments : List Value) (line : Nat) : Below (call (fuel + 1) callee arguments line)
      (callWith (invokeUpTo limit) callee arguments line) := by
  have less : fuel ≤ limit := by omega
  have invoke := ih.invoke less
  cases callee with
  | host f => exact .refl (.callHost f arguments line)
  | function id closure => exact invoke closure arguments
  | cls c =>
    simp only [call, callWith]
    refine .bind (.refl (.newObject c)) fun o => ?_
    cases c.method? initializerName with
    | none => exact .pure _
    | some initializer =>
      refine .bind (.refl (.bindMethod initializer o)) fun bound => ?_
      exact .bind (invoke bound arguments) fun _ => .pure _
  | _ => exact .throw _

theorem below_invoke {limit : Nat} (within : fuel + 1 ≤ limit) (closure : Closure)
    (arguments : List Value) :
    Below (invoke (fuel + 1) closure arguments) (invokeUpTo limit closure arguments) := by
  obtain ⟨limit, rfl⟩ : ∃ less, limit = less + 1 := ⟨limit - 1, by omega⟩
  refine .bind (.refl (.callMap closure arguments)) fun map => ?_
  refine .bind (.within (ih.executeAll (by omega) _)) fun completion => ?_
  exact .refl (.callResult closure completion)

/-- With one more fuel, a statement ends as its effect does, or is cut short. -/
theorem below_execute {limit : Nat} (within : fuel + 1 ≤ limit) (s : Stmt) :
    Below (execute (fuel + 1) s) (effect limit (invokeUpTo limit) s) := by
  have less : fuel ≤ limit := by omega
  have value := ih.evaluate less
  have value? := ih.evaluate? less
  cases s with
  | expression e => exact .bind (value e) fun _ => .pure _
  | print e => exact .bind (value e) fun v => .bind (.refl (.print v)) fun _ => .pure _
  | var name initializer =>
    exact .bind (.refl (.declare _)) fun slot => .bind (value? initializer) fun v =>
      .bind (.refl (.fill slot _ v)) fun _ => .pure _
  | block body =>
    exact .bind (.refl .mapInForce) fun map => .within (ih.executeAll less body)
  | branch condition yes no =>
    cases no with
    | none => exact .bind (value condition) fun v => .ite (ih.execute less yes) (.pure _)
    | some no =>
      exact .bind (value condition) fun v => .ite (ih.execute less yes) (ih.execute less no)
  | loop condition body increment => exact ih.executeLoop less less condition body increment
  | function d =>
    exact .bind (.refl (.declare _)) fun slot => .bind (.refl (.newFunction d)) fun v =>
      .bind (.refl (.fill slot _ v)) fun _ => .pure _
  | «return» line e => exact .bind (value? e) fun _ => .pure _
  | «break» | «continue» => exact .pure _
  | classDecl name superclass methods =>
    cases superclass with
    | none =>
      exact .bind (.refl (.declare _)) fun slot =>
        .bind (.refl (.makeClass slot name none methods)) fun _ => .pure _
    | some superclass =>
      exact .bind (.refl (.declare _)) fun slot => .bind (value (.variable superclass)) fun v =>
        .bind (.refl (.asSuperclass v _)) fun c =>
          .bind (.refl (.makeClass slot name (some c) methods)) fun _ => .pure _

/-- A loop with fuel ends as rounds with at least that count do, or is cut short. -/
theorem below_executeLoop {limit : Nat} (within : fuel + 1 ≤ limit) {count : Nat}
    (rounds : fuel + 1 ≤ count) (condition : Expr) (body : Stmt) (increment : Option Expr) :
    Below (executeLoop (fuel + 1) condition body increment)
      (Slots.rounds (valueOf (invokeUpTo limit) condition)
        (effect limit (invokeUpTo limit) body) (valueOf? (invokeUpTo limit) increment) count) := by
  have less : fuel ≤ limit := by omega
  obtain ⟨count, rfl⟩ : ∃ less, count = less + 1 := ⟨count - 1, by omega⟩
  have fewer : fuel ≤ count := by omega
  have again := ih.executeLoop less fewer condition body increment
  refine .bind (ih.evaluate less condition) fun v => .ite ?_ (.pure _)
  refine .bind (ih.execute less body) fun completion => ?_
  cases completion with
  | normal | continued => exact .bind (ih.evaluate? less increment) fun _ => again
  | broke => exact .pure _
  | returned value => exact .pure _

end Below

/-- At every fuel, the evaluators end as the meanings with at least that limit do, or are cut
short. -/
theorem belowAt (fuel : Nat) : BelowAt fuel := by
  induction fuel with
  | zero => exact belowAt_zero
  | succ fuel ih =>
    exact {
      evaluate := below_evaluate ih
      call := below_call ih
      invoke := below_invoke ih
      execute := below_execute ih
      executeLoop := below_executeLoop ih
      evaluateAll := fun within es => by
        cases es with
        | nil => exact .pure _
        | cons e rest =>
          exact .bind (ih.evaluate (by omega) e) fun v =>
            .bind (ih.evaluateAll (by omega) rest) fun vs => .pure _
      evaluate? := fun within e => by
        cases e with
        | none => exact .pure _
        | some e => exact ih.evaluate (by omega) e
      executeAll := fun within ss => by
        cases ss with
        | nil => exact .pure _
        | cons s rest =>
          refine .bind (ih.execute (by omega) s) fun completion => ?_
          cases completion with
          -- what comes after a jump is not run on either side
          | normal => exact ih.executeAll (by omega) rest
          | broke | continued | returned _ => exact .pure _ }

/-- A program run with fuel ends as its effect at that limit does, or is cut short. -/
theorem below_runProgram (fuel : Nat) (program : Program) :
    Below (runProgram fuel program) (effectOfProgram fuel program) := by
  induction program with
  | nil => exact .pure _
  | cons s rest ih =>
    refine .bind ((belowAt fuel).execute (Nat.le_refl _) s) fun completion => ?_
    cases completion with
    | normal => exact ih
    | broke | continued | returned _ => exact .throw _

/-! ## From limits to fuel -/

section Reaches

variable {limit : Nat} (functions : ∀ closure arguments,
  Reaches (invokeUpTo limit closure arguments) fun fuel => invoke fuel closure arguments)
include functions

theorem reaches_callWith (callee : Value) (arguments : List Value) (line : Nat) :
    Reaches (callWith (invokeUpTo limit) callee arguments line)
      fun fuel => call fuel callee arguments line := by
  refine .cost (.throw _) ?_
  cases callee with
  | host f => exact .refl (.callHost f arguments line)
  | function id closure => exact functions closure arguments
  | cls c =>
    simp only [call, callWith]
    refine .bind (.refl (.newObject c)) fun o => ?_
    cases c.method? initializerName with
    | none => exact .pure _
    | some initializer =>
      refine .bind (.refl (.bindMethod initializer o)) fun bound => ?_
      exact .bind (functions bound arguments) fun _ => .pure _
  | _ => exact .throw _

set_option linter.unusedSectionVars false in
mutual

/-- Every value of an expression is reached with enough fuel. -/
theorem reaches_valueOf (e : Expr) :
    Reaches (valueOf (invokeUpTo limit) e) fun fuel => evaluate fuel e := by
  refine .cost (.throw _) ?_
  -- the induction is on the expression; each part is reached from some fuel on
  match e with
  | .literal value => exact .pure _
  | .group inner => exact reaches_valueOf inner
  | .unary op line operand =>
    exact .bind (reaches_valueOf operand) fun v => .refl (.liftExcept _)
  | .binary op line left right =>
    exact .bind (reaches_valueOf left) fun a => .bind (reaches_valueOf right) fun b =>
      .refl (.liftExcept _)
  | .logical op left right =>
    exact .bind (reaches_valueOf left) fun a => .ite (.pure a) (reaches_valueOf right)
  | .variable occurrence => exact .refl (.read _)
  | .assign target e =>
    exact .bind (reaches_valueOf e) fun v => .bind (.refl (.write _ v)) fun _ => .pure v
  | .call callee line arguments =>
    refine .bind (reaches_valueOf callee) fun f => ?_
    refine .bind (reaches_valuesOf arguments) fun vs => ?_
    exact .bind (.refl (AddsOutput.stepwise.checkCall f vs line)) fun _ =>
      reaches_callWith functions f vs line
  | .get object name => exact .bind (reaches_valueOf object) fun v => .refl (.readProperty v name)
  | .set object name e =>
    refine .bind (reaches_valueOf object) fun subject => ?_
    cases subject with
    | object o =>
      exact .bind (reaches_valueOf e) fun v => .bind (.refl (.writeField o _ v)) fun _ => .pure v
    | _ => exact .throw _
  | .this id line => exact .refl (.read _)
  | .super id line method => exact .refl (.readSuper method)

theorem reaches_valuesOf (es : List Expr) :
    Reaches (valuesOf (invokeUpTo limit) es) fun fuel => evaluateAll fuel es := by
  match es with
  | [] => exact .cost (.throw _) (.pure _)
  | e :: rest =>
    refine .cost (.throw _) ?_
    exact .bind (reaches_valueOf e) fun v => .bind (reaches_valuesOf rest) fun vs => .pure _

end

theorem reaches_valueOf? (e : Option Expr) :
    Reaches (valueOf? (invokeUpTo limit) e) fun fuel => evaluate? fuel e := by
  refine .cost (by cases e <;> exact .throw _) ?_
  cases e with
  | none => exact .pure _
  | some e => exact reaches_valueOf functions e

set_option linter.unusedSectionVars false in
mutual

/-- Every effect of a statement is reached with enough fuel. -/
theorem reaches_effect (s : Stmt) :
    Reaches (effect limit (invokeUpTo limit) s) fun fuel => execute fuel s := by
  have value := reaches_valueOf functions
  have value? := reaches_valueOf? functions
  refine .cost (.throw _) ?_
  -- calls are reached at the smaller limit, so the induction is on the statement alone
  match s with
  | .expression e => exact .bind (value e) fun _ => .pure _
  | .print e => exact .bind (value e) fun v => .bind (.refl (.print v)) fun _ => .pure _
  | .var name initializer =>
    exact .bind (.refl (.declare _)) fun slot => .bind (value? initializer) fun v =>
      .bind (.refl (.fill slot _ v)) fun _ => .pure _
  | .block body =>
    exact .bind (.refl .mapInForce) fun map => .within (reaches_effectOfAll body)
  | .branch condition yes none =>
    exact .bind (value condition) fun v => .ite (reaches_effect yes) (.pure _)
  | .branch condition yes (some no) =>
    exact .bind (value condition) fun v => .ite (reaches_effect yes) (reaches_effect no)
  | .loop condition body increment => exact reaches_loop condition body increment limit
  | .function d =>
    exact .bind (.refl (.declare _)) fun slot => .bind (.refl (.newFunction d)) fun v =>
      .bind (.refl (.fill slot _ v)) fun _ => .pure _
  | .return _ e => exact .bind (value? e) fun _ => .pure _
  | .break _ | .continue _ => exact .pure _
  | .classDecl name none methods =>
    exact .bind (.refl (.declare _)) fun slot =>
      .bind (.refl (.makeClass slot name none methods)) fun _ => .pure _
  | .classDecl name (some superclass) methods =>
    exact .bind (.refl (.declare _)) fun slot => .bind (value (.variable superclass)) fun v =>
      .bind (.refl (.asSuperclass v _)) fun c =>
        .bind (.refl (.makeClass slot name (some c) methods)) fun _ => .pure _

theorem reaches_effectOfAll (ss : List Stmt) :
    Reaches (effectOfAll limit (invokeUpTo limit) ss) fun fuel => executeAll fuel ss := by
  match ss with
  | [] => exact .cost (.throw _) (.pure _)
  | s :: rest =>
    refine .cost (.throw _) (.bind (reaches_effect s) fun completion => ?_)
    cases completion with
    | normal => exact reaches_effectOfAll rest
    | broke | continued | returned _ => exact .pure _

/-- The rounds of a loop, by their number. -/
theorem reaches_loop (condition : Expr) (body : Stmt) (increment : Option Expr) (count : Nat) :
    Reaches (rounds (valueOf (invokeUpTo limit) condition)
        (effect limit (invokeUpTo limit) body) (valueOf? (invokeUpTo limit) increment) count)
      fun fuel => executeLoop fuel condition body increment := by
  have inner := reaches_effect body
  induction count with
  | zero =>
    exact .outOfFuel fun fuel => ((belowAt fuel).executeLoop (Nat.le_refl _) (Nat.le_refl _)
      condition body increment).adds
  | succ count ih =>
    refine .cost (.throw _) ?_
    refine .bind (reaches_valueOf functions condition) fun v => .ite ?_ (.pure _)
    refine .bind inner fun completion => ?_
    cases completion with
    | normal | continued => exact .bind (reaches_valueOf? functions increment) fun _ => ih
    | broke => exact .pure _
    | returned value => exact .pure _

end

end Reaches

/-- What calls nested up to a limit give is reached with enough fuel. -/
theorem reaches_invokeUpTo (limit : Nat) (closure : Closure) (arguments : List Value) :
    Reaches (invokeUpTo limit closure arguments) fun fuel => invoke fuel closure arguments := by
  induction limit generalizing closure arguments with
  | zero =>
    exact .outOfFuel fun fuel =>
      ((belowAt fuel).invoke (Nat.le_refl _) closure arguments).adds
  | succ limit ih =>
    refine .cost (.throw _) (.bind (.refl (.callMap closure arguments)) fun map => ?_)
    exact .bind (.within (reaches_effectOfAll ih _)) fun completion =>
      .refl (.callResult closure completion)

/-- What a program does at a limit is reached with enough fuel. -/
theorem reaches_runProgram (limit : Nat) (program : Program) :
    Reaches (effectOfProgram limit program) fun fuel => runProgram fuel program := by
  induction program with
  | nil => exact .pure _
  | cons s rest ih =>
    refine .bind (reaches_effect (reaches_invokeUpTo limit) s) fun completion => ?_
    cases completion with
    | normal => exact ih
    | broke | continued | returned _ => exact .throw _

end ClassScript.Slots
