import ClassScript.Proofs.Machine.Receivers

/-!
# Steps on traced values

Every step of a run, from a machine on that holds traced values only, leads to another such
machine, keeps what the reserved names are bound to, and gives something traced (`Tells`).
Where it makes a function, it is told what for: which code declares it, or that a method was
bound.
-/

namespace ClassScript.Machine

open Syntax Parsing Object Binding

/-- From a machine on, a computation goes on to a machine that holds traced values, however
it ends, and what it gives is of the stated kind. -/
structure Tells {α : Type} (H : History) (m : State) (x : Run α) (good : α → Prop) : Prop where
  ok : ∀ a m', x m = .ok a m' → H.Goes m m' ∧ good a
  error : ∀ e m', x m = .error e m' → H.Goes m m'

variable {H : History} {m m' : State}

namespace Tells

variable {α : Type} {good : α → Prop}

theorem of_ok {x : Run α} {a : α} (h : x m = .ok a m') (goes : H.Goes m m') (holds : good a) :
    Tells H m x good where
  ok a' m'' same := by
    rw [h] at same
    cases same
    exact ⟨goes, holds⟩
  error e m'' same := by
    rw [h] at same
    cases same

theorem of_error {x : Run α} {e : Stop} (h : x m = .error e m') (goes : H.Goes m m') :
    Tells H m x good where
  ok a' m'' same := by
    rw [h] at same
    cases same
  error e' m'' same := by
    rw [h] at same
    cases same
    exact goes

theorem congr {x y : Run α} (same : x m = y m) (h : Tells H m y good) : Tells H m x good where
  ok a m' result := h.ok a m' (same ▸ result)
  error e m' result := h.error e m' (same ▸ result)

end Tells

section Steps

variable (stored : H.Stored m)
include stored

/-- A result that does not touch the machine. -/
theorem tells_liftExcept {α : Type} {r : Except Fault α} {good : α → Prop}
    (holds : ∀ a, r = .ok a → good a) : Tells H m (liftExcept r) good := by
  cases r with
  | ok a => exact .of_ok rfl (.stay stored) (holds a rfl)
  | error fault => exact .of_error rfl (.stay stored)

theorem tells_stop {α : Type} {good : α → Prop} (fault : Fault) :
    Tells H m (stop fault : Run α) good :=
  .of_error rfl (.stay stored)

/-- Operators give data. -/
theorem tells_givesData {r : Except Fault Value} (gives : GivesData r) :
    Tells H m (liftExcept r) H.Traced := by
  refine tells_liftExcept stored ?_
  rintro v rfl
  exact IsData.traced gives

/-! ## Variables -/

/-- What is read by hops is traced, since all that is stored is. -/
theorem traced_of_getAt {hops : Nat} {id : ScopeId} {name : String} {value : Value}
    (read : m.scopes.getAt hops id name = .ok value) : H.Traced value := by
  obtain ⟨scope, -, bound⟩ := Scopes.own?_of_getAt read
  exact stored.bound _ _ _ bound

/-- A variable has a traced value. -/
theorem tells_readVariable (id : NodeId) (name : Name) :
    Tells H m (readVariable id name) H.Traced := by
  rcases readVariable_cases id name m with ⟨scope, value, bound, out⟩ | ⟨fault, out⟩
  · exact .of_ok out (.stay stored) (stored.bound _ _ _ bound)
  · exact .of_error out (.stay stored)

/-- An assignment stores a traced value, and binds no receiver. -/
theorem tells_writeVariable {target : Occurrence} (plain : target.name.text ∉ reserved)
    {value : Value} (traced : H.Traced value) :
    Tells H m (writeVariable target value) fun _ => True := by
  rcases writeVariable_cases target value m with ⟨owner, out⟩ | ⟨fault, out⟩
  · exact .of_ok out (.definePlain stored owner plain traced) trivial
  · exact .of_error out (.stay stored)

theorem tells_define {name : String} (plain : name ∉ reserved) {value : Value}
    (traced : H.Traced value) : Tells H m (define name value) fun _ => True :=
  .of_ok rfl (.definePlain stored m.current plain traced) trivial

theorem tells_assign {name : Name} (plain : name.text ∉ reserved) {value : Value}
    (traced : H.Traced value) : Tells H m (assign name value) fun _ => True := by
  rcases assign_cases name value m with ⟨owner, out⟩ | out
  · exact .of_ok out (.definePlain stored owner plain traced) trivial
  · exact .of_error out (.stay stored)

/-! ## Functions and methods -/

/-- A function is declared where its code stands. -/
theorem tells_newFunction {d : FunctionDecl} {f : Visit} {receiver : Option Receiver}
    (code : f.node = .function d) (stands : H.Stands f m.current (.code receiver)) :
    Tells H m (newFunction d) H.Traced :=
  .of_ok rfl (.of_eq stored rfl rfl rfl rfl) ⟨f, receiver, code, stands⟩

theorem tells_newObject {cls : ObjectClass} (traced : H.OfClass cls) :
    Tells H m (newObject cls) fun o => (m.newObject cls).1 = o ∧ H.OfClass o.cls :=
  .of_ok rfl (.newObject stored cls) ⟨rfl, traced⟩

/-- A bound method has a new scope, which binds `this`. -/
theorem goes_bindMethod (method : Closure) {o : Instance} (object : H.OfClass o.cls) :
    H.Goes m (m.bindMethod method o).2 := by
  have grown : H.Goes m (m.pushScope (some method.scope)).2 := .pushScope stored _
  have receiver : H.Traced (.object o) := object
  exact grown.defineNew (Nat.le_refl _) "this" receiver

theorem tells_bindMethod {method : Closure} {o : Instance} (declared : H.OfMethod method)
    (object : H.OfClass o.cls) (binds : H.Binds method o m.scopes.size) :
    Tells H m (bindMethod method o) H.OfFunction :=
  .of_ok rfl (goes_bindMethod stored method object) (declared.bind binds)

theorem tells_methodValue {method : Closure} {o : Instance} (declared : H.OfMethod method)
    (object : H.OfClass o.cls) (binds : H.Binds method o m.scopes.size) :
    Tells H m (methodValue method o) H.Traced := by
  have bound := goes_bindMethod stored method object
  exact .of_ok rfl (bound.trans (.of_eq bound.stored rfl rfl rfl rfl)) (declared.bind binds)

/-- A property is stored, or a method that is bound to the object that it was read of. -/
theorem tells_readProperty {subject : Value} {name : Name} (traced : H.Traced subject)
    (binds : ∀ o method, subject = .object o → m.field? o name.text = none →
      o.cls.method? name.text = some method → H.Binds method o m.scopes.size) :
    Tells H m (readProperty subject name) H.Traced := by
  rcases readProperty_cases subject name m with
    ⟨o, value, rfl, field, out⟩ | ⟨o, method, rfl, field, found, out⟩ | ⟨fault, -, out⟩
  · obtain ⟨fields, found, set⟩ := Option.bind_eq_some_iff.mp field
    exact .of_ok out (.stay stored) (stored.field _ _ _ _ found set)
  · exact (tells_methodValue stored (traced _ _ found) traced
      (binds o method rfl field found)).congr out
  · exact .of_error out (.stay stored)

theorem tells_writeField (o : Instance) (name : String) {value : Value}
    (traced : H.Traced value) : Tells H m (writeField o name value) fun _ => True :=
  .of_ok rfl (.setField stored o name traced) trivial

/-- A method of a superclass is bound to the receiver at hand. -/
theorem tells_readSuper {id : NodeId} {name : Name}
    (binds : ∀ o method, readSuper id name m = methodValue method o m →
      H.Binds method o m.scopes.size) :
    Tells H m (readSuper id name) H.Traced := by
  rcases readSuper_cases id name m with
    ⟨hops, superclass, o, method, parent, receiver, found, read⟩ | ⟨fault, read⟩
  · have out := read m (.refl m)
    have methods : H.OfClass superclass := traced_of_getAt stored parent
    have object : H.OfClass o.cls := traced_of_getAt stored receiver
    exact (tells_methodValue stored (methods _ _ found) object (binds o method out)).congr out
  · exact .of_error (read m (.refl m)) (.stay stored)

/-! ## Output and calls -/

theorem tells_print (value : Value) : Tells H m (print value) fun _ => True := by
  obtain ⟨sink, out | out⟩ := print_cases value m
  · exact .of_ok out (.of_eq stored rfl rfl rfl rfl) trivial
  · exact .of_error out (.of_eq stored rfl rfl rfl rfl)

theorem tells_callHost (f : HostRef) (arguments : List Value) (line : Nat) :
    Tells H m (callHost f arguments line) H.Traced := by
  rcases callHost_cases stored.hosts f arguments line with ⟨reading, clock, out⟩ | out
  · exact .of_ok out (.of_eq stored rfl rfl rfl rfl) trivial
  · exact .of_error out (.stay stored)

theorem tells_checkCall (f : Value) (vs : List Value) (line : Nat) :
    Tells H m (checkCall f vs line) fun _ => True := by
  rcases checkCall_cases f vs line m with ⟨arity, -, -, out⟩ | ⟨fault, -, out⟩
  · exact .of_ok out (.stay stored) trivial
  · exact .of_error out (.stay stored)

theorem tells_innerScope : Tells H m innerScope fun scope => scope = m.scopes.size :=
  .of_ok rfl (.pushScope stored _) rfl

/-- The scope of a call binds the arguments. -/
theorem tells_callScope {closure : Closure} {arguments : List Value}
    (values : ∀ v ∈ arguments, H.Traced v) :
    Tells H m (callScope closure arguments) fun scope => scope = m.scopes.size := by
  have grown : H.Goes m (m.pushScope (some closure.scope)).2 := .pushScope stored _
  refine .of_ok (callScope_eq ..) (.bindAll (Nat.le_refl _) ?_ grown) rfl
  intro b inside
  obtain ⟨-, argument⟩ := List.of_mem_zip inside
  exact values b.2 argument

/-- A call gives what its body returned, or the receiver of an initializer. -/
theorem tells_callResult (closure : Closure) {completion : Completion}
    (returned : ∀ v, completion = .returned v → H.Traced v) :
    Tells H m (callResult closure completion) H.Traced := by
  unfold callResult
  split
  · refine .congr (y := liftExcept (m.scopes.getAt 0 closure.scope "this")) rfl ?_
    exact tells_liftExcept stored fun v read => traced_of_getAt stored read
  · cases completion with
    | normal => exact .of_ok rfl (.stay stored) trivial
    | returned v => exact .of_ok rfl (.stay stored) (returned v rfl)
    | broke => exact .of_error rfl (.stay stored)
    | continued => exact .of_error rfl (.stay stored)

/-! ## Classes -/

theorem tells_asSuperclass {value : Value} (line : Nat) (traced : H.Traced value) :
    Tells H m (asSuperclass value line) fun c => value = .cls c ∧ H.OfClass c := by
  cases value with
  | cls c => exact .of_ok rfl (.stay stored) ⟨rfl, traced⟩
  | _ => exact .of_error rfl (.stay stored)

/-- The scope of a class's methods. -/
theorem tells_classScope {superclass : Option ObjectClass}
    (traced : ∀ c ∈ superclass, H.OfClass c) :
    Tells H m (classScope superclass) fun scope =>
      scope = if superclass.isSome then m.scopes.size else m.current := by
  cases superclass with
  | none => exact .of_ok rfl (.stay stored) rfl
  | some c =>
    have grown : H.Goes m (m.pushScope (some m.current)).2 := .pushScope stored _
    have parent : H.Traced (.cls c) := traced c rfl
    exact .of_ok rfl (grown.defineNew (Nat.le_refl _) "super" parent) rfl

/-- A class has the declared methods, and those of the class above. -/
theorem tells_newClass (name : String) {superclass : Option ObjectClass}
    {ds : List FunctionDecl} {scope : ScopeId}
    (declared : ∀ d ∈ ds, ∀ isInitializer, H.OfMethod ⟨d, scope, isInitializer⟩)
    (traced : ∀ c ∈ superclass, H.OfClass c) :
    Tells H m (newClass name superclass (methodTable scope ds)) H.OfClass := by
  refine .of_ok rfl (.of_eq stored rfl rfl rfl rfl) ?_
  intro text method found
  have own (found : (methodTable scope ds)[text]? = some method) : H.OfMethod method := by
    obtain ⟨d, among, rfl⟩ := mem_of_methodTable found
    exact declared d among _
  cases superclass with
  | none => exact own found
  | some superclass =>
    -- a method that the class does not have itself is the superclass's
    unfold ObjectClass.method? at found
    split at found
    · next method' there =>
      cases found
      exact own there
    · exact traced superclass rfl text method found

end Steps

end ClassScript.Machine
