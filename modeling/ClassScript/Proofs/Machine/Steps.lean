import ClassScript.Machine.Evaluate
import ClassScript.Proofs.Machine.Heap

/-!
# What the steps of a machine come to

A step that reads or writes what may be missing comes to one of a few results. They are
listed here for each such step, with what holds of the machine where it has the result and
with the machine after it. So what a step preserves is shown for each result, and does not
depend on how the step finds out which of them it has.
-/

namespace ClassScript.Machine

open Syntax Object

/-! ## Variables -/

section Variables

variable {m : State}

/-- A variable with hops is read from the scope that they lead to. -/
theorem readVariable_local {id : NodeId} {depth : Nat}
    (h : m.locals.depth? id = some depth) (name : Name) :
    readVariable id name m = liftExcept (m.scopes.getAt depth m.current name.text) m := by
  unfold readVariable
  rw [h]

/-- A variable without hops is looked for among the globals. -/
theorem readVariable_global {id : NodeId} (h : m.locals.depth? id = none) (name : Name) :
    readVariable id name m = liftExcept (m.scopes.get m.globals name.text name.line) m := by
  unfold readVariable
  rw [h]

/-- A variable that has a value is bound to it in some scope. -/
theorem readVariable_cases (id : NodeId) (name : Name) (m : State) :
    (∃ scope value, m.scopes.own? scope name.text = some value ∧
      readVariable id name m = .ok value m) ∨
    ∃ fault, readVariable id name m = .error (.fault fault) m := by
  -- a read goes by the table or from the globals, and leaves the machine as it is
  cases depth : m.locals.depth? id with
  | some hops =>
    rw [readVariable_local depth]
    cases read : m.scopes.getAt hops m.current name.text with
    | ok value =>
      obtain ⟨scope, -, bound⟩ := Scopes.own?_of_getAt read
      exact .inl ⟨scope, value, bound, rfl⟩
    | error fault => exact .inr ⟨fault, rfl⟩
  | none =>
    rw [readVariable_global depth]
    cases read : m.scopes.get m.globals name.text name.line with
    | ok value =>
      obtain ⟨scope, bound⟩ := Scopes.own?_of_get read
      exact .inl ⟨scope, value, bound, rfl⟩
    | error fault => exact .inr ⟨fault, rfl⟩

/-- A write binds the name in one scope, or else nothing changes. -/
theorem writeVariable_cases (target : Occurrence) (value : Value) (m : State) :
    (∃ owner, writeVariable target value m = .ok () (m.define owner target.name.text value)) ∨
    ∃ fault, writeVariable target value m = .error (.fault fault) m := by
  unfold writeVariable
  cases writeTarget m target with
  | ok owner => exact .inl ⟨owner, rfl⟩
  | error fault => exact .inr ⟨fault, rfl⟩

/-- An assignment through all scopes writes to the scope that has the name, if there is one. -/
theorem assign_cases (name : Name) (value : Value) (m : State) :
    (∃ owner, assign name value m = .ok () (m.define owner name.text value)) ∨
    assign name value m = .error (.fault (.undefinedVariable name.text name.line)) m := by
  unfold assign Scopes.target
  cases m.scopes.owner? m.current name.text with
  | some owner => exact .inl ⟨owner, rfl⟩
  | none => exact .inr rfl

end Variables

/-! ## Properties and methods -/

/-- A property is a field, or else a method that is bound, or else missing. -/
theorem readProperty_cases (subject : Value) (name : Name) (m : State) :
    (∃ o value, subject = .object o ∧ m.field? o name.text = some value ∧
      readProperty subject name m = .ok value m) ∨
    (∃ o method, subject = .object o ∧ m.field? o name.text = none ∧
      o.cls.method? name.text = some method ∧
      readProperty subject name m = methodValue method o m) ∨
    ∃ fault, (∀ cause, fault ≠ .internal cause) ∧
      readProperty subject name m = .error (.fault fault) m := by
  cases subject with
  | object o =>
    -- fields shadow methods
    cases field : m.field? o name.text with
    | some value => exact .inl ⟨o, value, rfl, field, by simp only [readProperty, field]⟩
    | none =>
      cases found : o.cls.method? name.text with
      | some method =>
        exact .inr (.inl ⟨o, method, rfl, field, found, by simp only [readProperty, field, found]⟩)
      | none =>
        refine .inr (.inr ⟨.undefinedProperty name.text name.line, fun _ => nofun, ?_⟩)
        simp only [readProperty, field, found]
  | _ => exact .inr (.inr ⟨.noProperties name.line, fun _ => nofun, rfl⟩)

/-- The machines have the same scopes, and stand in the same one with the same table. -/
structure Alike (m m' : State) : Prop where
  locals : m'.locals = m.locals
  scopes : m'.scopes = m.scopes
  current : m'.current = m.current

theorem Alike.refl (m : State) : Alike m m := ⟨rfl, rfl, rfl⟩

/-- A method of the class that `super` is gets bound to the object that `this` is, or else it
is missing, and only the scopes count for which it is. -/
theorem readSuper_cases (id : NodeId) (name : Name) (m : State) :
    (∃ hops c o method, m.scopes.getAt (hops + 1) m.current "super" = .ok (.cls c) ∧
      m.scopes.getAt hops m.current "this" = .ok (.object o) ∧
      c.method? name.text = some method ∧
      ∀ m', Alike m m' → readSuper id name m' = methodValue method o m') ∨
    ∃ fault, ∀ m', Alike m m' → readSuper id name m' = .error (.fault fault) m' := by
  -- the order of the checks is that of the read, each one deciding the fault
  cases depth : m.locals.depth? id with
  | none =>
    refine .inr ⟨.internal .unresolvedSuper, fun m' alike => ?_⟩
    simp only [readSuper, alike.locals, depth]
  | some hops =>
    cases parent : m.scopes.getAt hops m.current "super" with
    | error fault =>
      refine .inr ⟨fault, fun m' alike => ?_⟩
      simp only [readSuper, alike.locals, alike.scopes, alike.current, depth, parent]
    | ok value =>
      cases value with
      | cls superclass =>
        cases hops with
        | zero =>
          refine .inr ⟨.internal .superWithoutThis, fun m' alike => ?_⟩
          simp only [readSuper, alike.locals, alike.scopes, alike.current, depth, parent]
        | succ inner =>
          cases receiver : m.scopes.getAt inner m.current "this" with
          | error fault =>
            refine .inr ⟨fault, fun m' alike => ?_⟩
            simp only [readSuper, alike.locals, alike.scopes, alike.current, depth, parent,
              receiver]
          | ok value =>
            cases value with
            | object o =>
              cases found : superclass.method? name.text with
              | some method =>
                refine .inl ⟨inner, superclass, o, method, parent, receiver, found, ?_⟩
                intro m' alike
                simp only [readSuper, alike.locals, alike.scopes, alike.current, depth, parent,
                  receiver, found]
              | none =>
                refine .inr ⟨.undefinedProperty name.text name.line, fun m' alike => ?_⟩
                simp only [readSuper, alike.locals, alike.scopes, alike.current, depth, parent,
                  receiver, found]
            | _ =>
              refine .inr ⟨.internal .thisNotObject, fun m' alike => ?_⟩
              simp only [readSuper, alike.locals, alike.scopes, alike.current, depth, parent,
                receiver]
      | _ =>
        refine .inr ⟨.internal .superNotClass, fun m' alike => ?_⟩
        simp only [readSuper, alike.locals, alike.scopes, alike.current, depth, parent]

/-! ## Output and calls -/

/-- A print goes on or stops, as all that is printed fits or not. -/
theorem print_cases (value : Value) (m : State) : ∃ sink,
    print value m = .ok () { m with sink } ∨
      print value m = .error (.fault .output) { m with sink } := by
  refine ⟨(m.sink.write (value.display ++ "\n").toUTF8).2, ?_⟩
  simp only [print]
  split
  · exact .inl rfl
  · exact .inr rfl

/-- Where the host has no function but the clock, a call of a host function gives a number. -/
theorem callHost_cases {m : State} (clocks : ∀ action ∈ m.hosts, action = .clock) (f : HostRef)
    (arguments : List Value) (line : Nat) :
    (∃ reading clock, callHost f arguments line m = .ok (.number reading) { m with clock }) ∨
      callHost f arguments line m = .error (.fault (.notCallable line)) m := by
  cases found : m.hosts[f.id]? with
  | none => exact .inr (by simp only [callHost, found])
  | some action =>
    obtain rfl : action = .clock := clocks action (Array.mem_of_getElem? found)
    let clock : Clock := { m.clock with taken := m.clock.taken + 1 }
    exact .inl ⟨m.clock.readings m.clock.taken, clock, by simp only [callHost, found, clock]⟩

/-- The check of a call does nothing but stop it where the callee does not take that many
arguments. -/
theorem checkCall_cases (f : Value) (arguments : List Value) (line : Nat) (m : State) :
    (∃ arity, f.arity? = some arity ∧ arguments.length = arity ∧
      checkCall f arguments line m = .ok () m) ∨
    ∃ fault, (∀ cause, fault ≠ .internal cause) ∧
      checkCall f arguments line m = .error (.fault fault) m := by
  unfold checkCall
  cases found : f.arity? with
  | none => exact .inr ⟨.notCallable line, fun _ => nofun, rfl⟩
  | some arity =>
    dsimp only
    split
    · next enough => exact .inl ⟨arity, rfl, enough, rfl⟩
    · exact .inr ⟨.arityMismatch arity arguments.length line, fun _ => nofun, rfl⟩

end ClassScript.Machine
