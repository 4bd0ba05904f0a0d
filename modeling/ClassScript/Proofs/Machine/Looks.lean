import ClassScript.Proofs.Machine.Safe

/-!
# Values that look the same

What a program can see of a value by operators, by calls and by printing: functions,
classes and objects show their identity, their name and the number of their parameters,
and nothing of their code. Operators give the same on values that look the same.
-/

namespace ClassScript.Machine

open Syntax Object

/-- Values that look the same to a program. -/
inductive Looks : Value → Value → Prop
  | data {v : Value} (data : IsData v) : Looks v v
  | host (f : HostRef) : Looks (.host f) (.host f)
  | function (id : ObjectId) {c d : Closure} (name : d.name = c.name) (arity : d.arity = c.arity) :
      Looks (.function id c) (.function id d)
  | cls {c d : ObjectClass} (id : d.id = c.id) (name : d.name = c.name)
      (arity : d.arity = c.arity) : Looks (.cls c) (.cls d)
  | object (id : ObjectId) {c d : ObjectClass} (name : d.name = c.name) :
      Looks (.object ⟨id, c⟩) (.object ⟨id, d⟩)

namespace Looks

variable {v w v' w' : Value}

theorem isTruthy (h : Looks v w) : w.isTruthy = v.isTruthy := by
  cases h <;> rfl

theorem decides (h : Looks v w) (op : LogicalOp) : decides op w = decides op v := by
  cases op <;> simp only [Machine.decides, h.isTruthy]

theorem arity? (h : Looks v w) : w.arity? = v.arity? := by
  cases h with
  | function id name arity => exact congrArg some arity
  | cls id name arity => exact congrArg some arity
  | _ => rfl

/-- Values that look alike are printed alike. -/
theorem display (h : Looks v w) : w.display = v.display := by
  cases h with
  | function id name arity => simp only [Value.display, name]
  | cls id name arity => simp only [Value.display, name]
  | object id name => simp only [Value.display, name]
  | _ => rfl

/-- Values that look alike are equal to the same ones. -/
theorem equals (h : Looks v w) (h' : Looks v' w') : w.equals w' = v.equals v' := by
  cases h with
  | data data => cases h' <;> cases v <;> first | rfl | exact data.elim
  | cls id =>
    cases h' with
    | data data => cases v' <;> first | rfl | exact data.elim
    | cls id' => simp only [Value.equals, id, id']
    | _ => rfl
  | _ =>
    cases h' with
    | data data => cases v' <;> rfl
    | _ => rfl

theorem applyUnary (h : Looks v w) (op : UnaryOp) (line : Nat) :
    applyUnary op line w = applyUnary op line v := by
  cases op with
  | not => simp only [Machine.applyUnary, h.isTruthy]
  | negate => cases h <;> rfl

/-- Operators make the same of values that look alike: no operator looks into a function, a
class or an object. -/
theorem applyBinary (h : Looks v w) (h' : Looks v' w') (op : BinaryOp) (line : Nat) :
    applyBinary op line w w' = applyBinary op line v v' := by
  have numbers (f : Float → Float → Except Fault Value) :
      onNumbers line f w w' = onNumbers line f v v' := by
    cases h with
    | data data => cases h' <;> cases v <;> rfl
    | _ => cases h' <;> rfl
  cases op with
  | add =>
    show Machine.add line w w' = Machine.add line v v'
    cases h with
    | data data => cases h' <;> cases v <;> rfl
    | _ => cases h' <;> rfl
  | equal => simp only [Machine.applyBinary, h.equals h']
  | notEqual => simp only [Machine.applyBinary, h.equals h']
  | _ => exact numbers _

end Looks

end ClassScript.Machine
