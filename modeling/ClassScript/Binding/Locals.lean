import ClassScript.Syntax.Tree
import Std.Data.ExtTreeMap

/-!
# Tables of local occurrences

A table says, for every occurrence that refers to a local binding, how many scopes
lie between the occurrence and the binding. An occurrence that is not in the table
refers to a global. Tables with the same entries are equal.
-/

namespace ClassScript.Binding

open Syntax

structure Locals where
  depths : Std.ExtTreeMap NodeId Nat

namespace Locals

def empty : Locals := ⟨∅⟩

instance : Inhabited Locals := ⟨empty⟩

/-- The number of scopes to walk for an occurrence; `none` if it is global. -/
def depth? (locals : Locals) (id : NodeId) : Option Nat := locals.depths[id]?

def size (locals : Locals) : Nat := locals.depths.size

def isEmpty (locals : Locals) : Bool := locals.depths.isEmpty

def insert (locals : Locals) (id : NodeId) (depth : Nat) : Locals :=
  ⟨locals.depths.insert id depth⟩

/-- Take in the entries of another table, which win over those that are there. -/
def merge (locals other : Locals) : Locals := ⟨locals.depths ∪ other.depths⟩

/-- Drop every occurrence that another table has an entry for. -/
def forget (locals other : Locals) : Locals := ⟨locals.depths \ other.depths⟩

instance : BEq Locals := ⟨fun a b => a.depths == b.depths⟩

/-- A table is what it has for each identity. -/
@[ext] theorem ext {a b : Locals} (same : ∀ id, a.depth? id = b.depth? id) : a = b := by
  cases a; cases b
  exact congrArg Locals.mk (Std.ExtTreeMap.ext_getElem? same)

@[simp] theorem depth?_empty (id : NodeId) : empty.depth? id = none := by
  simp [empty, depth?]

/-- What is inserted counts for its identity, and the rest stays. -/
theorem depth?_insert (locals : Locals) (id other : NodeId) (depth : Nat) :
    (locals.insert id depth).depth? other =
      if id = other then some depth else locals.depth? other := by
  simp [insert, depth?, Std.ExtTreeMap.getElem?_insert]

/-- After a merge an occurrence has the entry of the table merged last. -/
theorem depth?_merge (a b : Locals) (id : NodeId) :
    (a.merge b).depth? id = (b.depth? id).or (a.depth? id) := by
  simp [merge, depth?, Std.ExtTreeMap.getElem?_union]

/-- What another table has is forgotten, and the rest stays. -/
theorem depth?_forget (a b : Locals) (id : NodeId) :
    (a.forget b).depth? id = if (b.depth? id).isSome then none else a.depth? id := by
  simp [forget, depth?, Std.ExtTreeMap.getElem?_diff]

end Locals

end ClassScript.Binding
