import ClassScript.Syntax.Tree

/-!
# Ways out of a statement

Which jumps stand in a statement so that they lead out of it. A function keeps all of
its jumps to itself, and a loop those that end it or go on with it.
-/

namespace ClassScript.Syntax

/-- The jumps, as ways to leave a statement. -/
inductive Exit where
  | break | continue | return
deriving Repr, DecidableEq

/-- A jump in the statement leads out of it: one that is not inside a nested
function, and not inside a nested loop that it ends or goes on with. -/
inductive Stmt.Escapes : Exit → Stmt → Prop
  | break (line : Nat) : Escapes .break (.break line)
  | continue (line : Nat) : Escapes .continue (.continue line)
  | return (line : Nat) (value : Option Expr) : Escapes .return (.return line value)
  | block {exit s body} (part : s ∈ body) (inner : Escapes exit s) :
      Escapes exit (.block body)
  | yes {exit condition yes no} (inner : Escapes exit yes) :
      Escapes exit (.branch condition yes no)
  | no {exit condition yes no} (inner : Escapes exit no) :
      Escapes exit (.branch condition yes (some no))
  | loop {condition body increment} (inner : Escapes .return body) :
      Escapes .return (.loop condition body increment)

/-- Only a `return` leads out of a loop. -/
theorem Stmt.Escapes.of_loop {exit : Exit} {condition : Expr} {body : Stmt}
    {increment : Option Expr} (h : (Stmt.loop condition body increment).Escapes exit) :
    exit = .return := by
  cases h
  rfl

end ClassScript.Syntax
