import Mathlib.Logic.Basic
import ClassScript.Proofs.Syntax.Exit
import ClassScript.Proofs.Syntax.Rename
import ClassScript.Proofs.Syntax.Sites
import ClassScript.Parsing.Statement

/-!
# Core forms

A loop can do its increment at the end of its body, unless a `continue` cuts the body
short; and a block around one statement that declares nothing can be left out. The core of
a program is what is left where both is done throughout, with all identities forgotten. It
is made piece by piece, so programs with the same core stay so in every context; and a
counting loop has the same core as the loop in a block that one would write for it
(`core_countingLoop`).
-/

namespace ClassScript.Syntax

mutual

/-- Whether a `continue` leads out of a statement. -/
def Stmt.continues : Stmt → Bool
  | .continue _ => true
  | .block body => Stmt.continuesAny body
  | .branch _ yes none => yes.continues
  | .branch _ yes (some no) => yes.continues || no.continues
  | _ => false

def Stmt.continuesAny : List Stmt → Bool
  | [] => false
  | s :: rest => s.continues || Stmt.continuesAny rest

end

mutual

theorem Stmt.escapes_of_continues : (s : Stmt) → s.continues = true → s.Escapes .continue
  | .continue line, _ => .continue line
  | .block body, found => by
    obtain ⟨s, part, inner⟩ := Stmt.escapes_of_continuesAny body found
    exact .block part inner
  | .branch _ yes none, found => .yes (yes.escapes_of_continues found)
  | .branch _ yes (some no), found => by
    rcases Bool.or_eq_true_iff.mp found with first | second
    · exact .yes (yes.escapes_of_continues first)
    · exact .no (no.escapes_of_continues second)

theorem Stmt.escapes_of_continuesAny : (ss : List Stmt) → Stmt.continuesAny ss = true →
    ∃ s ∈ ss, s.Escapes .continue
  | s :: rest, found => by
    rcases Bool.or_eq_true_iff.mp found with first | later
    · exact ⟨s, List.mem_cons_self, s.escapes_of_continues first⟩
    · obtain ⟨s', part, inner⟩ := Stmt.escapes_of_continuesAny rest later
      exact ⟨s', List.mem_cons_of_mem _ part, inner⟩

end

/-- The statements in a block, where one alone that declares nothing needs none. -/
def blockOf : List Stmt → Stmt
  | [s] => if s.declarations = [] then s else .block [s]
  | ss => .block ss

/-- The loop, where the increment stands at the end of the body if it can. -/
def loopOf (condition : Expr) (body : Stmt) : Option Expr → Stmt
  | none => .loop condition body none
  | some increment =>
    if body.declarations = [] ∧ body.continues = false then
      .loop condition (.block [body, .expression increment]) none
    else .loop condition body (some increment)

def Expr.core (e : Expr) : Expr := e.rename .nameless

mutual

/-- The core of a statement. -/
def Stmt.core : Stmt → Stmt
  | .expression e => .expression e.core
  | .print e => .print e.core
  | .var name initializer => .var name (initializer.map Expr.core)
  | .block body => blockOf (Stmt.coreAll body)
  | .branch condition yes none => .branch condition.core yes.core none
  | .branch condition yes (some no) => .branch condition.core yes.core (some no.core)
  | .loop condition body increment =>
    loopOf condition.core body.core (increment.map Expr.core)
  | .function declaration => .function declaration.core
  | .return line value => .return line (value.map Expr.core)
  | .break line => .break line
  | .continue line => .continue line
  | .classDecl name superclass methods =>
    .classDecl name (superclass.map (Occurrence.rename .nameless)) (FunctionDecl.coreAll methods)

def Stmt.coreAll : List Stmt → List Stmt
  | [] => []
  | s :: rest => s.core :: Stmt.coreAll rest

def FunctionDecl.core : FunctionDecl → FunctionDecl
  | ⟨name, parameters, body⟩ => ⟨name, parameters, Stmt.coreAll body⟩

def FunctionDecl.coreAll : List FunctionDecl → List FunctionDecl
  | [] => []
  | d :: rest => d.core :: FunctionDecl.coreAll rest

end

@[simp] theorem FunctionDecl.core_name (d : FunctionDecl) : d.core.name = d.name := by
  cases d
  rfl

@[simp] theorem FunctionDecl.core_parameters (d : FunctionDecl) :
    d.core.parameters = d.parameters := by
  cases d
  rfl

@[simp] theorem FunctionDecl.core_body (d : FunctionDecl) :
    d.core.body = Stmt.coreAll d.body := by
  cases d
  rfl

theorem Stmt.coreAll_eq (ss : List Stmt) : Stmt.coreAll ss = ss.map Stmt.core := by
  induction ss with
  | nil => rfl
  | cons s rest ih => rw [coreAll, ih, List.map_cons]

theorem FunctionDecl.coreAll_eq (ds : List FunctionDecl) :
    FunctionDecl.coreAll ds = ds.map FunctionDecl.core := by
  induction ds with
  | nil => rfl
  | cons d rest ih => rw [coreAll, ih, List.map_cons]

/-! ## What the core keeps -/

theorem declarations_blockOf (ss : List Stmt) : (blockOf ss).declarations = [] := by
  unfold blockOf
  split
  · split
    · assumption
    · rfl
  · rfl

theorem continues_blockOf (ss : List Stmt) : (blockOf ss).continues = Stmt.continuesAny ss := by
  unfold blockOf
  split
  · rw [Stmt.continuesAny, Stmt.continuesAny, Bool.or_false]
    split
    · rfl
    · rw [Stmt.continues, Stmt.continuesAny, Stmt.continuesAny, Bool.or_false]
  · rfl

theorem declarations_loopOf (condition : Expr) (body : Stmt) (increment : Option Expr) :
    (loopOf condition body increment).declarations = body.declarations := by
  unfold loopOf
  split
  · rfl
  · split
    · next able => exact able.1.symm
    · rfl

theorem continues_loopOf (condition : Expr) (body : Stmt) (increment : Option Expr) :
    (loopOf condition body increment).continues = false := by
  unfold loopOf
  split
  · rfl
  · split <;> rfl

@[simp] theorem Stmt.declarations_core (s : Stmt) : s.core.declarations = s.declarations := by
  match s with
  | .block body => exact declarations_blockOf _
  | .branch _ yes none => exact yes.declarations_core
  | .branch _ yes (some no) =>
    exact congrArg₂ List.append yes.declarations_core no.declarations_core
  | .loop _ body _ => exact (declarations_loopOf ..).trans body.declarations_core
  | .function d => exact congrArg (fun name => [name]) d.core_name
  | .expression _ | .print _ | .var _ _ | .return _ _ | .break _ | .continue _
  | .classDecl _ _ _ => rfl

mutual

@[simp] theorem Stmt.continues_core (s : Stmt) : s.core.continues = s.continues := by
  match s with
  | .block body => exact (continues_blockOf _).trans (Stmt.continuesAny_coreAll body)
  | .branch _ yes none => exact yes.continues_core
  | .branch _ yes (some no) => exact congrArg₂ or yes.continues_core no.continues_core
  | .loop _ body _ => exact continues_loopOf ..
  | .function _ | .expression _ | .print _ | .var _ _ | .return _ _ | .break _ | .continue _
  | .classDecl _ _ _ => rfl

@[simp] theorem Stmt.continuesAny_coreAll (ss : List Stmt) :
    Stmt.continuesAny (Stmt.coreAll ss) = Stmt.continuesAny ss := by
  match ss with
  | [] => rfl
  | s :: rest => exact congrArg₂ or s.continues_core (Stmt.continuesAny_coreAll rest)

end

/-! ## Identities do not matter -/

section Identities

variable (node : NodeId → NodeId)

theorem Expr.core_rename (e : Expr) : (e.rename (.ofNodes node)).core = e.core :=
  e.rename_rename ..

theorem Expr.core_rename? (e : Option Expr) :
    (e.map (Expr.rename (.ofNodes node))).map Expr.core = e.map Expr.core :=
  Expr.map_rename_rename _ _ e

mutual

/-- A tree whose occurrences have other identities has the same core. -/
theorem Stmt.core_rename (s : Stmt) : (s.rename (.ofNodes node)).core = s.core := by
  match s with
  | .expression e | .print e => simp only [Stmt.rename, Stmt.core, Expr.core_rename]
  | .var name initializer => simp only [Stmt.rename, Stmt.core, Expr.core_rename?]; rfl
  | .block body => simp only [Stmt.rename, Stmt.core, Stmt.coreAll_renameAll body]
  | .branch condition yes none =>
    simp only [Stmt.rename, Stmt.core, Expr.core_rename, yes.core_rename]
  | .branch condition yes (some no) =>
    simp only [Stmt.rename, Stmt.core, Expr.core_rename, yes.core_rename, no.core_rename]
  | .loop condition body increment =>
    simp only [Stmt.rename, Stmt.core, Expr.core_rename, body.core_rename, Expr.core_rename?]
  | .function d => simp only [Stmt.rename, Stmt.core, d.core_rename]
  | .return line value => simp only [Stmt.rename, Stmt.core, Expr.core_rename?]; rfl
  | .break _ | .continue _ => rfl
  | .classDecl name superclass methods =>
    simp only [Stmt.rename, Stmt.core, FunctionDecl.coreAll_renameAll methods, Option.map_map]
    rfl

theorem Stmt.coreAll_renameAll (ss : List Stmt) :
    Stmt.coreAll (Stmt.renameAll (.ofNodes node) ss) = Stmt.coreAll ss := by
  match ss with
  | [] => rfl
  | s :: rest =>
    simp only [Stmt.renameAll, Stmt.coreAll, s.core_rename, Stmt.coreAll_renameAll rest]

theorem FunctionDecl.core_rename (d : FunctionDecl) :
    (d.rename (.ofNodes node)).core = d.core := by
  obtain ⟨name, parameters, body⟩ := d
  have names : Name.rename (.ofNodes node) = id := rfl
  simp only [FunctionDecl.rename, FunctionDecl.core, Stmt.coreAll_renameAll body, names,
    List.map_id]
  rfl

theorem FunctionDecl.coreAll_renameAll (ds : List FunctionDecl) :
    FunctionDecl.coreAll (FunctionDecl.renameAll (.ofNodes node) ds) =
      FunctionDecl.coreAll ds := by
  match ds with
  | [] => rfl
  | d :: rest =>
    simp only [FunctionDecl.renameAll, FunctionDecl.coreAll, d.core_rename,
      FunctionDecl.coreAll_renameAll rest]

end

end Identities

/-! ## Counting loops -/

/-- A counting loop as one would write it out, with its increment behind the body. -/
def writtenOut (initializer : Option Stmt) (condition : Expr) (body : Stmt)
    (increment : Option Expr) : Stmt :=
  .block (initializer.toList ++
    [.loop condition (.block (body :: increment.toList.map .expression)) none])

/-- A counting loop and what it is written out have the same core. -/
theorem core_countingLoop {initializer : Option Stmt} {condition : Expr} {body : Stmt}
    {increment : Option Expr} (plain : body.declarations = []) (ends : body.continues = false) :
    (Parsing.countingLoop initializer condition body increment).core =
      (writtenOut initializer condition body increment).core := by
  have able : body.core.declarations = [] ∧ body.core.continues = false := by
    rw [Stmt.declarations_core, Stmt.continues_core]
    exact ⟨plain, ends⟩
  -- the loop itself, where the block around body and increment is left out if it can be
  have loop : (Stmt.loop condition body increment).core =
      (Stmt.loop condition (.block (body :: increment.toList.map .expression)) none).core := by
    cases increment with
    | none =>
      simp only [Stmt.core, Stmt.coreAll, Option.toList, List.map_nil, Option.map_none, loopOf,
        blockOf, if_pos able.1]
    | some e =>
      simp only [Stmt.core, Stmt.coreAll, Option.toList, List.map_cons, List.map_nil,
        Option.map_some, Option.map_none, loopOf, blockOf, if_pos able]
  cases initializer with
  | none =>
    have alone : (Stmt.loop condition body increment).core.declarations = [] := by
      rw [Stmt.declarations_core]
      exact plain
    show (Stmt.loop condition body increment).core = blockOf [(Stmt.loop ..).core]
    rw [← loop, blockOf, if_pos alone]
  | some s =>
    show blockOf [s.core, _] = blockOf [s.core, _]
    rw [loop]

end ClassScript.Syntax
