import ClassScript.Proofs.Binding.Misuse
import ClassScript.Proofs.Syntax.Core

/-!
# Misuses in core forms

What is wrong in a statement depends on little of what is around it (`SameAround`), so a
block around one statement that declares nothing does not matter, nor where the increment
of a loop stands. A program and its core are misused in the same places
(`misuses_coreAll`), and programs with the same core are accepted alike.
-/

namespace ClassScript.Binding

open Syntax

/-- Surroundings that forbid the same expressions. -/
structure SameForNames (around around' : Surroundings) : Prop where
  initializes : ∀ text, around'.initializes text = around.initializes text
  enclosing : around'.innermostClass? = around.innermostClass?

/-- Surroundings that forbid the same statements, but for initializers of local variables. -/
structure SameAround (around around' : Surroundings) : Prop
    extends SameForNames around around' where
  function : around'.innermostFunction? = around.innermostFunction?
  inLoop : around'.inLoop = around.inLoop

namespace SameAround

variable {around around' : Surroundings}

/-- A block around forbids nothing. -/
theorem block (around : Surroundings) : SameAround around (.block :: around) :=
  ⟨⟨fun _ => rfl, rfl⟩, rfl, rfl⟩

/-- What is around alike stays so with one more construct around. -/
theorem push (h : SameAround around around') (inner : Surrounding)
    (plain : ∀ name, inner ≠ .initializer name) :
    SameAround (inner :: around) (inner :: around') where
  -- every item but an initializer leaves the names read by it to the items outside
  initializes text := by
    cases inner with
    | initializer name => exact absurd rfl (plain name)
    | _ => exact h.initializes text
  enclosing := by
    cases inner with
    | classBody hasSuperclass => rfl
    | _ => exact h.enclosing
  function := by
    cases inner with
    | function | method name => rfl
    | _ => exact h.function
  -- a function starts with no loop and a loop is one itself; the rest is transparent
  inLoop := by
    cases inner with
    | function | method name | loop => rfl
    | block | initializer _ | classBody _ => exact h.inLoop

end SameAround

theorem SameForNames.initializer {around around' : Surroundings}
    (h : SameForNames around around') (isLocal : around'.isLocal = around.isLocal)
    (name : String) :
    SameForNames (.initializer name :: around) (.initializer name :: around') where
  initializes text := by
    show (_ || _) = (_ || _)
    rw [isLocal, h.initializes]
  enclosing := h.enclosing

/-! ## Statements elsewhere -/

section Names

variable {around around' : Surroundings} (same : SameForNames around around')
include same

set_option linter.unusedSectionVars false in
mutual

/-- An expression is misused in the same places wherever the names of initializers around it
agree. -/
theorem misuses_expression (e : Expr) :
    misusesAt (e.sites around') = misusesAt (e.sites around) := by
  match e with
  | .literal _ => rfl
  | .group inner => exact misuses_expression inner
  | .unary _ _ operand => exact misuses_expression operand
  | .binary _ _ left right | .logical _ left right =>
    simp only [Expr.sites, misusesAt_append, misuses_expression left, misuses_expression right]
  -- the three leaves are where the surroundings are looked at
  | .variable occurrence =>
    simp only [Expr.sites, misusesAt_cons, misusesOf, same.initializes]
  | .assign _ value => exact misuses_expression value
  | .call callee _ arguments =>
    simp only [Expr.sites, misusesAt_append, misuses_expression callee,
      misuses_expressions arguments]
  | .get object _ => exact misuses_expression object
  | .set object _ value =>
    simp only [Expr.sites, misusesAt_append, misuses_expression object, misuses_expression value]
  | .this _ line =>
    simp only [Expr.sites, misusesAt_cons, misusesOf, same.enclosing]
  | .super _ line _ =>
    simp only [Expr.sites, misusesAt_cons, misusesOf, same.enclosing]

theorem misuses_expressions (es : List Expr) :
    misusesAt (Expr.sitesOfAll around' es) = misusesAt (Expr.sitesOfAll around es) := by
  match es with
  | [] => rfl
  | e :: rest =>
    simp only [Expr.sitesOfAll, misusesAt_append, misuses_expression e, misuses_expressions rest]

end

theorem misuses_expression? (e : Option Expr) :
    misusesAt (Expr.sitesOf? around' e) = misusesAt (Expr.sitesOf? around e) := by
  cases e with
  | none => rfl
  | some e => exact misuses_expression same e

end Names

mutual

/-- A statement is misused alike in surroundings that are the same, where local variables
matter to what declares something. -/
theorem misuses_statement {around around' : Surroundings} (same : SameAround around around') :
    (s : Stmt) → (around'.isLocal = around.isLocal ∨ s.declarations = []) →
      misusesAt (s.sites around') = misusesAt (s.sites around)
  | .expression e, _ | .print e, _ => misuses_expression same.toSameForNames e
  | .var name initializer, isLocal => by
    have isLocal := isLocal.resolve_right (List.cons_ne_nil _ _)
    exact misuses_expression? (same.toSameForNames.initializer isLocal _) initializer
  | .block body, _ => by
    simp only [Stmt.sites, misusesAt_cons, misusesOf,
      misuses_statements (same.push .block nofun) rfl body]
  | .branch condition yes none, isLocal => by
    simp only [Stmt.sites, misusesAt_append, misuses_expression same.toSameForNames,
      misuses_statement same yes isLocal]
  -- each of the two declares nothing if both together do
  | .branch condition yes (some no), isLocal => by
    have first : around'.isLocal = around.isLocal ∨ yes.declarations = [] :=
      isLocal.imp id fun none => (List.append_eq_nil_iff.mp none).1
    have second : around'.isLocal = around.isLocal ∨ no.declarations = [] :=
      isLocal.imp id fun none => (List.append_eq_nil_iff.mp none).2
    simp only [Stmt.sites, misusesAt_append, misuses_expression same.toSameForNames,
      misuses_statement same yes first, misuses_statement same no second]
  | .loop condition body increment, isLocal => by
    have inner : Surroundings.isLocal (.loop :: around') = Surroundings.isLocal (.loop :: around) ∨
        body.declarations = [] := isLocal
    simp only [Stmt.sites, misusesAt_append, misuses_expression same.toSameForNames,
      misuses_expression? same.toSameForNames,
      misuses_statement (same.push .loop nofun) body inner]
  | .function d, _ => misuses_function (same.push .function nofun) rfl d
  | .return line value, _ => by
    simp only [Stmt.sites, misusesAt_cons, misusesOf, same.function,
      misuses_expression? same.toSameForNames]
  | .break line, _ => by
    simp only [Stmt.sites, misusesAt_cons, misusesOf, same.inLoop]
  | .continue line, _ => by
    simp only [Stmt.sites, misusesAt_cons, misusesOf, same.inLoop]
  | .classDecl _ none methods, _ => misuses_methods (same.push (.classBody false) nofun) methods
  | .classDecl name (some superclass) methods, _ => by
    simp only [Stmt.sites, misusesAt_cons, misusesOf, same.initializes,
      misuses_methods (same.push (.classBody true) nofun) methods]

/-- Statements are misused alike, too, if also their declarations are local in both places. -/
theorem misuses_statements {around around' : Surroundings} (same : SameAround around around')
    (isLocal : around'.isLocal = around.isLocal) : (ss : List Stmt) →
      misusesAt (Stmt.sitesOfAll around' ss) = misusesAt (Stmt.sitesOfAll around ss)
  | [] => rfl
  | s :: rest => by
    simp only [Stmt.sitesOfAll, misusesAt_append,
      misuses_statement same s (.inl isLocal), misuses_statements same isLocal rest]

theorem misuses_function {around around' : Surroundings} (same : SameAround around around')
    (isLocal : around'.isLocal = around.isLocal) : (d : FunctionDecl) →
      misusesAt (d.sites around') = misusesAt (d.sites around)
  | ⟨_, parameters, body⟩ => by
    simp only [FunctionDecl.sites, misusesAt_cons, misusesOf,
      misuses_statements same isLocal body]

theorem misuses_methods {around around' : Surroundings} (same : SameAround around around') :
    (ds : List FunctionDecl) →
      misusesAt (FunctionDecl.sitesOfAll around' ds) = misusesAt (FunctionDecl.sitesOfAll around ds)
  | [] => rfl
  | d :: rest => by
    simp only [FunctionDecl.sitesOfAll, misusesAt_append,
      misuses_function (same.push (.method d.name.text) nofun) rfl d, misuses_methods same rest]

end

/-! ## Core forms -/

mutual

/-- The core of an expression has the same places: it differs in identities and lines of
operators only. -/
theorem sites_core (around : Surroundings) (e : Expr) : e.core.sites around = e.sites around := by
  match e with
  | .literal _ | .variable _ | .this _ _ | .super _ _ _ => rfl
  | .group inner => exact sites_core around inner
  | .unary _ _ operand => exact sites_core around operand
  | .binary _ _ left right | .logical _ left right =>
    exact congrArg₂ List.append (sites_core around left) (sites_core around right)
  | .assign _ value => exact sites_core around value
  | .call callee _ arguments =>
    exact congrArg₂ List.append (sites_core around callee) (sitesOfAll_core around arguments)
  | .get object _ => exact sites_core around object
  | .set object _ value =>
    exact congrArg₂ List.append (sites_core around object) (sites_core around value)

theorem sitesOfAll_core (around : Surroundings) (es : List Expr) :
    Expr.sitesOfAll around (Expr.renameAll .nameless es) = Expr.sitesOfAll around es := by
  match es with
  | [] => rfl
  | e :: rest => exact congrArg₂ List.append (sites_core around e) (sitesOfAll_core around rest)

end

theorem sitesOf?_core (around : Surroundings) (e : Option Expr) :
    Expr.sitesOf? around (e.map Expr.core) = Expr.sitesOf? around e := by
  cases e with
  | none => rfl
  | some e => exact sites_core around e

/-- A block around one statement that declares nothing is not misused itself. -/
theorem misuses_blockOf (around : Surroundings) (ss : List Stmt) :
    misusesAt ((blockOf ss).sites around) = misusesAt ((Stmt.block ss).sites around) := by
  unfold blockOf
  split
  · next s =>
    split
    · next plain =>
      -- without the block the statement stands in the scope around, where it declares nothing
      have moved := misuses_statement (.block around) s (.inr plain)
      simp [Stmt.sites, Stmt.sitesOfAll, Stmt.declarationsOfAll, plain, misusesOf, repeated, moved]
    · rfl
  · rfl

/-- The increment of a loop is not misused where it stands in the body. -/
theorem misuses_loopOf (around : Surroundings) (condition : Expr) (body : Stmt)
    (increment : Option Expr) :
    misusesAt ((loopOf condition body increment).sites around) =
      misusesAt ((Stmt.loop condition body increment).sites around) := by
  unfold loopOf
  split
  · rfl
  · next e =>
    split
    · next able =>
      -- the body gets a block of its own, in which the increment stands behind it
      have inner := misuses_statement (.block (.loop :: around)) body (.inr able.1)
      have names : SameForNames around (.block :: .loop :: around) := ⟨fun _ => rfl, rfl⟩
      have none : (Stmt.expression e).declarations = [] := rfl
      simp [Stmt.sites, Stmt.sitesOfAll, Stmt.declarationsOfAll, Expr.sitesOf?, able.1, none,
        misusesOf, repeated, inner, misuses_expression names]
    · rfl

/-- The core declares the same names. -/
theorem declarationsOfAll_core (ss : List Stmt) :
    Stmt.declarationsOfAll (Stmt.coreAll ss) = Stmt.declarationsOfAll ss := by
  induction ss with
  | nil => rfl
  | cons s rest ih =>
    rw [Stmt.coreAll, Stmt.declarationsOfAll_cons, Stmt.declarationsOfAll_cons,
      s.declarations_core, ih]

mutual

/-- A statement and its core are misused alike: a block that the core drops and an increment
that it moves are misused nowhere by themselves. -/
theorem misuses_core (around : Surroundings) (s : Stmt) :
    misusesAt (s.core.sites around) = misusesAt (s.sites around) := by
  match s with
  | .expression e | .print e => exact congrArg misusesAt (sites_core around e)
  | .var name initializer => exact congrArg misusesAt (sitesOf?_core _ initializer)
  -- the core of a block and of a loop may lose a wrapper, which holds no misuse of its own
  | .block body =>
    rw [Stmt.core, misuses_blockOf]
    simp only [Stmt.sites, misusesAt_cons, declarationsOfAll_core, misuses_coreAll _ body]
  | .branch condition yes none =>
    simp only [Stmt.core, Stmt.sites, misusesAt_append, sites_core, misuses_core around yes]
  | .branch condition yes (some no) =>
    simp only [Stmt.core, Stmt.sites, misusesAt_append, sites_core, misuses_core around yes,
      misuses_core around no]
  | .loop condition body increment =>
    rw [Stmt.core, misuses_loopOf]
    simp only [Stmt.sites, misusesAt_append, sites_core, sitesOf?_core,
      misuses_core (.loop :: around) body]
  | .function d => exact misuses_core_function _ d
  | .return line value =>
    simp only [Stmt.core, Stmt.sites, misusesAt_cons, sitesOf?_core, Option.isSome_map]
  | .break _ | .continue _ => rfl
  | .classDecl _ none methods => exact misuses_core_methods _ methods
  -- the superclass occurrence is the same on both sides; only the methods change
  | .classDecl name (some superclass) methods =>
    simp only [Stmt.core, Option.map_some, Stmt.sites, misusesAt_cons,
      misuses_core_methods _ methods]
    rfl

/-- The same of statements in a row. -/
theorem misuses_coreAll (around : Surroundings) (ss : List Stmt) :
    misusesAt (Stmt.sitesOfAll around (Stmt.coreAll ss)) =
      misusesAt (Stmt.sitesOfAll around ss) := by
  match ss with
  | [] => rfl
  | s :: rest =>
    simp only [Stmt.coreAll, Stmt.sitesOfAll, misusesAt_append, misuses_core around s,
      misuses_coreAll around rest]

theorem misuses_core_function (around : Surroundings) (d : FunctionDecl) :
    misusesAt (d.core.sites around) = misusesAt (d.sites around) := by
  obtain ⟨name, parameters, body⟩ := d
  simp only [FunctionDecl.core, FunctionDecl.sites, misusesAt_cons, declarationsOfAll_core,
    misuses_coreAll around body]

theorem misuses_core_methods (around : Surroundings) (ds : List FunctionDecl) :
    misusesAt (FunctionDecl.sitesOfAll around (FunctionDecl.coreAll ds)) =
      misusesAt (FunctionDecl.sitesOfAll around ds) := by
  match ds with
  | [] => rfl
  | d :: rest =>
    simp only [FunctionDecl.coreAll, FunctionDecl.sitesOfAll, misusesAt_append, d.core_name,
      misuses_core_function _ d, misuses_core_methods around rest]

end

/-- Resolution accepts a program at whose places nothing is wrong. -/
theorem accepted_iff {program : Program} :
    (∃ locals, ofProgram program = .ok locals) ↔ misuses program = [] := by
  have same : (Walk.start.statements .top program).errors = [] ↔ misuses program = [] := by
    rw [← List.length_eq_zero_iff, (errors_program program).length_eq, List.length_eq_zero_iff]
  refine ⟨?_, fun none => ⟨_, Walk.conclude_iff.mpr ⟨same.mpr none, rfl⟩⟩⟩
  rintro ⟨locals, accepted⟩
  exact same.mp (Walk.conclude_iff.mp accepted).1

/-- Resolution accepts a program with the same core. -/
theorem ofProgram_of_core {program program' : Program} {locals : Locals}
    (same : Stmt.coreAll program' = Stmt.coreAll program)
    (accepted : ofProgram program = .ok locals) : ∃ locals', ofProgram program' = .ok locals' := by
  have none : misuses program = [] := accepted_iff.mp ⟨locals, accepted⟩
  refine accepted_iff.mpr ?_
  calc
    misuses program' = misuses (Stmt.coreAll program') := (misuses_coreAll [] program').symm
    _ = misuses (Stmt.coreAll program) := by rw [same]
    _ = misuses program := misuses_coreAll [] program
    _ = [] := none

end ClassScript.Binding
