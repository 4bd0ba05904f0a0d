import ClassScript.Proofs.Binding.Sound
import ClassScript.Proofs.Syntax.Respelled
import Mathlib.Data.List.Nodup
import Mathlib.Data.List.Pairwise
import Mathlib.Logic.Equiv.Basic

/-!
# Scopes of an accepted program

A walk comes to every scope that a program opens (`openedAmong_reaches`). If it finds no
error, the names that are declared in a scope are distinct (`statements_distinct`), so no
function and no class has the name of a parameter or a variable of its scope: the scope may
spell this one otherwise (`spares_opened`).
-/

namespace ClassScript.Binding

open Syntax Walk

variable {w : Walk} {c : Context}

/-! ## The names of one scope -/

/-- A scope that declares names did not have those that it does not have now. -/
theorem absent_declared {w' : Walk} {texts : List String} {text : String}
    (scopes : w'.scopes = declared texts w.scopes) (inner : w.scopes ≠ [])
    (absent : w'.innermost? text = none) : text ∉ texts ∧ w.innermost? text = none := by
  unfold innermost? at absent ⊢
  rw [scopes] at absent
  cases shape : w.scopes with
  | nil => exact absurd shape inner
  | cons names outer =>
    rw [shape, declared_cons_scopes, List.head?_cons, Option.bind_some,
      getElem?_foldl_insert] at absent
    split at absent
    · cases absent
    · next outside => exact ⟨outside, absent⟩

/-- A statement without an error declares what its scope does not have. -/
theorem statement_new {s : Stmt} (accepted : (w.statement c s).errors = []) (plain : s.Plain)
    {text : String} (among : text ∈ s.declares) : w.innermost? text = none := by
  have titled {name : Name} (accepted : (w.declareDefined name).errors = []) :
      w.innermost? name.text = none :=
    declare_accepted (by rwa [declareDefined, errors_define] at accepted)
  cases s with
  -- a name that was in the innermost scope already would have been an error
  | var name initializer =>
    obtain rfl := List.mem_singleton.mp among
    rw [Walk.statement, errors_define] at accepted
    exact declare_accepted ((notes_expression? ..).accepted accepted)
  | function declaration =>
    obtain rfl := List.mem_singleton.mp among
    exact titled ((notes_function ..).accepted accepted)
  | classDecl name superclass ds =>
    cases superclass with
    | none =>
      obtain rfl := List.mem_singleton.mp among
      have opened := (notes_methods ..).accepted accepted
      exact titled (by rwa [errors_define] at opened)
    | some superclass =>
      obtain rfl := List.mem_singleton.mp among
      have opened := (notes_methods ..).accepted accepted
      rw [errors_define] at opened
      exact titled ((notes_superclass ..).accepted opened)
  -- in a plain program neither the parts of a branch nor the body of a loop declare
  | branch condition yes no => exact absurd among (by simp [(branch_declares plain).1])
  | loop condition body increment => exact absurd among (by simp [Stmt.declares, plain.2.1.2])
  | _ => cases among

/-- A plain statement declares one name at most. -/
theorem declares_nodup {s : Stmt} (plain : s.Plain) : s.declares.Nodup := by
  cases s with
  | branch condition yes no => simp [(branch_declares plain).1]
  | loop condition body increment => simp [Stmt.declares, plain.2.1.2]
  | _ => simp [Stmt.declares]

/-- The names that statements without an error declare in a scope are distinct, and their
scope did not have them. -/
theorem statements_distinct {ss : List Stmt} (accepted : (w.statements c ss).errors = [])
    (plain : Stmt.AllPlain ss) (inner : w.scopes ≠ []) :
    (Stmt.declaresAll ss).Nodup ∧ ∀ text ∈ Stmt.declaresAll ss, w.innermost? text = none := by
  induction ss generalizing w with
  | nil => exact ⟨List.nodup_nil, fun _ among => absurd among List.not_mem_nil⟩
  | cons s rest ih =>
    have inner' : (w.statement c s).scopes ≠ [] := by
      rw [scopes_statement, ← List.length_pos_iff, declared_length]
      exact List.length_pos_iff.mpr inner
    -- seen from behind the first statement, the names of the rest are new
    obtain ⟨distinct, new⟩ := ih accepted plain.2 inner'
    have later : ∀ text ∈ Stmt.declaresAll rest, text ∉ s.declares ∧ w.innermost? text = none :=
      fun text among => absent_declared (scopes_statement ..) inner (new text among)
    have first := (notes_statements c rest _).accepted accepted
    rw [Stmt.declaresAll, List.flatMap_cons]
    refine ⟨List.nodup_append.mpr ⟨declares_nodup plain.1, distinct, ?_⟩, fun text among => ?_⟩
    -- a name of the first statement is not new to the rest
    · rintro text here _ there rfl
      exact (later text there).1 here
    · rcases List.mem_append.mp among with here | there
      · exact statement_new first plain.1 here
      · exact (later text there).2

/-! ## The visits of scopes -/

/-- The walk comes to the statements of a scope, where their parameters are declared. -/
def Visited (root : Visit) (opened : Opened) : Prop :=
  ∃ c w, Reaches root
    ⟨.statements opened.body, c, opened.parameters.foldl declareDefined (enter w)⟩

section Visits

variable {root : Visit} {opened : Opened}

mutual

/-- The scope at a place in a statement is one that the walk comes to. -/
theorem openedAt_reaches {c : Context} {w : Walk} (s : Stmt)
    (here : Reaches root ⟨.statement s, c, w⟩) (place : List Nat)
    (found : s.openedAt place = some opened) : Visited root opened := by
  cases s with
  | block body =>
    -- the empty path is this block, a longer one leads to one of its statements
    match place with
    | [] =>
      obtain rfl := Option.some.inj found
      exact ⟨c, w, here.child .block⟩
    | 0 :: place => exact openedAmong_reaches body (here.child .block) place found
  -- the paths into the parts of a branch start with 0 and 1
  | branch condition yes no =>
    match no, place with
    | none, 0 :: place => exact openedAt_reaches yes (here.child .branchYes) place found
    | some no, 0 :: place => exact openedAt_reaches yes (here.child .branchYes) place found
    | some no, 1 :: place => exact openedAt_reaches no (here.child .branchNo) place found
  | loop condition body increment =>
    match place with
    | 0 :: place => exact openedAt_reaches body (here.child .loopBody) place found
  | function declaration =>
    exact openedAt_function declaration (here.child .functionStmt) place found
  | classDecl name superclass ds =>
    cases superclass with
    | none => exact openedAt_methods ds (here.child .classMethods) place found
    | some superclass => exact openedAt_methods ds (here.child .subclassMethods) place found
  | _ => cases place <;> cases found

theorem openedAmong_reaches {c : Context} {w : Walk} (ss : List Stmt)
    (here : Reaches root ⟨.statements ss, c, w⟩) (place : List Nat)
    (found : Stmt.openedAmong ss place = some opened) : Visited root opened := by
  match ss, place with
  | s :: rest, 0 :: place => exact openedAt_reaches s (here.child .statementsHead) place found
  | s :: rest, 1 :: place =>
    exact openedAmong_reaches rest (here.child .statementsTail) place found

/-- A function opens one scope for its parameters and its body. -/
theorem openedAt_function {c : Context} {w : Walk} (d : FunctionDecl)
    (here : Reaches root ⟨.function d, c, w⟩) (place : List Nat)
    (found : d.openedAt place = some opened) : Visited root opened := by
  match d, place with
  | ⟨name, parameters, body⟩, [] =>
    obtain rfl := Option.some.inj found
    exact ⟨c, w, here.child .functionBody⟩
  | ⟨name, parameters, body⟩, 0 :: place =>
    exact openedAmong_reaches body (here.child .functionBody) place found

theorem openedAt_methods {c : Context} {w : Walk} (ds : List FunctionDecl)
    (here : Reaches root ⟨.methods ds, c, w⟩) (place : List Nat)
    (found : FunctionDecl.openedAmong ds place = some opened) : Visited root opened := by
  match ds, place with
  | d :: rest, 0 :: place => exact openedAt_function d (here.child .methodsHead) place found
  | d :: rest, 1 :: place => exact openedAt_methods rest (here.child .methodsTail) place found

end

end Visits

/-! ## Titles and variables -/

/-- The functions and classes that a statement declares are among all that it declares. -/
theorem titles_subset_declares (s : Stmt) : s.titles ⊆ s.declares := by
  induction s using Stmt.titles.induct with
  | case3 condition yes ih => exact ih
  | case4 condition yes no first second =>
    exact List.append_subset.mpr ⟨List.subset_append_of_subset_left _ first,
      List.subset_append_of_subset_right _ second⟩
  | case5 condition body increment ih => exact ih
  | _ => simp [Stmt.titles, Stmt.declares]

theorem titlesOfAll_subset_declaresAll (ss : List Stmt) :
    Stmt.titlesOfAll ss ⊆ Stmt.declaresAll ss := by
  intro title inside
  obtain ⟨s, among, here⟩ := List.mem_flatMap.mp inside
  exact List.mem_flatMap.mpr ⟨s, among, titles_subset_declares s here⟩

/-- No title of a scope is one of its variables. -/
theorem titles_apart {table : Locals} {root : Visit} (sound : Sound table root) {opened : Opened}
    (visited : Visited root opened) {name : String} (among : name ∈ opened.variables) :
    name ∉ Stmt.titlesOfAll opened.body := by
  obtain ⟨c, w, here⟩ := visited
  have inside := sound.reaches here
  have inner : (opened.parameters.foldl declareDefined w.enter).scopes ≠ [] := by
    simp [scopes_declareDefined_foldl, ← List.length_pos_iff]
  obtain ⟨distinct, new⟩ := statements_distinct inside.accepted inside.plain inner
  intro title
  rcases List.mem_append.mp among with parameter | «variable»
  · -- the statements declare none of the parameters, which their scope has
    have missing := new name (titlesOfAll_subset_declaresAll _ title)
    exact (absent_declared (scopes_declareDefined_foldl ..) (List.cons_ne_nil _ _) missing).1
      parameter
  · -- one statement declares the variable and another one the title
    obtain ⟨s, first, shape⟩ := List.mem_filterMap.mp «variable»
    obtain ⟨other, second, named⟩ := List.mem_flatMap.mp title
    cases s with
    | var declared initializer =>
      obtain rfl := Option.some.inj shape
      have symmetric : Std.Symm (Function.onFun List.Disjoint Stmt.declares) :=
        ⟨fun _ _ => List.disjoint_symm⟩
      have apart := (List.nodup_flatMap.mp distinct).2.forall first second
        (by rintro rfl; cases named)
      exact apart (List.mem_singleton_self _) (titles_subset_declares other named)
    | _ => cases shape

/-! ## Names that occur nowhere -/

/-- The titles of a statement are names in it. -/
theorem titles_subset_names (s : Stmt) : s.titles ⊆ s.names := by
  induction s using Stmt.titles.induct with
  | case1 declaration =>
    obtain ⟨name, parameters, body⟩ := declaration
    simp [Stmt.titles, Stmt.names, FunctionDecl.names]
  | case2 name superclass methods => cases superclass <;> simp [Stmt.titles, Stmt.names]
  | case3 condition yes ih => exact List.subset_append_of_subset_right _ ih
  | case4 condition yes no first second =>
    exact List.subset_append_of_subset_right _ (List.append_subset.mpr
      ⟨List.subset_append_of_subset_left _ first, List.subset_append_of_subset_right _ second⟩)
  | case5 condition body increment ih =>
    exact List.subset_append_of_subset_right _ (List.subset_append_of_subset_left _ ih)
  | _ => simp [Stmt.titles]

theorem titlesOfAll_subset_names (ss : List Stmt) : Stmt.titlesOfAll ss ⊆ Stmt.namesOfAll ss := by
  induction ss with
  | nil => exact List.Subset.refl _
  | cons s rest ih =>
    exact List.append_subset.mpr
      ⟨List.subset_append_of_subset_left _ (titles_subset_names s),
        List.subset_append_of_subset_right _ ih⟩

mutual

/-- The names in a scope are among those of the statement that opens it or is around it. -/
theorem openedAt_names {opened : Opened} (s : Stmt) (place : List Nat)
    (found : s.openedAt place = some opened) : opened.names ⊆ s.names := by
  cases s with
  | block body =>
    match place with
    | [] =>
      obtain rfl := Option.some.inj found
      exact List.Subset.refl _
    | 0 :: place => exact openedAmong_names body place found
  -- the scope found lies in the part that the first number of the path selects
  | branch condition yes no =>
    match no, place with
    | none, 0 :: place =>
      exact List.subset_append_of_subset_right _ (openedAt_names yes place found)
    | some no, 0 :: place =>
      exact List.subset_append_of_subset_right _
        (List.subset_append_of_subset_left _ (openedAt_names yes place found))
    | some no, 1 :: place =>
      exact List.subset_append_of_subset_right _
        (List.subset_append_of_subset_right _ (openedAt_names no place found))
  | loop condition body increment =>
    match place with
    | 0 :: place =>
      exact List.subset_append_of_subset_right _
        (List.subset_append_of_subset_left _ (openedAt_names body place found))
  | function declaration => exact openedAt_names_function declaration place found
  | classDecl name superclass ds =>
    -- with or without a superclass the path leads into the methods
    have inside := openedAt_names_methods ds place (by cases superclass <;> exact found)
    cases superclass with
    | none => exact List.subset_cons_of_subset _ inside
    | some superclass =>
      exact List.subset_cons_of_subset _ (List.subset_cons_of_subset _ inside)
  | _ => cases place <;> cases found

/-- The names of a scope that statements open are names of the statements. -/
theorem openedAmong_names {opened : Opened} (ss : List Stmt) (place : List Nat)
    (found : Stmt.openedAmong ss place = some opened) :
    opened.names ⊆ Stmt.namesOfAll ss := by
  match ss, place with
  | s :: rest, 0 :: place =>
    exact List.subset_append_of_subset_left _ (openedAt_names s place found)
  | s :: rest, 1 :: place =>
    exact List.subset_append_of_subset_right _ (openedAmong_names rest place found)

theorem openedAt_names_function {opened : Opened} (d : FunctionDecl) (place : List Nat)
    (found : d.openedAt place = some opened) : opened.names ⊆ d.names := by
  match d, place with
  | ⟨name, parameters, body⟩, [] =>
    obtain rfl := Option.some.inj found
    exact List.subset_cons_self _ _
  | ⟨name, parameters, body⟩, 0 :: place =>
    exact List.subset_cons_of_subset _
      (List.subset_append_of_subset_right _ (openedAmong_names body place found))

theorem openedAt_names_methods {opened : Opened} (ds : List FunctionDecl) (place : List Nat)
    (found : FunctionDecl.openedAmong ds place = some opened) :
    opened.names ⊆ FunctionDecl.namesOfAll ds := by
  match ds, place with
  | d :: rest, 0 :: place =>
    exact List.subset_append_of_subset_left _ (openedAt_names_function d place found)
  | d :: rest, 1 :: place =>
    exact List.subset_append_of_subset_right _ (openedAt_names_methods rest place found)

end

/-- The variables of a scope are among its names. -/
theorem variables_subset_names (opened : Opened) : opened.variables ⊆ opened.names := by
  have declared (ss : List Stmt) : ss.filterMap Stmt.variable? ⊆ Stmt.namesOfAll ss := by
    induction ss with
    | nil => exact List.Subset.refl _
    | cons s rest ih =>
      have later := List.subset_append_of_subset_right s.names ih
      cases s with
      | var name initializer => exact List.cons_subset.mpr ⟨List.mem_cons_self, later⟩
      | _ => exact later
  exact List.append_subset.mpr ⟨List.subset_append_left _ _,
    List.subset_append_of_subset_right _ (declared opened.body)⟩

/-- A scope may spell a variable of its own as no name of the program is spelled. -/
theorem spares_opened {table : Locals} {program : Program} {c : Context} {w : Walk}
    (sound : Sound table ⟨.statements program, c, w⟩) {x y : String} {path : List Nat}
    {opened : Opened} (found : Stmt.openedAmong program path = some opened)
    (among : x ∈ opened.variables) (fresh : y ∉ Stmt.namesOfAll program) :
    Spares (Equiv.swap x y) (fun place => decide (place = path)) (Stmt.openedAmong program) := by
  intro place other located title inside
  by_cases here : place = path
  · subst here
    obtain rfl : other = opened := Option.some.inj (located.symm.trans found)
    have first : title ≠ x := fun same =>
      titles_apart sound (openedAmong_reaches program .refl place found) among (same ▸ inside)
    have second : title ≠ y := fun same =>
      fresh (openedAmong_names program place found
        (List.mem_append_right _ (titlesOfAll_subset_names _ (same ▸ inside))))
    simpa [spelled] using Equiv.swap_apply_of_ne_of_ne first second
  · simp [spelled, here]

end ClassScript.Binding
