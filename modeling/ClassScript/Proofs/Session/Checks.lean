import ClassScript.Proofs.Binding.Renamed
import ClassScript.Proofs.Parsing.Renamed
import ClassScript.Session.Rejection

/-!
# Checks of texts elsewhere

A text is accepted wherever it stands. The identities that were drawn before do not
matter (`checkProgram_anywhere`), and a text below another one that is accepted is
accepted with it, where its lines are further down (`checkProgram_joined`). An expression
is accepted as a line of its own, and behind `print` (`checkProgram_print`).
-/

namespace ClassScript.Session

open Source Syntax Parsing Binding

section Check

variable {α : Type} {parse : Tokens → NodeId → Reading α × NodeId}
  {resolve : α → Except (List BindingError) Locals} {text : String} {n last : NodeId}

/-- A text is accepted by all three passes. -/
theorem check_iff {tree : α} {locals : Locals} :
    check parse resolve text n = (.ok ⟨tree, locals⟩, last) ↔
      ∃ found, tokens text = .ok found ∧ parse found n = (.ok tree, last) ∧
        resolve tree = .ok locals := by
  unfold check
  cases tokens text with
  | error errors => simp
  | ok found =>
    simp only [Except.ok.injEq, exists_eq_left']
    rcases parse found n with ⟨_ | tree', last'⟩
    · simp
    · simp only [Prod.mk.injEq, Except.ok.injEq]
      -- scanned and read: the resolver has the last word
      cases resolved : resolve tree' with
      | error errors =>
        simp only [Prod.mk.injEq, reduceCtorEq, false_and, false_iff]
        rintro ⟨⟨rfl, -⟩, same⟩
        rw [resolved] at same
        cases same
      | ok locals' =>
        simp only [Prod.mk.injEq, Except.ok.injEq, Accepted.mk.injEq]
        constructor
        · rintro ⟨⟨rfl, rfl⟩, rfl⟩
          exact ⟨⟨rfl, rfl⟩, resolved⟩
        · rintro ⟨⟨rfl, rfl⟩, same⟩
          rw [resolved] at same
          exact ⟨⟨rfl, Except.ok.inj same⟩, rfl⟩

end Check

/-- The tree and the table of an accepted program. -/
theorem checkProgram_iff {text : String} {n last : NodeId} {program : Program}
    {locals : Locals} : checkProgram text n = (.ok ⟨program, locals⟩, last) ↔
      ∃ found, tokens text = .ok found ∧
        Tree n found.list (.declarations program) last ∧ ofProgram program = .ok locals := by
  simp only [checkProgram, check_iff, program_iff]

/-- An expression is accepted with a tree and a table just where the tokens have that tree and
resolution makes that table. -/
theorem checkExpression_iff {text : String} {n last : NodeId} {e : Expr} {locals : Locals} :
    checkExpression text n = (.ok ⟨e, locals⟩, last) ↔
      ∃ found, tokens text = .ok found ∧
        Tree n found.list (.assignment e) last ∧ ofExpression e = .ok locals := by
  simp only [checkExpression, check_iff, singleExpression_iff]

/-- Some text passes the check on its own, wherever that begins to draw identities. -/
def Acceptable {α : Type} (check : NodeId → Checked α) : Prop :=
  ∃ n accepted, (check n).1 = .ok accepted

theorem Acceptable.of_passes {α : Type} {check : NodeId → Checked α} {n : NodeId}
    (passes : (check n).1.toBool = true) : Acceptable check := by
  cases checked : (check n).1 with
  | error rejection =>
    rw [checked] at passes
    cases passes
  | ok accepted => exact ⟨n, accepted, checked⟩

/-- A program that passes all checks passes them whatever identities were drawn before. -/
theorem checkProgram_anywhere {text : String} (acceptable : Acceptable (checkProgram text))
    (n : NodeId) :
    ∃ program locals last, checkProgram text n = (.ok ⟨program, locals⟩, last) := by
  obtain ⟨n', ⟨program, locals⟩, accepted⟩ := acceptable
  obtain ⟨found, scanned, tree, resolved⟩ := checkProgram_iff.mp (Prod.ext accepted rfl)
  obtain ⟨locals', resolved', -⟩ := ofProgram_rename _ resolved
  exact ⟨_, locals', _, checkProgram_iff.mpr ⟨found, scanned, tree.move n, resolved'⟩⟩

theorem checkExpression_anywhere {text : String}
    (acceptable : Acceptable (checkExpression text)) (n : NodeId) :
    ∃ e locals last, checkExpression text n = (.ok ⟨e, locals⟩, last) := by
  obtain ⟨n', ⟨e, locals⟩, accepted⟩ := acceptable
  obtain ⟨found, scanned, tree, resolved⟩ := checkExpression_iff.mp (Prod.ext accepted rfl)
  obtain ⟨locals', resolved'⟩ := ofExpression_rename _ resolved
  exact ⟨_, locals', _, checkExpression_iff.mpr ⟨found, scanned, tree.move n, resolved'⟩⟩

/-- The check of two texts one below the other. -/
theorem checkProgram_joined {first second : String} {n mid last : NodeId} {above below : Program}
    {a b : Locals} (accepted : checkProgram first n = (.ok ⟨above, a⟩, mid))
    (accepted' : checkProgram second mid = (.ok ⟨below, b⟩, last)) :
    checkProgram (first ++ "\n" ++ second) n =
      (.ok ⟨above ++ Stmt.renameAll (down (newlines first.toList + 1)) below, a.merge b⟩,
        last) := by
  obtain ⟨found, scanned, tree, resolved⟩ := checkProgram_iff.mp accepted
  obtain ⟨found', scanned', tree', resolved'⟩ := checkProgram_iff.mp accepted'
  have lower := tree'.rename (r := down (newlines first.toList + 1)) (fun _ _ => rfl)
    (Nat.le_refl mid)
  exact checkProgram_iff.mpr ⟨_, tokens_joined scanned scanned', tree.append lower,
    ofProgram_append resolved (ofProgram_lines _ resolved')⟩

/-! ## Texts that are an expression -/

section Expression

variable {text : String} {n last : NodeId} {e : Expr} {locals : Locals}

/-- As an interactive line, an expression is accepted as that. -/
theorem checkInput_expression (accepted : checkExpression text n = (.ok ⟨e, locals⟩, last)) :
    checkInput text n = (.ok ⟨.expression e, locals⟩, last) := by
  obtain ⟨found, scanned, read, resolved⟩ := check_iff.mp accepted
  exact check_iff.mpr ⟨found, scanned, input_of_singleExpression read, resolved⟩

/-- The text with `print` in front of it, and a semicolon on the line below, is a program.
What stands at the end of the text may be a comment. -/
theorem checkProgram_print (accepted : checkExpression text n = (.ok ⟨e, locals⟩, last)) :
    checkProgram ("print " ++ text ++ "\n" ++ ";") n = (.ok ⟨[.print e], locals⟩, last) := by
  obtain ⟨found, scanned, tree, resolved⟩ := checkExpression_iff.mp accepted
  have semicolon : tokens ";" = .ok ⟨[⟨.semicolon, ";", 1⟩], 1⟩ := by cbv
  let keyword : Token := ⟨.print, "print", 1⟩
  let closing : Token := ⟨.semicolon, ";", 1 + (newlines ("print " ++ text).toList + 1)⟩
  have statement : Tree n (keyword :: found.list ++ [closing]) (.statement false (.print e)) last :=
    .print rfl tree rfl
  have program := Tree.declarations (.statement statement) .noDeclarations
  rw [List.append_nil] at program
  exact checkProgram_iff.mpr
    ⟨_, tokens_joined (tokens_print scanned) semicolon, program, resolved⟩

end Expression

end ClassScript.Session
