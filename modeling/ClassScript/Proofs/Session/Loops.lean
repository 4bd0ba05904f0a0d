import ClassScript.Proofs.Binding.Core
import ClassScript.Proofs.Parsing.Loops
import ClassScript.Proofs.Session.Tokens

/-!
# Counting loops in programs

A counting loop in a program may be written out as a block with a plain loop, where no
`continue` leads out of its body. The program is accepted then, too, and gives the same
answers (`loop_written_out`): the two programs have the same core. Every `for` in a program
begins such a loop (`exists_written_out`).
-/

namespace ClassScript.Session

open Source Syntax Parsing Object Binding Machine

section WrittenOut

variable {found : Tokens} {before after : List Token} {l : LoopTokens}
  {initializer : Option Stmt} {condition increment : Option Expr} {isOpen : Bool} {body : Stmt}
  (here : found.list = before ++ l.tokens ++ after)
  (loop : Loop l initializer condition increment isOpen body)
  (whole : isOpen = true → NoElse after) (stays : ¬ body.Escapes .continue)
  {word : Kind → Token} (words : ∀ kind, (word kind).kind = kind)
include here loop whole stays words

/-- A program is accepted with the loop written out, and has the same core. -/
theorem accepted_writtenOut {program : Accepted Program}
    (accepted : (checkTokens found 0).1 = .ok program) :
    ∃ program', (checkTokens ⟨before ++ l.writtenOut word ++ after, found.endLine⟩ 0).1 =
        .ok program' ∧ Stmt.coreAll program'.tree = Stmt.coreAll program.tree := by
  obtain ⟨tree, locals⟩ := program
  obtain ⟨read, resolved⟩ := checkTokens_iff.mp (Prod.ext accepted rfl)
  rw [here] at read
  obtain ⟨isOpen', s', n', loopTree, closed, core⟩ := loop.whole.statement 0
  have replaced := (loop.readable words stays).of_core core.symm
  obtain ⟨tree', last, read', same⟩ := (read.replace loop.keyword loopTree
    (fun opens => whole (closed opens)) replaced).declarations 0
  obtain ⟨locals', resolved'⟩ := ofProgram_of_core same resolved
  let found' : Tokens := ⟨before ++ l.writtenOut word ++ after, found.endLine⟩
  have passed : checkTokens found' 0 = (.ok ⟨tree', locals'⟩, last) :=
    checkTokens_iff.mpr ⟨read', resolved'⟩
  exact ⟨⟨tree', locals'⟩, congrArg Prod.fst passed, same⟩

omit whole stays loop in
/-- The names in it are no keywords. -/
theorem named_writtenOut (named : Parsing.Named found.list) :
    Parsing.Named (before ++ l.writtenOut word ++ after) := by
  intro t among
  by_cases old : t ∈ found.list
  · exact named t old
  · rw [here, List.mem_append, List.mem_append, not_or, not_or] at old
    have inside : t ∈ l.writtenOut word := by
      rw [List.mem_append, List.mem_append] at among
      exact (among.resolve_right old.2).resolve_left old.1.1
    obtain ⟨kind, other, rfl⟩ := (l.mem_writtenOut t inside).resolve_left old.1.2
    intro same
    rw [words] at same
    exact absurd same other

omit loop whole stays in
/-- With the same core it gives the same answers. -/
theorem sameRuns_writtenOut (readings : Nat → Float) (sink : Sink) {text : String}
    (scanned : tokens text = .ok found) {program program' : Accepted Program}
    (accepted : (checkTokens found 0).1 = .ok program)
    (accepted' : (checkTokens ⟨before ++ l.writtenOut word ++ after, found.endLine⟩ 0).1 =
      .ok program') (same : Stmt.coreAll program'.tree = Stmt.coreAll program.tree) :
    SameRuns (fun fuel => (start readings sink).run fuel text)
      (fun fuel => (start readings sink).runTokens fuel
        ⟨before ++ l.writtenOut word ++ after, found.endLine⟩) := by
  have named := named_of_tokens scanned
  simp only [run_tokens scanned]
  exact sameRuns_of_core readings sink named (named_writtenOut here words named) accepted
    accepted' same

/-- In an accepted program, a counting loop whose body no `continue` leads out of may be
written out as a block with a plain loop. The program is accepted again and gives the same
answers: the same outcome, with the same lines, and the same output, also where it goes on
for ever. -/
theorem loop_written_out (readings : Nat → Float) (sink : Sink) {text : String}
    (scanned : tokens text = .ok found) {program : Accepted Program}
    (accepted : (checkProgram text 0).1 = .ok program) :
    (∃ program', (checkTokens ⟨before ++ l.writtenOut word ++ after, found.endLine⟩ 0).1 =
        .ok program') ∧
      SameRuns (fun fuel => (start readings sink).run fuel text)
        (fun fuel => (start readings sink).runTokens fuel
          ⟨before ++ l.writtenOut word ++ after, found.endLine⟩) := by
  rw [checkProgram_tokens scanned] at accepted
  obtain ⟨program', accepted', same⟩ := accepted_writtenOut here loop whole stays words accepted
  exact ⟨⟨program', accepted'⟩,
    sameRuns_writtenOut here words readings sink scanned accepted accepted' same⟩

end WrittenOut

/-- The tokens of `for (var i = true; i; i = nil) print i;`. -/
def countdown : LoopTokens where
  keyword := ⟨.for, "for", 1⟩
  opening := ⟨.leftParen, "(", 1⟩
  first := [⟨.var, "var", 1⟩, ⟨.identifier, "i", 1⟩, ⟨.equal, "=", 1⟩, ⟨.true, "true", 1⟩,
    ⟨.semicolon, ";", 1⟩]
  test := [⟨.identifier, "i", 1⟩]
  semicolon := ⟨.semicolon, ";", 1⟩
  step := [⟨.identifier, "i", 1⟩, ⟨.equal, "=", 1⟩, ⟨.nil, "nil", 1⟩]
  closing := ⟨.rightParen, ")", 1⟩
  body := [⟨.print, "print", 1⟩, ⟨.identifier, "i", 1⟩, ⟨.semicolon, ";", 1⟩]

/-- A loop whose variable ends it. -/
theorem countdown_written_out :
    (∃ program', (checkTokens ⟨[] ++ countdown.writtenOut (⟨·, "", 1⟩) ++ [], 1⟩ 0).1 =
        .ok program') ∧
      SameRuns
        (fun fuel => (start (fun _ => 0) .unlimited).run fuel
          "for (var i = true; i; i = nil) print i;")
        (fun fuel => (start (fun _ => 0) .unlimited).runTokens fuel
          ⟨[] ++ countdown.writtenOut (⟨·, "", 1⟩) ++ [], 1⟩) := by
  -- the text, its tokens, and the tree of the loop in it
  have scanned : tokens "for (var i = true; i; i = nil) print i;" =
      .ok ⟨[] ++ countdown.tokens ++ [], 1⟩ := by decide +kernel
  have passes : (checkProgram "for (var i = true; i; i = nil) print i;" 0).1.toBool = true := by
    decide +kernel
  obtain ⟨program, checked⟩ : ∃ program,
      (checkProgram "for (var i = true; i; i = nil) print i;" 0).1 = .ok program := by
    cases found : (checkProgram "for (var i = true; i; i = nil) print i;" 0).1 with
    | error rejection =>
      rw [found] at passes
      cases passes
    | ok program => exact ⟨program, rfl⟩
  have alone {ts : List Token} {e : Expr} {n n' : NodeId} (tree : Tree n ts (.primary e) n') :
      Tree n ts (.assignment e) n' := Tree.assignment_of_primary tree
  have i : Tree 0 [⟨.identifier, "i", 1⟩] (.assignment (.variable ⟨0, ⟨"i", 1⟩⟩)) 1 :=
    alone (.identifier rfl)
  have loop : Loop countdown (some (.var ⟨"i", 1⟩ (some (.literal (.bool true)))))
      (some (.variable ⟨0, ⟨"i", 1⟩⟩)) (some (.assign ⟨1, ⟨"i", 1⟩⟩ (.literal .nil))) false
      (.print (.variable ⟨0, ⟨"i", 1⟩⟩)) :=
    { keyword := rfl
      opens := rfl
      first := ⟨0, 0, .variableInitializer rfl
        (.initialized rfl rfl (alone (.literal (.true rfl))) rfl)⟩
      test := ⟨0, 1, .given i⟩
      ends := rfl
      step := ⟨0, 2, .given (.assigned rfl rfl (alone (.literal (.nil rfl))))⟩
      closes := rfl
      inner := ⟨0, 1, .print rfl i rfl⟩ }
  have here : (⟨[] ++ countdown.tokens ++ [], 1⟩ : Tokens).list =
      [] ++ countdown.tokens ++ [] := rfl
  have stays : ¬ (Stmt.print (.variable ⟨0, ⟨"i", 1⟩⟩)).Escapes .continue := by
    intro escapes
    cases escapes
  exact loop_written_out here loop (fun h => absurd h Bool.false_ne_true) stays (fun _ => rfl)
    _ _ scanned checked

/-- Every `for` of an accepted program begins such a loop, so there is none that could not be
written out, but for those that a `continue` leads out of. -/
theorem exists_written_out (readings : Nat → Float) (sink : Sink) {text : String} {found : Tokens}
    (scanned : tokens text = .ok found) {program : Accepted Program}
    (accepted : (checkProgram text 0).1 = .ok program) {before rest : List Token} {t : Token}
    (here : found.list = before ++ t :: rest) (keyword : t.kind = .for) {word : Kind → Token}
    (words : ∀ kind, (word kind).kind = kind) :
    ∃ l after initializer condition increment isOpen body, t :: rest = l.tokens ++ after ∧
      Loop l initializer condition increment isOpen body ∧
      (¬ body.Escapes .continue →
        (∃ program', (checkTokens ⟨before ++ l.writtenOut word ++ after, found.endLine⟩ 0).1 =
            .ok program') ∧
          SameRuns (fun fuel => (start readings sink).run fuel text)
            (fun fuel => (start readings sink).runTokens fuel
              ⟨before ++ l.writtenOut word ++ after, found.endLine⟩)) := by
  rw [checkProgram_tokens scanned] at accepted
  have read := (checkTokens_iff.mp (Prod.ext accepted rfl)).1
  rw [here] at read
  -- any for of an accepted text is the keyword of a loop
  obtain ⟨l, after, initializer, condition, increment, isOpen, body, parts, loop, whole⟩ :=
    exists_loop read keyword
  rw [parts, ← List.append_assoc] at here
  refine ⟨l, after, initializer, condition, increment, isOpen, body, parts, loop,
    fun stays => ?_⟩
  obtain ⟨program', accepted', same⟩ := accepted_writtenOut here loop whole stays words accepted
  exact ⟨⟨program', accepted'⟩,
    sameRuns_writtenOut here words readings sink scanned accepted accepted' same⟩

end ClassScript.Session
