import ClassScript.Proofs.Parsing.Complete
import ClassScript.Proofs.Parsing.Sound

/-!
# What is read is the tree of the tokens

A fresh parser reads tokens as a program if and only if they have a tree as one, and what
it reads is that tree (`program_iff`). The same holds of a single expression
(`singleExpression_iff`). So tokens have one tree at most.
-/

namespace ClassScript.Parsing

open Source Syntax

/-- A fresh parser at the first of some tokens. -/
def freshState (tokens : Tokens) (n : NodeId) : State := ⟨tokens.list, tokens.endLine, [], n⟩

theorem program_eq (tokens : Tokens) (n : NodeId) : program tokens n =
    (((freshState tokens n).run (declarationsToEnd (allowance tokens.list.length) [])).1,
      ((freshState tokens n).run (declarationsToEnd (allowance tokens.list.length) [])).2.nextId) :=
  rfl

theorem singleExpression_eq (tokens : Tokens) (n : NodeId) : singleExpression tokens n =
    (((freshState tokens n).run (wholeExpression (allowance tokens.list.length))).1,
      ((freshState tokens n).run (wholeExpression (allowance tokens.list.length))).2.nextId) :=
  rfl

/-- What is read from any place on, if no error was recorded there. -/
theorem State.program_iff {s : State} (clean : s.errors = []) {last : Nat} {ss : Program} :
    s.program.1 = .ok ss ∧ s.program.2.nextId = last ↔
      Tree s.nextId s.rest (.declarations ss) last := by
  constructor
  · rintro ⟨found, rfl⟩
    have finds := finds_declarationsToEnd s.fuel [] s.nextId s.rest
    obtain ⟨ss', rfl, -, tree⟩ := Finds.run finds clean (Prod.ext found rfl)
    exact tree
  · intro tree
    have enough : 32 * s.rest.length + 19 ≤ s.fuel := by
      unfold State.fuel allowance
      omega
    let tokens : Tokens := ⟨s.rest, s.endLine⟩
    have gives : Gives (declarationsToEnd s.fuel []) tokens.list s.nextId ss [] last :=
      gives_declarationsToEnd tree [] enough
    rw [State.program, gives.run s rfl clean rfl]
    exact ⟨rfl, rfl⟩

/-- A program is accepted with statements just where these are a tree of its tokens. -/
theorem program_iff {tokens : Tokens} {n last : Nat} {ss : Program} :
    program tokens n = (.ok ss, last) ↔ Tree n tokens.list (.declarations ss) last := by
  rw [program_eq, Prod.mk.injEq]
  exact State.program_iff (s := freshState tokens n) rfl

/-- An expression is accepted just where it is a tree of all the tokens. -/
theorem singleExpression_iff {tokens : Tokens} {n last : Nat} {e : Expr} :
    singleExpression tokens n = (.ok e, last) ↔ Tree n tokens.list (.assignment e) last := by
  rw [singleExpression_eq, Prod.mk.injEq]
  constructor
  · rintro ⟨found, rfl⟩
    have finds := finds_wholeExpression (allowance tokens.list.length) n tokens.list
    exact (Finds.run (s := freshState tokens n) finds rfl (Prod.ext found rfl)).2
  · intro tree
    have enough : 32 * tokens.list.length + 16 ≤ allowance tokens.list.length := by
      unfold allowance
      omega
    have run := (gives_wholeExpression tree enough).run (freshState tokens n) rfl rfl rfl
    rw [run]
    exact ⟨rfl, rfl⟩

/-- An interactive line that is a single expression is read as that. -/
theorem input_of_singleExpression {tokens : Tokens} {n last : NodeId} {e : Expr}
    (read : singleExpression tokens n = (.ok e, last)) :
    input tokens n = (.ok (.expression e), last) := by
  unfold singleExpression at read
  rw [input, Reader.input_eq]
  generalize (Reader.start tokens n).expression = ended at read ⊢
  obtain ⟨reading, reader⟩ := ended
  cases read
  rfl

/-- An interactive line that is no single expression is read as a program, behind the
identities that the attempt at an expression drew. -/
theorem input_iff_of_error {tokens : Tokens} {n first last : NodeId} {errors : List SyntaxError}
    (attempt : singleExpression tokens n = (.error errors, first)) {i : Input} :
    input tokens n = (.ok i, last) ↔
      ∃ ss, i = .statements ss ∧ Tree first tokens.list (.declarations ss) last := by
  unfold singleExpression at attempt
  rw [input, Reader.input_eq]
  have kept : (Reader.start tokens n).expression.2.tokens = tokens := rfl
  generalize (Reader.start tokens n).expression = ended at attempt kept ⊢
  obtain ⟨reading, reader⟩ := ended
  cases attempt
  -- the program is read from the first token on again
  have place : reader.restart.state.rest = tokens.list := congrArg Tokens.list kept
  have iff {ss : Program} := @State.program_iff reader.restart.state rfl last ss
  rw [place] at iff
  simp only [Reader.again, Reader.program]
  cases read : reader.restart.state.program.1 with
  | error errors =>
    refine ⟨nofun, ?_⟩
    rintro ⟨ss, -, tree⟩
    have found := (iff.mpr tree).1
    rw [read] at found
    cases found
  | ok ss =>
    constructor
    · intro same
      obtain ⟨found, ends⟩ := Prod.mk.inj same
      exact ⟨ss, (Except.ok.inj found).symm, iff.mp ⟨read, ends⟩⟩
    · rintro ⟨ss', rfl, tree⟩
      obtain ⟨found, rfl⟩ := iff.mpr tree
      rw [read] at found
      cases found
      rfl

end ClassScript.Parsing
