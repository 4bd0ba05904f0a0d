import ClassScript.Proofs.Binding.Opened
import ClassScript.Proofs.Binding.Respelled
import ClassScript.Proofs.Machine.Twins
import ClassScript.Proofs.Parsing.Respelled
import ClassScript.Proofs.Session.Checks
import ClassScript.Proofs.Session.Faults
import ClassScript.Proofs.Session.Scoping
import ClassScript.Proofs.Source.Respelled

/-!
# Renaming a local variable

In the text of an accepted program, a variable or a parameter that is declared in a local
scope may be given a name that no identifier of the text has, at its declaration and at
the occurrences that the table leads to it. The text is accepted again, and runs as before:
only an internal fault may quote the other name (`renaming_unobservable`). Its tokens, its
tree and its table are those of the program respelled, and the machines of the two runs are
twins.
-/

namespace ClassScript.Session

open Source Syntax Parsing Object Binding Machine Slots

/-! ## Texts -/

section Texts

variable {x y : String}

/-- Where the one name does not occur, exchanging the two replaces the other. -/
theorem replaced_of_respelled {list list' : List Token} (fresh : ∀ t ∈ list, t.lexeme ≠ y)
    (row : RespelledRow (Equiv.swap x y) list list') :
    List.Forall₂ (Token.Replaced x y) list list' := by
  induction row with
  | nil => exact .nil
  | @cons t t' list list' token rest ih =>
    rw [List.forall_mem_cons] at fresh
    refine .cons ?_ (ih fresh.2)
    rcases token with same | ⟨kind, same⟩
    · exact .inl same
    · by_cases here : t.lexeme = x
      · rw [here, Equiv.swap_apply_left] at same
        exact .inr ⟨kind, here, same⟩
      · rw [Equiv.swap_apply_of_ne_of_ne here fresh.1] at same
        exact .inl same

theorem spelling_swap (first : x ∉ reserved) (second : y ∉ reserved) :
    Spelling (Equiv.swap x y) where
  injective := (Equiv.swap x y).injective
  reserved _ special := Equiv.swap_apply_of_ne_of_ne
    (fun same => first (same ▸ special)) (fun same => second (same ▸ special))

/-- What a program calls itself a name is an identifier of its text. -/
theorem names_program {n n' : NodeId} {list : List Token} {program : Program}
    (tree : Tree n list (.declarations program) n') {name : String}
    (among : name ∈ Stmt.namesOfAll program) :
    ∃ t ∈ list, t.kind = .identifier ∧ t.lexeme = name :=
  (tree.names name among).resolve_left List.not_mem_nil

end Texts

/-! ## Runs -/

/-- The same outcome, up to the name that an internal fault quotes. -/
inductive SameUpToName : Outcome Unit → Outcome Unit → Prop
  | refl (outcome : Outcome Unit) : SameUpToName outcome outcome
  | missing (name name' : String) (hops : Nat) :
      SameUpToName (.failed (.fault (.internal (.missing name hops))))
        (.failed (.fault (.internal (.missing name' hops))))

section Runs

variable (readings : Nat → Float) (sink : Sink)

/-- At the start there is no scope but that of the globals. -/
theorem twins_start (σ : String → String) (table : Locals) :
    Twins σ table [[]] (enter (.start readings sink) table)
      (enter (.start readings sink) table) where
  scopes := {
    size := rfl
    size' := rfl
    parents := fun _ => rfl
    chain := fun id up flags above there => by
      cases id with
      -- there is one scope, which has no parent
      | zero => cases above
      | succ id => cases there
    top := rfl
    root := rfl
    own := fun id flags name there => by
      cases id with
      | succ id => cases there
      | zero =>
        obtain rfl := Option.some.inj there
        show Option.Rel _ ((startPair readings sink table).machine.scopes.own? 0 name)
          ((startPair readings sink table).machine.scopes.own? 0 name)
        rw [own?_start]
        split
        · exact .some (.host _)
        · exact .none }
  objects := rfl
  fields _ _ := .none
  rest := rfl
  locals := Locals.ext fun id => by
    show (Locals.empty.merge table).depth? id = table.depth? id
    simp [Locals.depth?_merge]
  clocks := (healthy_start readings sink).hosts

variable {text : String}

/-- An internal fault says that a variable is missing where it is declared. -/
theorem missing_of_run {fuel : Nat} {fault : InternalFault}
    (failed : ((start readings sink).run fuel text).1 = .failed (.fault (.internal fault))) :
    ∃ name, fault = .missing name 0 := by
  let step : Step := ⟨.run, text, fuel⟩
  have taken : (step.take (start readings sink)).1 = .failed (.fault (.internal fault)) := by
    show Outcome.map _ ((start readings sink).run fuel text).1 = _
    rw [failed]
    rfl
  obtain ⟨input, m', checked, stops⟩ := take_fault_iff.mp taken
  have first : (start readings sink).after [] = start readings sink := rfl
  rw [← first] at checked stops
  obtain ⟨n, target, value, m, v, m₁, -, -, -, missing⟩ := blamed checked stops
  exact ⟨target.name.text, missing⟩

/-- The respelled program runs as the program does. -/
theorem run_respelled {text' : String} {program : Accepted Program} {σ : String → String}
    {scheme : Scheme} (proper : Spelling σ)
    (spares : Spares σ scheme (Stmt.openedAmong program.tree))
    (accepted : (checkProgram text 0).1 = .ok program)
    (accepted' : (checkProgram text' 0).1 =
      .ok ⟨Stmt.respellAll σ program.locals [] scheme program.tree, program.locals⟩)
    (fuel : Nat) :
    SameUpToName ((start readings sink).run fuel text).1 ((start readings sink).run fuel text').1 ∧
      ((start readings sink).run fuel text').2.written =
        ((start readings sink).run fuel text).2.written := by
  have alike := alike_runStatements proper fuel program.tree spares _ _
    (twins_start readings sink σ program.locals) rfl
  have missing := @missing_of_run readings sink text fuel
  have missing' := @missing_of_run readings sink text' fuel
  obtain ⟨r, ran, outcome, machine⟩ := run_start readings sink accepted fuel
  obtain ⟨r', ran', outcome', machine'⟩ := run_start readings sink accepted' fuel
  rw [← ran, ← ran'] at alike
  rw [outcome] at missing
  rw [outcome'] at missing'
  rw [outcome, outcome', written, written, machine, machine']
  cases alike with
  | ok _ twins => exact ⟨.refl _, congrArg Sink.written twins.sink⟩
  | @error e e' m m' same sinks =>
    refine ⟨?_, congrArg Sink.written sinks⟩
    -- two faults that differ are internal ones about a missing name
    rcases same.cases with rfl | ⟨f, g, rfl, rfl⟩
    · cases e <;> exact .refl _
    · obtain ⟨name, rfl⟩ := missing rfl
      obtain ⟨name', rfl⟩ := missing' rfl
      exact .missing name name' 0

end Runs

/-! ## Renaming -/

/-- In an accepted text, a parameter or variable of a local scope may be renamed to what no
identifier of the text is. The other text has the new name for some of the identifiers that
are the old one, so that it reads as the program where the declaration and the occurrences
that lead to this scope have the new name. It is accepted with the same table, it ends
alike with any fuel, and its output is the same. -/
theorem renaming_unobservable (readings : Nat → Float) (sink : Sink) {text : String}
    {program : Program} {locals : Locals} {last : NodeId}
    (accepted : checkProgram text 0 = (.ok ⟨program, locals⟩, last)) {path : List Nat}
    {opened : Opened} (found : Stmt.openedAmong program path = some opened) {x y : String}
    (declared : x ∈ opened.variables) (word : Lexeme .identifier y.toList)
    (fresh : ∀ words, tokens text = .ok words → ∀ t ∈ words.list, t.lexeme ≠ y) :
    ∃ text', Replaced x y text text' ∧
      checkProgram text' 0 = (.ok ⟨Stmt.respellAll (Equiv.swap x y) locals []
        (fun place => decide (place = path)) program, locals⟩, last) ∧
      ∀ fuel,
        SameUpToName ((start readings sink).run fuel text).1
            ((start readings sink).run fuel text').1 ∧
          ((start readings sink).run fuel text').2.written =
            ((start readings sink).run fuel text).2.written := by
  obtain ⟨words, scanned, tree, resolved⟩ := checkProgram_iff.mp accepted
  have accepted₁ : (checkProgram text 0).1 = .ok ⟨program, locals⟩ := by rw [accepted]
  have sound : Sound locals (.ofInput (.statements program)) :=
    (accepts_of_checkProgram accepted).sound fun _ _ => rfl
  -- the new name is used nowhere in the program
  have second : y ∉ Stmt.namesOfAll program := fun among => by
    obtain ⟨t, inside, -, same⟩ := names_program tree among
    exact fresh words scanned t inside same
  -- the old name is that of an identifier
  have first : x ∉ reserved := by
    obtain ⟨t, inside, kind, same⟩ := names_program tree
      (openedAmong_names program path found (variables_subset_names opened declared))
    exact same ▸ wellNamed_tokens scanned t inside kind
  have new := not_reserved_of_lexeme word
  have spares := spares_opened sound found declared second
  let scheme : Scheme := fun place => decide (place = path)
  obtain ⟨list', row, tree'⟩ : ∃ list', RespelledRow (Equiv.swap x y) words.list list' ∧
      Tree 0 list' (.declarations (Stmt.respellAll (Equiv.swap x y) locals [] scheme program))
        last := tree.respell [] scheme
  -- the tokens respelled are those of a text with the names replaced in place
  obtain ⟨text', replaced, scanned'⟩ := tokens_replaced word scanned
    (replaced_of_respelled (fresh words scanned) row)
  have accepted' := checkProgram_iff.mpr ⟨_, scanned', tree',
    (ofProgram_respell first new sound second spares).trans resolved⟩
  refine ⟨text', replaced, accepted', fun fuel => ?_⟩
  exact run_respelled readings sink (spelling_swap first new) spares accepted₁
    (by rw [accepted']) fuel

/-- A variable that a function captures is renamed, and the global of the same name is not. -/
theorem captured_renamed :
    let text := "var a = nil; \x7b var a = true; fun f() \x7b print a; \x7d f(); \x7d"
    ∃ program locals last, checkProgram text 0 = (.ok ⟨program, locals⟩, last) ∧
      ∃ text', Replaced "a" "b" text text' ∧
        checkProgram text' 0 = (.ok ⟨Stmt.respellAll (Equiv.swap "a" "b") locals []
          (fun place => decide (place = [1, 0])) program, locals⟩, last) ∧
        ∀ fuel,
          SameUpToName ((start (fun _ => 0) .unlimited).run fuel text).1
              ((start (fun _ => 0) .unlimited).run fuel text').1 ∧
            ((start (fun _ => 0) .unlimited).run fuel text').2.written =
              ((start (fun _ => 0) .unlimited).run fuel text).2.written := by
  intro text
  have passes : (((checkProgram text 0).1.toOption.bind fun program =>
      Stmt.openedAmong program.tree [1, 0]).any fun opened =>
        opened.variables.contains "a") = true := by decide +kernel
  have unused : ((tokens text).toOption.all fun words =>
      words.list.all fun t => t.lexeme != "b") = true := by decide +kernel
  -- no keyword is spelled like the new name
  have word : Lexeme .identifier ['b'] := by
    have keyword : ∀ entry ∈ keywords, entry.1 ≠ ['b'] := by decide
    exact .identifier (by decide) (List.forall_mem_nil _) fun _ listed => keyword _ listed rfl
  have fresh : ∀ words, tokens text = .ok words → ∀ t ∈ words.list, t.lexeme ≠ "b" := by
    intro words scanned
    rw [scanned] at unused
    simpa [Except.toOption] using unused
  cases checked : checkProgram text 0 with
  | mk result last =>
    rw [checked] at passes
    cases result with
    | error rejection => cases passes
    | ok program =>
      obtain ⟨opened, found, declared⟩ := (Option.any_eq_true ..).mp passes
      exact ⟨program.tree, program.locals, last, rfl, renaming_unobservable _ _ checked found
        (by simpa using declared) word fresh⟩

end ClassScript.Session
