import ClassScript.Proofs.Source.Positions

/-!
# The layout of a text

A lexeme with a blank behind it is cut as it is alone: a longer token would have the blank
inside, which is so of strings only, and a string that begins with the lexeme ends with it
(`takes_spaced`). Blanks and comments give no items and only count their lines
(`items_layout`). So lexemes that are written one behind the other with any layout between
them are scanned as the same tokens, on the lines on which they now stand
(`layout_unobservable`).
-/

namespace ClassScript.Source

/-- Blanks, and comments with the ends of their lines, in any number and order. -/
inductive Layout : List Char → Prop
  | nil : Layout []
  | blank {c rest} (blank : isBlank c) (behind : Layout rest) : Layout (c :: rest)
  | comment {body rest} (line : '\n' ∉ body) (behind : Layout rest) :
      Layout ('/' :: '/' :: body ++ '\n' :: rest)

/-- What may stand between two lexemes: some layout that begins with a blank. -/
def Separator (text : String) : Prop :=
  Layout text.toList ∧ ∃ c rest, text.toList = c :: rest ∧ isBlank c

/-- The lexemes of some tokens one behind the other, with the given texts between them. -/
def laidOut (between : Nat → String) : List Token → String
  | [] => ""
  | [last] => last.lexeme
  | first :: next :: rest =>
    first.lexeme ++ between 0 ++ laidOut (fun i => between (i + 1)) (next :: rest)

/-- The tokens that a reader takes for the same: they differ in their lines at most. -/
structure Token.SameAs (token other : Token) : Prop where
  kind : token.kind = other.kind
  lexeme : token.lexeme = other.lexeme
  contents : token.contents = other.contents
  value : token.value = other.value

/-- Tokens as they are read from the layout: each is the token that was written, and its line
is one more than the newlines of the new text up to the end of its lexeme. -/
structure ReadFrom (between : Nat → String) (written read : List Token) : Prop where
  same : List.Forall₂ Token.SameAs written read
  lines : ∀ i token, read[i]? = some token →
    (laidOut between (written.take (i + 1))).toList <+: (laidOut between written).toList ∧
      token.line = lastLine (laidOut between (written.take (i + 1)))

/-! ## A lexeme in front of a blank -/

section Spaced

variable {kind : Kind} {shape more : List Char} {b : Char}

/-- No token goes on behind a lexeme that a blank follows. -/
theorem Lexeme.longest_spaced (lexeme : Lexeme kind shape) (blank : isBlank b) {other : Kind}
    {longer : List Char} (also : Lexeme other longer) (front : longer <+: shape ++ b :: more) :
    longer.length ≤ shape.length := by
  refine Decidable.byContradiction fun beyond => ?_
  have through : shape ++ [b] <+: longer := by
    refine List.prefix_of_prefix_length_le ⟨more, by simp⟩ front ?_
    rw [List.length_append, List.length_singleton]
    omega
  have inside : b ∈ longer := through.subset (by simp)
  obtain rfl := also.solid blank inside
  obtain ⟨contents, closed, rfl⟩ := also.of_string
  obtain ⟨first, rest, rfl, -⟩ := lexeme.begins
  -- the lexeme is a string then, and closed before the longer one
  rw [List.cons_append, List.cons_append] at through
  obtain ⟨rfl, behind⟩ := List.cons_prefix_cons.mp through
  have within : rest <+: contents := by
    have short : rest.length ≤ contents.length := by simpa using behind.length_le
    exact List.prefix_of_prefix_length_le ((List.prefix_append ..).trans behind)
      (List.prefix_append ..) short
  exact closed (within.subset (lexeme.closed (List.prefix_refl _)))

/-- A lexeme that a blank follows does not begin a comment. -/
theorem Lexeme.code_spaced (lexeme : Lexeme kind shape) (blank : isBlank b) :
    ¬ ['/', '/'] <+: shape ++ b :: more := by
  intro comment
  obtain ⟨first, rest, rfl, -⟩ := lexeme.begins
  rw [List.cons_append] at comment
  obtain ⟨rfl, second⟩ := List.cons_prefix_cons.mp comment
  cases rest with
  | nil =>
    obtain ⟨rfl, -⟩ := List.cons_prefix_cons.mp second
    exact absurd blank (by decide)
  | cons next rest =>
    obtain ⟨rfl, -⟩ := List.cons_prefix_cons.mp second
    have token := lexeme.cut_eq
    rw [show cut '/' ('/' :: rest) = cutSlash ('/' :: rest) from rfl] at token
    cases token

theorem takes_spaced (lexeme : Lexeme kind shape) (blank : isBlank b) :
    Takes (shape ++ b :: more) (.token kind shape) (b :: more) :=
  .token rfl lexeme (fun _ _ also front => lexeme.longest_spaced blank also front)
    (lexeme.code_spaced blank)

end Spaced

/-! ## Items -/

/-- The items of a text are that of its first piece and those of what is left. -/
theorem items_takes {whole rest : List Char} {piece : Piece} (takes : Takes whole piece rest)
    (line : Nat) : itemsFrom line (pieces whole) =
      (piece.item? (line + newlines piece.text)).toList ++
        itemsFrom (line + newlines piece.text) (pieces rest) := by
  obtain ⟨first, others, rfl⟩ := takes.cons
  rw [pieces_cons, cut_of_takes takes, itemsFrom]

/-- Layout gives no items. -/
theorem items_layout {layout : List Char} (laid : Layout layout) (line : Nat) (more : List Char) :
    itemsFrom line (pieces (layout ++ more)) =
      itemsFrom (line + newlines layout) (pieces more) := by
  have blank_items {c : Char} {rest : List Char} (blank : isBlank c) (line : Nat) :
      itemsFrom line (pieces (c :: rest)) = itemsFrom (line + newlines [c]) (pieces rest) :=
    items_takes (.blank blank) line
  induction laid generalizing line with
  | nil => rfl
  | @blank c rest blank _ ih =>
    have lines : newlines (c :: rest) = newlines [c] + newlines rest := newlines_append [c] rest
    rw [List.cons_append, blank_items blank, ih, lines, Nat.add_assoc]
  | @comment body rest inside _ ih =>
    have lines : newlines ('\n' :: rest) = newlines ['\n'] + newlines rest :=
      newlines_append ['\n'] rest
    have takes : Takes ('/' :: '/' :: body ++ '\n' :: (rest ++ more))
        (.comment ('/' :: '/' :: body)) ('\n' :: (rest ++ more)) :=
      .comment rfl inside (by rintro _ ⟨⟩; rfl)
    have found := items_takes takes line
    simp only [Piece.item?, Piece.text, Option.toList_none, List.nil_append] at found
    rw [List.append_assoc, show '\n' :: rest ++ more = '\n' :: (rest ++ more) from rfl, found,
      blank_items (by decide), ih, newlines_append, lines, Nat.add_assoc, Nat.add_assoc]

/-- A lexeme with nothing behind it is the one token that it is. -/
theorem items_lexeme {kind : Kind} {shape : List Char} (lexeme : Lexeme kind shape) (line : Nat) :
    itemsFrom line (pieces shape) =
      [.ok ⟨kind, String.ofList shape, line + newlines shape⟩] := by
  obtain ⟨first, rest, rfl, -⟩ := lexeme.begins
  rw [pieces_cons, lexeme.cut_eq]
  rfl

/-- A lexeme with a separator behind it is the one token that it is. -/
theorem items_spaced {kind : Kind} {shape : List Char} {separator : String}
    (lexeme : Lexeme kind shape) (separates : Separator separator) (line : Nat)
    (more : List Char) :
    itemsFrom line (pieces (shape ++ (separator.toList ++ more))) =
      .ok ⟨kind, String.ofList shape, line + newlines shape⟩ ::
        itemsFrom (line + newlines shape + newlines separator.toList) (pieces more) := by
  obtain ⟨layout, b, rest, starts, blank⟩ := separates
  have takes : Takes (shape ++ (separator.toList ++ more)) (.token kind shape)
      (separator.toList ++ more) := by
    rw [starts]
    exact takes_spaced lexeme blank
  rw [items_takes takes, items_layout layout]
  rfl

/-! ## Lexemes that are laid out -/

/-- Some tokens with the lines on which they are read when they are laid out from a line on. -/
def placed (between : Nat → String) (line : Nat) : List Token → List Token
  | [] => []
  | first :: rest =>
    { first with line := line + newlines first.lexeme.toList } ::
      placed (fun i => between (i + 1))
        (line + newlines first.lexeme.toList + newlines (between 0).toList) rest

section LaidOut

variable (between : Nat → String)

theorem toList_laidOut (first next : Token) (rest : List Token) :
    (laidOut between (first :: next :: rest)).toList = first.lexeme.toList ++
      ((between 0).toList ++ (laidOut (fun i => between (i + 1)) (next :: rest)).toList) := by
  rw [laidOut, String.toList_append, String.toList_append, List.append_assoc]

/-- The first lexemes stand at the front of the text. -/
theorem laidOut_take (list : List Token) (count : Nat) :
    (laidOut between (list.take count)).toList <+: (laidOut between list).toList := by
  induction list generalizing between count with
  | nil => simp
  | cons first rest ih =>
    match rest, count with
    | _, 0 => simp [laidOut]
    | [], count + 1 => simp
    | next :: rest, 1 =>
      rw [toList_laidOut]
      exact List.prefix_append ..
    | next :: rest, count + 2 =>
      have later := ih (fun i => between (i + 1)) (count + 1)
      rw [List.take_succ_cons] at later
      rw [List.take_succ_cons, List.take_succ_cons, toList_laidOut, toList_laidOut]
      exact (List.prefix_append_right_inj _).mpr ((List.prefix_append_right_inj _).mpr later)

/-- A token is read on the line on which the lexemes up to it end. -/
theorem getElem?_placed (line : Nat) (list : List Token) (i : Nat) :
    (placed between line list)[i]? = (list[i]?).map fun token =>
      { token with line := line + newlines (laidOut between (list.take (i + 1))).toList } := by
  induction list generalizing between line i with
  | nil => rfl
  | cons first rest ih =>
    cases i with
    | zero => rfl
    | succ i =>
      rw [placed, List.getElem?_cons_succ, ih, List.getElem?_cons_succ]
      cases rest with
      | nil => rfl
      | cons next rest =>
        simp only [List.take_succ_cons, toList_laidOut, newlines_append, Nat.add_assoc]

theorem sameAs_placed (line : Nat) (list : List Token) :
    List.Forall₂ Token.SameAs list (placed between line list) := by
  induction list generalizing between line with
  | nil => exact .nil
  | cons first rest ih => exact .cons ⟨rfl, rfl, rfl, rfl⟩ (ih _ _)

/-- Lexemes with separators between them are read as the tokens that they are. -/
theorem items_laidOut {list : List Token}
    (lexemes : ∀ token ∈ list, Lexeme token.kind token.lexeme.toList)
    (separators : ∀ i, i + 1 < list.length → Separator (between i)) (line : Nat) :
    itemsFrom line (pieces (laidOut between list).toList) = clean (placed between line list) := by
  induction list generalizing between line with
  | nil => rfl
  | cons first rest ih =>
    have lexeme := lexemes first List.mem_cons_self
    have item : (⟨first.kind, String.ofList first.lexeme.toList,
        line + newlines first.lexeme.toList⟩ : Token) =
          { first with line := line + newlines first.lexeme.toList } := by
      rw [String.ofList_toList]
    cases rest with
    | nil =>
      rw [laidOut, items_lexeme lexeme, item]
      rfl
    | cons next rest =>
      have separator : Separator (between 0) := separators 0 (by simp)
      -- the rest begins on the line on which the separator ends
      have later := ih (fun i => between (i + 1))
        (fun token among => lexemes token (List.mem_cons_of_mem _ among))
        (fun i inside => separators (i + 1) (Nat.succ_lt_succ inside))
        (line + newlines first.lexeme.toList + newlines (between 0).toList)
      rw [toList_laidOut, items_spaced lexeme separator, later, item]
      rfl

end LaidOut

/-- The layout of a text makes no difference to its tokens: with other separators between them,
the lexemes of a text are scanned without errors as the same tokens, each on the line on which
its lexeme now ends. The end of the text is on the line on which the new text ends. -/
theorem layout_unobservable {text : String} {found : Tokens} (scanned : tokens text = .ok found)
    (between : Nat → String)
    (separators : ∀ i, i + 1 < found.list.length → Separator (between i)) :
    ∃ again, tokens (laidOut between found.list) = .ok again ∧
      ReadFrom between found.list again.list ∧
        again.endLine = lastLine (laidOut between found.list) := by
  have lexemes : ∀ token ∈ found.list, Lexeme token.kind token.lexeme.toList :=
    fun _ => lexeme_of_tokens scanned
  have items := items_laidOut between lexemes separators 1
  refine ⟨⟨placed between 1 found.list, lastLine (laidOut between found.list)⟩,
    tokens_iff.mpr ⟨items, rfl⟩, ⟨sameAs_placed .., ?_⟩, rfl⟩
  intro i token at_i
  rw [getElem?_placed] at at_i
  obtain ⟨written, -, rfl⟩ := Option.map_eq_some_iff.mp at_i
  exact ⟨laidOut_take .., rfl⟩

/-- Three lexemes that stood side by side, with a comment between the first two of them. -/
theorem comparison_unobservable : ∃ found, tokens "a==\"//\"" = .ok found ∧
    laidOut (fun i => if i = 0 then " // =\n" else "\t") found.list = "a // =\n==\t\"//\"" ∧
    ∃ again, tokens "a // =\n==\t\"//\"" = .ok again ∧
      ReadFrom (fun i => if i = 0 then " // =\n" else "\t") found.list again.list ∧
        again.endLine = lastLine "a // =\n==\t\"//\"" := by
  have scanned : tokens "a==\"//\"" = .ok ⟨[⟨.identifier, "a", 1⟩, ⟨.equalEqual, "==", 1⟩,
      ⟨.string, "\"//\"", 1⟩], 1⟩ := by decide +kernel
  have comment : Layout [' ', '/', '/', ' ', '=', '\n'] :=
    .blank (by decide) (.comment (by decide : '\n' ∉ [' ', '=']) .nil)
  have separators (i : Nat) : Separator (if i = 0 then " // =\n" else "\t") := by
    cases i with
    | zero => exact ⟨comment, ' ', _, rfl, by decide⟩
    | succ i =>
      rw [if_neg (Nat.succ_ne_zero i)]
      exact ⟨.blank (by decide) .nil, '\t', [], rfl, by decide⟩
  exact ⟨_, scanned, by decide, layout_unobservable scanned _ fun i _ => separators i⟩

end ClassScript.Source
