import ClassScript.Proofs.Source.Joined

/-!
# Where tokens and lexical errors stand

Every token of a text is a piece of it, and every lexical error is at a piece: at a
character that begins no token, or at a string that the text ends in. Their lines are those
on which the pieces end, and so lie between the first line of the text and its last one.
-/

namespace ClassScript.Source

/-- The line on which a text ends. -/
def lastLine (text : String) : Nat := 1 + newlines text.toList

/-- The token is a piece of the text, and its line is that on which the piece ends. -/
def Token.StandsIn (token : Token) (text : String) : Prop :=
  ∃ before behind,
    pieces text.toList = before ++ .token token.kind token.lexeme.toList :: behind ∧
      token.line = lineBehind (before ++ [.token token.kind token.lexeme.toList])

/-- The error is at a character that begins no token, and cites its line; or at a string
that is never closed, and cites the line on which the text ends. -/
def LexicalError.StandsIn (error : LexicalError) (text : String) : Prop :=
  match error.cause with
  | .unexpected c => ∃ before behind,
      pieces text.toList = before ++ .stray c :: behind ∧ error.line = lineBehind before
  | .unterminated => ∃ before body,
      pieces text.toList = before ++ [.unclosed body] ∧ error.line = lastLine text

/-- A line of the text. -/
def IsLineOf (line : Nat) (text : String) : Prop := 1 ≤ line ∧ line ≤ lastLine text

/-! ## Lines -/

theorem isLineOf_lastLine (text : String) : IsLineOf (lastLine text) text :=
  ⟨Nat.le_add_right .., Nat.le_refl _⟩

theorem lineBehind_pieces (text : String) : lineBehind (pieces text.toList) = lastLine text := by
  rw [lineBehind, (segmented_pieces text.toList).text, lastLine]

/-- The first pieces of a text end on one of its lines. -/
theorem isLineOf_lineBehind {text : String} {before behind : List Piece}
    (cut : pieces text.toList = before ++ behind) : IsLineOf (lineBehind before) text := by
  refine ⟨Nat.le_add_right .., ?_⟩
  rw [← lineBehind_pieces, cut, lineBehind, lineBehind, List.flatMap_append, newlines_append]
  omega

theorem Token.StandsIn.isLineOf {token : Token} {text : String} (stands : token.StandsIn text) :
    IsLineOf token.line text := by
  obtain ⟨before, behind, cut, line⟩ := stands
  have split : pieces text.toList =
      (before ++ [.token token.kind token.lexeme.toList]) ++ behind := by
    rw [cut, List.append_assoc]
    rfl
  rw [line]
  exact isLineOf_lineBehind split

theorem LexicalError.StandsIn.isLineOf {error : LexicalError} {text : String}
    (stands : error.StandsIn text) : IsLineOf error.line text := by
  obtain ⟨line, cause⟩ := error
  cases cause with
  | unexpected c =>
    obtain ⟨before, behind, cut, rfl⟩ := stands
    exact isLineOf_lineBehind cut
  | unterminated =>
    obtain ⟨before, body, -, rfl⟩ := stands
    exact isLineOf_lastLine text

/-! ## Items -/

/-- An item is what one of the pieces is to a reader, on the line on which it ends. -/
theorem piece_of_item {found : List Piece} {item : Item} {base : Nat}
    (among : item ∈ itemsFrom base found) :
    ∃ before piece behind, found = before ++ piece :: behind ∧
      piece.item? (base + newlines ((before ++ [piece]).flatMap Piece.text)) = some item := by
  induction found generalizing base with
  | nil => cases among
  | cons first rest ih =>
    rw [itemsFrom, List.mem_append] at among
    rcases among with here | later
    · exact ⟨[], first, rest, rfl, by simpa using here⟩
    · obtain ⟨before, piece, behind, rfl, item⟩ := ih later
      refine ⟨first :: before, piece, behind, rfl, ?_⟩
      rwa [List.cons_append, List.flatMap_cons, newlines_append, ← Nat.add_assoc]

theorem Segmented.behind {text : List Char} {before behind : List Piece}
    (segmented : Segmented text (before ++ behind)) :
    ∃ rest, Segmented rest behind := by
  induction before generalizing text with
  | nil => exact ⟨text, segmented⟩
  | cons piece before ih =>
    cases segmented with
    | cons first others => exact ih others

/-- A string that is never closed is the last piece. -/
theorem unclosed_last {text body : List Char} {before behind : List Piece}
    (cut : pieces text = before ++ .unclosed body :: behind) : behind = [] := by
  obtain ⟨rest, segmented⟩ := (cut ▸ segmented_pieces text).behind
  cases segmented with
  | cons first others =>
    cases first
    cases others with
    | nil => rfl
    | cons more _ =>
      obtain ⟨head, tail, none⟩ := more.cons
      cases none

/-- A character that begins no token does not end a line. -/
theorem stray_visible {text : List Char} {c : Char} {before behind : List Piece}
    (cut : pieces text = before ++ .stray c :: behind) : c ≠ '\n' := by
  obtain ⟨rest, segmented⟩ := (cut ▸ segmented_pieces text).behind
  rintro rfl
  cases segmented with
  | cons first others =>
    cases first with
    | stray nothing visible unquoted => exact visible (by decide)

/-- The tokens of a text stand in it, and the text ends where they say. -/
theorem tokens_stand {text : String} {found : Tokens} (scanned : tokens text = .ok found) :
    (∀ token ∈ found.list, token.StandsIn text) ∧ found.endLine = lastLine text := by
  obtain ⟨items, line⟩ := tokens_iff.mp scanned
  refine ⟨fun token among => ?_, line⟩
  have listed : .ok token ∈ itemsFrom 1 (pieces text.toList) := by
    rw [items, clean]
    exact List.mem_map_of_mem among
  obtain ⟨before, piece, behind, cut, item⟩ := piece_of_item listed
  cases piece with
  | token kind shape =>
    cases item
    have same : (String.ofList shape).toList = shape := String.toList_ofList
    exact ⟨before, behind, same.symm ▸ cut, by rw [same]; rfl⟩
  | _ => cases item

/-- The errors of a text that has no tokens are errors in it, and there are some. -/
theorem errors_stand {text : String} {errors : List LexicalError}
    (rejected : tokens text = .error errors) :
    errors ≠ [] ∧ ∀ error ∈ errors, error.StandsIn text := by
  unfold tokens at rejected
  simp only at rejected
  split at rejected
  · cases rejected
  · next some =>
    cases rejected
    refine ⟨some, fun error among => ?_⟩
    obtain ⟨item, listed, same⟩ := List.mem_filterMap.mp among
    rw [(scan_eq text).1] at listed
    obtain ⟨before, piece, behind, cut, item⟩ := piece_of_item listed
    cases piece with
    | token kind shape => cases item; cases same
    | blank c => cases item
    | comment body => cases item
    -- only stray characters and unclosed strings are errors
    | stray c =>
      cases item
      cases same
      refine ⟨before, behind, cut, ?_⟩
      have line : newlines [c] = 0 :=
        List.count_eq_zero_of_not_mem (by simpa using (stray_visible cut).symm)
      simp [lineBehind, newlines_append, Piece.text, line]
    | unclosed body =>
      cases item
      cases same
      obtain rfl := unclosed_last cut
      exact ⟨before, body, cut, by rw [← lineBehind_pieces, cut]; rfl⟩

end ClassScript.Source
