import ClassScript.Proofs.Source.Lexeme
import ClassScript.Source.Token

/-!
# Tokens and errors with their lines

A scan gives one item for every piece that is a token or an error, with the line on
which the piece ends: one more than the newlines of the text up to there (`items_scan`).
A text has tokens if none of its items is an error (`tokens_iff`), and each of them is a
lexeme (`lexeme_of_tokens`).
-/

namespace ClassScript.Source

/-- A token or an error. -/
abbrev Item := Except LexicalError Token

/-- What a piece that ends on the given line is to a reader: a token, an error, or
nothing. -/
def Piece.item? (line : Nat) : Piece → Option Item
  | .token kind text => some (.ok ⟨kind, String.ofList text, line⟩)
  | .blank _ | .comment _ => none
  | .stray c => some (.error ⟨line, .unexpected c⟩)
  | .unclosed _ => some (.error ⟨line, .unterminated⟩)

/-- The items of some pieces, where the first one begins on the given line. -/
def itemsFrom : Nat → List Piece → List Item
  | _, [] => []
  | line, piece :: rest =>
    (piece.item? (line + newlines piece.text)).toList ++
      itemsFrom (line + newlines piece.text) rest

/-- The line on which the first pieces of a text end. -/
def lineBehind (found : List Piece) : Nat := 1 + newlines (found.flatMap Piece.text)

/-- The items of a text's pieces: each piece's line is one more than the newlines of
the text up to its end. -/
def itemsOf (found : List Piece) : List Item :=
  (List.range found.length).filterMap fun i =>
    (found[i]?).bind fun piece => piece.item? (lineBehind (found.take (i + 1)))

theorem newlines_append (a b : List Char) : newlines (a ++ b) = newlines a + newlines b :=
  List.count_append

theorem add_items (scan : Scan) (piece : Piece) :
    (scan.add piece).items.toList =
      scan.items.toList ++ (piece.item? (scan.line + newlines piece.text)).toList := by
  cases piece <;> simp [Scan.add, Piece.item?]

theorem add_line (scan : Scan) (piece : Piece) :
    (scan.add piece).line = scan.line + newlines piece.text := by
  cases piece <;> rfl

theorem foldl_add (found : List Piece) (scan : Scan) :
    (found.foldl Scan.add scan).items.toList = scan.items.toList ++ itemsFrom scan.line found ∧
      (found.foldl Scan.add scan).line = scan.line + newlines (found.flatMap Piece.text) := by
  induction found generalizing scan with
  | nil => simp [itemsFrom, newlines]
  | cons piece rest ih =>
    obtain ⟨items, line⟩ := ih (scan.add piece)
    rw [add_items, add_line] at items
    rw [add_line] at line
    rw [List.foldl_cons, items, line, List.flatMap_cons, newlines_append, itemsFrom,
      List.append_assoc, Nat.add_assoc]
    exact ⟨rfl, rfl⟩

/-- A scan gives the items of the pieces with their lines, and ends on the last line. -/
theorem scan_eq (text : String) :
    (scan text).items.toList = itemsFrom 1 (pieces text.toList) ∧
      (scan text).line = 1 + newlines text.toList := by
  obtain ⟨items, line⟩ := foldl_add (pieces text.toList) .start
  rw [(segmented_pieces text.toList).text] at line
  exact ⟨items, line⟩

/-- Counting lines from piece to piece is counting the newlines up to each piece's end. -/
theorem itemsFrom_eq (found : List Piece) (base : Nat) :
    itemsFrom base found = (List.range found.length).filterMap fun i =>
      (found[i]?).bind fun piece =>
        piece.item? (base + newlines ((found.take (i + 1)).flatMap Piece.text)) := by
  induction found generalizing base with
  | nil => rfl
  | cons piece rest ih =>
    rw [itemsFrom, ih, List.length_cons, List.range_succ_eq_map, List.filterMap_cons,
      List.filterMap_map]
    have later : ((fun i => ((piece :: rest)[i]?).bind fun other => other.item?
          (base + newlines (((piece :: rest).take (i + 1)).flatMap Piece.text))) ∘ Nat.succ) =
        fun i => (rest[i]?).bind fun other => other.item?
          (base + newlines piece.text + newlines ((rest.take (i + 1)).flatMap Piece.text)) := by
      funext i
      simp [newlines_append, Nat.add_assoc]
    rw [later]
    simp only [List.getElem?_cons_zero, Option.bind_some, Nat.zero_add, List.take_succ_cons,
      List.take_zero, List.flatMap_cons, List.flatMap_nil, List.append_nil]
    cases piece.item? (base + newlines piece.text) <;> rfl

/-- The items of a scan are those of the text's pieces. -/
theorem items_scan (text : String) : (scan text).items.toList = itemsOf (pieces text.toList) := by
  rw [(scan_eq text).1, itemsFrom_eq]
  rfl

/-! ## Texts without errors -/

/-- The items of a scan without errors. -/
def clean (found : List Token) : List Item := found.map .ok

/-- A scan without errors that gives some tokens has these and nothing else as its items. -/
theorem clean_iff {scan : Scan} {list : List Token} :
    scan.errors = [] ∧ scan.tokenList = list ↔ scan.items.toList = clean list := by
  simp only [Scan.errors, Scan.tokenList]
  generalize scan.items.toList = items
  induction items generalizing list with
  | nil => cases list <;> simp [clean]
  | cons item rest ih =>
    cases item with
    | error e => cases list <;> simp [clean]
    | ok token =>
      cases list with
      | nil => simp [clean]
      | cons first others =>
        have later := @ih others
        simp only [clean, List.map_cons, List.cons.injEq, Except.ok.injEq] at later ⊢
        rw [← later]
        simp only [List.filterMap_cons, List.cons.injEq]
        exact and_left_comm

/-- A text has tokens if its pieces are tokens, blanks and comments only. -/
theorem tokens_iff {text : String} {found : Tokens} : tokens text = .ok found ↔
    itemsFrom 1 (pieces text.toList) = clean found.list ∧
      found.endLine = 1 + newlines text.toList := by
  obtain ⟨items, line⟩ := scan_eq text
  obtain ⟨list, endLine⟩ := found
  rw [← items, ← line, ← clean_iff]
  unfold tokens
  generalize scan text = found
  simp only
  split
  · next none =>
    simp only [none, true_and, Except.ok.injEq, Tokens.mk.injEq]
    exact and_congr_right fun _ => eq_comm
  · next some => exact ⟨nofun, fun same => (some same.1.1).elim⟩

/-! ## Tokens as lexemes -/

/-- A token among the items is one of the pieces. -/
theorem mem_itemsFrom {token : Token} {line : Nat} {found : List Piece}
    (among : .ok token ∈ itemsFrom line found) :
    .token token.kind token.lexeme.toList ∈ found := by
  induction found generalizing line with
  | nil => cases among
  | cons piece rest ih =>
    rw [itemsFrom, List.mem_append] at among
    rcases among with here | later
    · cases piece <;> simp only [Piece.item?, Option.toList_some, Option.toList_none,
        List.mem_singleton, List.not_mem_nil, Except.ok.injEq, reduceCtorEq] at here
      subst here
      simp
    · exact List.mem_cons_of_mem _ (ih later)

theorem lexeme_of_item {text : String} {token : Token}
    (among : .ok token ∈ (scan text).items.toList) : Lexeme token.kind token.lexeme.toList := by
  rw [(scan_eq text).1] at among
  exact (segmented_pieces text.toList).lexeme (mem_itemsFrom among)

/-- The tokens of a text are lexemes. -/
theorem lexeme_of_tokens {text : String} {found : Tokens} (scanned : tokens text = .ok found)
    {token : Token} (among : token ∈ found.list) : Lexeme token.kind token.lexeme.toList := by
  obtain ⟨items, -⟩ := tokens_iff.mp scanned
  have listed : .ok token ∈ itemsFrom 1 (pieces text.toList) := by
    rw [items, clean]
    exact List.mem_map_of_mem among
  exact (segmented_pieces text.toList).lexeme (mem_itemsFrom listed)

end ClassScript.Source
