import ClassScript.Proofs.Source.Lines
import ClassScript.Proofs.Syntax.Rename

/-!
# Two texts with a line end between them

A piece that is closed at the end of a text is cut in the same way if a line end and
more text stand behind it (`cut_line`). So a text with a clean scan has its tokens
whatever stands on the lines below, and the tokens of two texts, one below the other,
are those of the first one and those of the second one, further down by the lines of the
first (`tokens_joined`). A keyword in front of a text is a token more (`tokens_print`).
-/

namespace ClassScript.Source

open Syntax

def Token.rename (r : Renaming) (token : Token) : Token :=
  { token with line := r.line token.line }

/-- Each line so many lines further down. -/
def down (lines : Nat) : Renaming := .ofLines (· + lines)

/-! ## Cuts in front of a line end -/

section Line

variable {p : Char → Bool} (more : List Char)

/-- A row that the line end is not part of goes up to it at most. -/
theorem takeWhile_line (line : p '\n' = false) (row : List Char) :
    (row ++ '\n' :: more).takeWhile p = row.takeWhile p := by
  induction row with
  | nil => simp [line]
  | cons c rest ih => simp only [List.cons_append, List.takeWhile_cons, ih]

theorem dropWhile_line (line : p '\n' = false) (row : List Char) :
    (row ++ '\n' :: more).dropWhile p = row.dropWhile p ++ '\n' :: more := by
  induction row with
  | nil => simp [line]
  | cons c rest ih =>
    simp only [List.cons_append, List.dropWhile_cons, ih]
    split <;> rfl

/-- A cut that leaves a line end and more text behind what it leaves. -/
def Cut.above (cut : Cut) : Cut := (cut.1, cut.2 ++ '\n' :: more)

/-- A numeral is cut the same with one more line behind the text. -/
theorem cutNumber_line (first : Char) (rest : List Char) :
    cutNumber first (rest ++ '\n' :: more) = (cutNumber first rest).above more := by
  have digit : Char.isDigit '\n' = false := by decide
  simp only [cutNumber, takeWhile_line more digit, dropWhile_line more digit]
  -- a point is part of the numeral only if a digit follows, and the line end is none
  rcases rest.dropWhile Char.isDigit with - | ⟨c, - | ⟨d, after⟩⟩
  · rfl
  · by_cases point : c = '.'
    · subst point; rfl
    · simp [Cut.above, point]
  · by_cases point : c = '.'
    · subst point
      simp only [List.cons_append, takeWhile_line more digit, dropWhile_line more digit]
      split <;> rfl
    · simp [Cut.above, point]

theorem cutWord_line (first : Char) (rest : List Char) :
    cutWord first (rest ++ '\n' :: more) = (cutWord first rest).above more := by
  have word : isWordRest '\n' = false := by decide
  simp only [cutWord, takeWhile_line more word, dropWhile_line more word, Cut.above]

theorem cutSlash_line (rest : List Char) :
    cutSlash (rest ++ '\n' :: more) = (cutSlash rest).above more := by
  match rest with
  | [] => rfl
  | c :: after =>
    by_cases slash : c = '/'
    · subst slash
      have line : decide ('\n' ≠ '\n') = false := by decide
      have taken := takeWhile_line (p := (· ≠ '\n')) more line ('/' :: after)
      have dropped := dropWhile_line (p := (· ≠ '\n')) more line ('/' :: after)
      simp only [List.cons_append] at taken dropped
      simp only [cutSlash, List.cons_append, taken, dropped, Cut.above]
    · simp [cutSlash, Cut.above, slash]

/-- A string that is closed stays as it is; another one would go on behind the line end. -/
theorem cutString_line {rest : List Char} (closed : '"' ∈ rest) :
    cutString (rest ++ '\n' :: more) = (cutString rest).above more := by
  obtain ⟨inside, after, rfl, opened⟩ := List.eq_append_cons_of_mem closed
  rw [List.append_assoc, List.cons_append, cutString_closed opened, cutString_closed opened]
  rfl

/-- A cut in front of a line end is the same as at the end of the text, unless it is a
string that is never closed. -/
theorem cut_line {first : Char} {rest : List Char}
    (closed : ∀ body, (cut first rest).1 ≠ .unclosed body) :
    cut first (rest ++ '\n' :: more) = (cut first rest).above more := by
  unfold cut at closed ⊢
  cases single : singleKind? first with
  | some kind => rfl
  | none =>
    cases paired : comparisonKinds? first with
    | some kinds =>
      obtain ⟨alone, withEqual⟩ := kinds
      match rest with
      | [] => rfl
      | c :: after =>
        by_cases equal : c = '='
        · subst equal; rfl
        · simp [Cut.above, equal]
    | none =>
      simp only [single, paired] at closed ⊢
      by_cases slash : first = '/'
      · simp only [if_pos slash, cutSlash_line]
      · by_cases blank : isBlank first
        · simp only [if_neg slash, if_pos blank, Cut.above]
        -- only an unclosed string would run into the next line
        · by_cases quote : first = '"'
          · simp only [if_neg slash, if_neg blank, if_pos quote] at closed ⊢
            refine cutString_line more (Decidable.byContradiction fun opened => ?_)
            exact closed _ (congrArg Prod.fst (cutString_unclosed opened))
          · by_cases digit : first.isDigit
            · simp only [if_neg slash, if_neg blank, if_neg quote, if_pos digit, cutNumber_line]
            · by_cases word : isWordStart first
              · simp only [if_neg slash, if_neg blank, if_neg quote, if_neg digit, if_pos word,
                  cutWord_line]
              · simp only [if_neg slash, if_neg blank, if_neg quote, if_neg digit, if_neg word,
                  Cut.above]

/-- The pieces of a text whose strings are all closed stand whatever follows on the lines
below. -/
theorem pieces_line {text : List Char} (closed : ∀ body, .unclosed body ∉ pieces text) :
    pieces (text ++ '\n' :: more) = pieces text ++ .blank '\n' :: pieces more := by
  have segmented := segmented_pieces text
  generalize pieces text = found at segmented closed
  -- piece by piece, as the text is cut
  induction segmented with
  | nil => rw [List.nil_append, pieces_cons]; rfl
  | cons first others ih =>
    obtain ⟨head, tail, rfl⟩ := first.cons
    have cutting := cut_of_takes first
    have here (closed : ∀ body, (cut head tail).1 ≠ .unclosed body) := cut_line more closed
    rw [cutting] at here
    rw [List.cons_append, pieces_cons,
      here fun body same => closed body (same ▸ List.mem_cons_self)]
    refine congrArg (_ :: ·) (ih fun body among => closed body (List.mem_cons_of_mem _ among))

end Line

/-! ## Items in front of others -/

/-- The items of pieces in a row, where the second part begins on the line the first ends on. -/
theorem itemsFrom_append (line : Nat) (first second : List Piece) :
    itemsFrom line (first ++ second) = itemsFrom line first ++
      itemsFrom (line + newlines (first.flatMap Piece.text)) second := by
  induction first generalizing line with
  | nil => simp [itemsFrom, newlines]
  | cons piece rest ih =>
    rw [List.cons_append, itemsFrom, itemsFrom, ih, List.flatMap_cons, newlines_append,
      List.append_assoc, Nat.add_assoc]

/-- Where the pieces begin so many lines further down, so do their items. -/
theorem itemsFrom_down (lines base : Nat) (found : List Piece) : itemsFrom (base + lines) found =
    (itemsFrom base found).map fun item =>
      (item.map (Token.rename (down lines))).mapError fun e => ⟨e.line + lines, e.cause⟩ := by
  induction found generalizing base with
  | nil => rfl
  | cons piece rest ih =>
    rw [itemsFrom, itemsFrom, List.map_append, ← ih, Nat.add_right_comm]
    cases piece <;> rfl

theorem closed_of_clean {found : List Piece} {line : Nat} {list : List Token}
    (items : itemsFrom line found = clean list) (body : List Char) : .unclosed body ∉ found := by
  intro among
  induction found generalizing line list with
  | nil => cases among
  | cons piece rest ih =>
    rw [itemsFrom] at items
    rcases List.mem_cons.mp among with rfl | later
    · cases list <;> simp [Piece.item?, clean] at items
    · obtain ⟨first, others, -, -, items⟩ := List.append_eq_map_iff.mp items
      exact ih items.symm later

/-- The tokens of a text with another one below it. -/
theorem tokens_joined {first second : String} {a b : Tokens} (above : tokens first = .ok a)
    (below : tokens second = .ok b) :
    tokens (first ++ "\n" ++ second) =
      .ok ⟨a.list ++ b.list.map (Token.rename (down (newlines first.toList + 1))),
        b.endLine + (newlines first.toList + 1)⟩ := by
  rw [tokens_iff] at above below ⊢
  obtain ⟨items, line⟩ := above
  obtain ⟨items', line'⟩ := below
  have text : (first ++ "\n" ++ second).toList = first.toList ++ '\n' :: second.toList := by
    simp
  have whole := (segmented_pieces first.toList).text
  constructor
  · rw [text, pieces_line second.toList (closed_of_clean items), itemsFrom_append, whole, items,
      itemsFrom]
    simp only [Piece.text, Piece.item?, Option.toList_none, List.nil_append]
    rw [show newlines ['\n'] = 1 from rfl, Nat.add_assoc, itemsFrom_down, items']
    simp [clean, Except.map, Except.mapError]
  · rw [text, newlines_append, line']
    simp only [newlines, List.count_cons_self]
    omega

/-! ## A word in front of a text -/

/-- A word and a blank in front of a text leave the pieces of the text as they are. -/
theorem pieces_word {first : Char} {word : List Char} (start : isWordStart first)
    (inside : ∀ c ∈ word, isWordRest c) (more : List Char) :
    pieces (first :: word ++ ' ' :: more) =
      .token (wordKind (first :: word)) (first :: word) :: .blank ' ' :: pieces more := by
  have ends : ∀ c ∈ (' ' :: more).head?, ¬ isWordRest c := by
    rintro _ ⟨⟩
    decide
  rw [List.cons_append, pieces_cons, cut_of_word _ (isWordRest_of_start start),
    not_digit_of_start start, if_neg nofun, cutWord, takeWhile_row inside ends,
    dropWhile_row inside ends, pieces_cons]
  rfl

/-- The tokens of a text with `print` in front of it. -/
theorem tokens_print {text : String} {found : Tokens} (scanned : tokens text = .ok found) :
    tokens ("print " ++ text) =
      .ok ⟨⟨.print, "print", 1⟩ :: found.list, found.endLine⟩ := by
  rw [tokens_iff] at scanned ⊢
  obtain ⟨items, line⟩ := scanned
  have whole : ("print " ++ text).toList = 'p' :: ['r', 'i', 'n', 't'] ++ ' ' :: text.toList := by
    rw [String.toList_append]
    rfl
  have inside : ∀ c ∈ ['r', 'i', 'n', 't'], isWordRest c := List.all_eq_true.mp (by decide)
  rw [whole]
  constructor
  · rw [pieces_word (by decide) inside, itemsFrom, itemsFrom]
    exact congrArg (Except.ok _ :: ·) items
  · rw [line, newlines_append]
    simp [newlines]

end ClassScript.Source
