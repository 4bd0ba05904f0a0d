import ClassScript.Proofs.Source.Joined

/-!
# Identifiers that are replaced in a text

Where some identifiers of a text are replaced by another identifier, all other pieces of it
are cut as before: a piece ends where it did as long as the text behind it begins alike, and
two words do (`cut_similar`). So the tokens of the new text are those of the old one with the
identifiers replaced, on the same lines (`tokens_replaced`).
-/

namespace ClassScript.Source

section Definitions

variable (x y : String)

/-- The piece, or the one identifier in place of the other. -/
def Piece.Replaced (piece piece' : Piece) : Prop :=
  piece' = piece ∨
    piece = .token .identifier x.toList ∧ piece' = .token .identifier y.toList

def Token.Replaced (token token' : Token) : Prop :=
  token' = token ∨
    token.kind = .identifier ∧ token.lexeme = x ∧ token' = { token with lexeme := y }

/-- The text with the one identifier in place of the other at some of the places where that
stands; all that stands between is kept. -/
def Replaced (text text' : String) : Prop :=
  List.Forall₂ (Piece.Replaced x y) (pieces text.toList) (pieces text'.toList)

end Definitions

/-! ## Texts that begin alike -/

/-- The texts are the same up to a place where both have a word, or as a whole. -/
inductive Similar : List Char → List Char → Prop
  | nil : Similar [] []
  | cons (c : Char) {rest rest'} (behind : Similar rest rest') : Similar (c :: rest) (c :: rest')
  | word {c c' rest rest'} (start : isWordStart c) (start' : isWordStart c') :
      Similar (c :: rest) (c' :: rest')

section Similar

variable {text text' : List Char}

theorem Similar.append (similar : Similar text text') (row : List Char) :
    Similar (row ++ text) (row ++ text') := by
  induction row with
  | nil => exact similar
  | cons c rest ih => exact .cons c ih

/-- What cannot stand in front of the one text cannot stand in front of the other, where it
makes no difference between words. -/
theorem Similar.head (similar : Similar text text') {p : Char → Bool}
    (uniform : ∀ c c', isWordStart c → isWordStart c' → p c = p c')
    (ends : ∀ c ∈ text.head?, ¬ p c) : ∀ c ∈ text'.head?, ¬ p c := by
  cases similar with
  | nil => nofun
  | cons c behind => exact ends
  | @word c c' _ _ start start' =>
    rintro _ ⟨⟩
    rw [uniform c' c start' start]
    exact ends c rfl

/-- A character that begins no word. -/
theorem uniform_of_plain {p : Char → Bool} (plain : ∀ c, isWordStart c → p c = false) (c c' : Char)
    (start : isWordStart c) (start' : isWordStart c') : p c = p c' := by
  rw [plain c start, plain c' start']

theorem uniform_digit (c c' : Char) (start : isWordStart c) (start' : isWordStart c') :
    c.isDigit = c'.isDigit :=
  uniform_of_plain (fun _ => not_digit_of_start) c c' start start'

theorem uniform_word (c c' : Char) (start : isWordStart c) (start' : isWordStart c') :
    isWordRest c = isWordRest c' := by
  rw [isWordRest_of_start start, isWordRest_of_start start']

theorem uniform_char {other : Char} (plain : ¬ isWordStart other) (c c' : Char)
    (start : isWordStart c) (start' : isWordStart c') :
    decide (c ≠ other) = decide (c' ≠ other) := by
  have differs {c : Char} (start : isWordStart c) : decide (c ≠ other) = true := by
    rw [decide_eq_true_iff]
    rintro rfl
    exact plain start
  rw [differs start, differs start']

/-- Texts that begin alike both have a fraction in front, or neither has. -/
theorem Similar.noFraction (similar : Similar text text') (ends : NoFraction text) :
    NoFraction text' := by
  rintro d after rfl
  cases similar with
  | cons _ behind =>
    cases behind with
    | cons _ => exact ends d _ rfl
    | word _ start => exact not_digit_of_start start
  | word _ start => exact absurd start (by decide)

end Similar

/-! ## Cuts in front of texts that begin alike -/

section Cuts

variable {first : Char} {more rest rest' : List Char} {piece : Piece}

/-- A numeral ends where it did. -/
theorem cutNumber_similar (cutting : cutNumber first (more ++ rest) = (piece, rest))
    (whole : piece.text = first :: more) (similar : Similar rest rest') :
    cutNumber first (more ++ rest') = (piece, rest') := by
  rcases numeral_cases (more ++ rest) with ⟨row, after, split, digits, ends, fraction⟩ |
    ⟨row, next, fraction, after, split, digits, behind, ends⟩
  · rw [split, cutNumber_integer digits ends fraction] at cutting
    obtain ⟨rfl, rfl⟩ := Prod.mk.inj cutting
    obtain rfl : row = more := (List.cons.inj whole).2
    exact cutNumber_integer digits (similar.head uniform_digit ends)
      (similar.noFraction fraction) first
  · rw [split, cutNumber_decimal digits behind ends] at cutting
    obtain ⟨rfl, rfl⟩ := Prod.mk.inj cutting
    obtain rfl : row ++ '.' :: next :: fraction = more := (List.cons.inj whole).2
    rw [List.append_assoc]
    exact cutNumber_decimal digits behind (similar.head uniform_digit ends) first

theorem cutWord_row {rest : List Char} (inside : ∀ c ∈ more, isWordRest c)
    (ends : ∀ c ∈ rest.head?, ¬ isWordRest c) (first : Char) :
    cutWord first (more ++ rest) = (.token (wordKind (first :: more)) (first :: more), rest) := by
  rw [cutWord, takeWhile_row inside ends, dropWhile_row inside ends]

/-- A word ends in front of what is no part of a word. -/
theorem cutWord_ends (cutting : cutWord first (more ++ rest) = (piece, rest))
    (whole : piece.text = first :: more) :
    (∀ c ∈ more, isWordRest c) ∧ ∀ c ∈ rest.head?, ¬ isWordRest c := by
  obtain ⟨rfl, same⟩ := Prod.mk.inj cutting
  obtain ⟨-, row⟩ := List.cons.inj whole
  rw [← row, ← same]
  exact ⟨fun _ => mem_takeWhile, fun _ => head_dropWhile⟩

/-- A word is cut the same in front of a text that begins alike. -/
theorem cutWord_similar (cutting : cutWord first (more ++ rest) = (piece, rest))
    (whole : piece.text = first :: more) (similar : Similar rest rest') :
    cutWord first (more ++ rest') = (piece, rest') := by
  obtain ⟨inside, ends⟩ := cutWord_ends cutting whole
  rw [cutWord_row inside ends] at cutting
  rw [cutWord_row inside (similar.head uniform_word ends), (Prod.mk.inj cutting).1]

/-- A comment ends at the end of its line, and a slash alone has no other behind it. -/
theorem cutSlash_similar (cutting : cutSlash (more ++ rest) = (piece, rest))
    (whole : piece.text = '/' :: more) (similar : Similar rest rest') :
    cutSlash (more ++ rest') = (piece, rest') := by
  unfold cutSlash at cutting
  split at cutting
  · next after second =>
    obtain ⟨rfl, same⟩ := Prod.mk.inj cutting
    obtain ⟨-, row⟩ := List.cons.inj whole
    have inside : ∀ c ∈ more, decide (c ≠ '\n') := by
      rw [← row]
      exact fun _ => mem_takeWhile
    have ends : ∀ c ∈ rest'.head?, ¬ decide (c ≠ '\n') := by
      refine similar.head (uniform_char (by decide)) ?_
      rw [← same]
      exact fun _ => head_dropWhile
    cases more with
    | nil =>
      -- the second slash is part of the comment
      rw [List.nil_append] at second row
      rw [second] at row
      cases row
    | cons c more =>
      obtain rfl := (List.cons.inj second).1
      have taken := takeWhile_row inside ends
      have dropped := dropWhile_row inside ends
      rw [List.cons_append] at taken dropped ⊢
      rw [cutSlash, taken, dropped, row]
  · next alone =>
    obtain ⟨rfl, same⟩ := Prod.mk.inj cutting
    obtain ⟨-, rfl⟩ := List.cons.inj whole.symm
    have ends : ∀ c ∈ rest'.head?, ¬ decide (c = '/') := by
      refine similar.head (uniform_of_plain fun c start => ?_) ?_
      · rw [decide_eq_false_iff_not]
        rintro rfl
        exact absurd start (by decide)
      · intro c front slash
        obtain rfl := of_decide_eq_true slash
        obtain ⟨after, rfl⟩ := List.head?_eq_some_iff.mp front
        exact alone after rfl
    unfold cutSlash
    split
    · next after front =>
      exact absurd (decide_eq_true rfl) (ends '/' (List.head?_eq_some_iff.mpr ⟨after, front⟩))
    · rfl

/-- A string ends at its closing quote, whatever follows. -/
theorem cutString_similar (cutting : cutString (more ++ rest) = (piece, rest))
    (whole : piece.text = '"' :: more) (closed : ∀ body, piece ≠ .unclosed body)
    (rest' : List Char) : cutString (more ++ rest') = (piece, rest') := by
  by_cases quoted : '"' ∈ more ++ rest
  · obtain ⟨inside, after, split, opened⟩ := List.eq_append_cons_of_mem quoted
    rw [split, cutString_closed opened] at cutting
    obtain ⟨rfl, rfl⟩ := Prod.mk.inj cutting
    obtain rfl : inside ++ ['"'] = more := (List.cons.inj whole).2
    rw [List.append_assoc]
    exact cutString_closed opened rest'
  · rw [cutString_unclosed quoted] at cutting
    exact absurd (Prod.mk.inj cutting).1.symm (closed _)

/-- A piece ends where it did if the text behind it begins alike. -/
theorem cut_similar (cutting : cut first (more ++ rest) = (piece, rest))
    (whole : piece.text = first :: more) (closed : ∀ body, piece ≠ .unclosed body)
    (similar : Similar rest rest') : cut first (more ++ rest') = (piece, rest') := by
  -- a piece of one character, whatever follows
  have single (piece' : Piece) (alone : ∀ rest, cut first rest = (piece', rest)) :
      cut first (more ++ rest') = (piece, rest') := by
    rw [alone] at cutting ⊢
    obtain ⟨rfl, same⟩ := Prod.mk.inj cutting
    rw [List.append_left_eq_self] at same
    rw [same, List.nil_append]
  cases one : singleKind? first with
  | some kind => exact single (.token kind [first]) fun rest => by simp only [cut, one]
  | none =>
  cases two : comparisonKinds? first with
  | some kinds =>
    obtain ⟨alone, paired⟩ := kinds
    simp only [cut, one, two] at cutting ⊢
    split at cutting
    · next after equals =>
      obtain ⟨rfl, rfl⟩ := Prod.mk.inj cutting
      obtain rfl : ['='] = more := (List.cons.inj whole).2
      rfl
    · next other =>
      obtain ⟨rfl, same⟩ := Prod.mk.inj cutting
      rw [List.append_left_eq_self] at same
      subst same
      have ends : ∀ c ∈ rest'.head?, ¬ decide (c = '=') := by
        refine similar.head (uniform_of_plain fun c start => ?_) ?_
        · rw [decide_eq_false_iff_not]
          rintro rfl
          exact absurd start (by decide)
        · intro c front equals
          obtain rfl := of_decide_eq_true equals
          obtain ⟨after, rfl⟩ := List.head?_eq_some_iff.mp front
          exact other after rfl
      rw [List.nil_append]
      split
      · next after => exact absurd (decide_eq_true rfl) (ends '=' rfl)
      · rfl
  | none =>
  by_cases slash : first = '/'
  · subst slash
    exact cutSlash_similar cutting whole similar
  by_cases blank : isBlank first
  · exact single (.blank first) fun rest => by
      simp only [cut, one, two, if_neg slash, if_pos blank]
  by_cases quote : first = '"'
  · subst quote
    exact cutString_similar cutting whole closed rest'
  by_cases digit : first.isDigit
  · simp only [cut, one, two, if_neg slash, if_neg blank, if_neg quote, if_pos digit] at cutting ⊢
    exact cutNumber_similar cutting whole similar
  by_cases start : isWordStart first
  · simp only [cut, one, two, if_neg slash, if_neg blank, if_neg quote, if_neg digit,
      if_pos start] at cutting ⊢
    exact cutWord_similar cutting whole similar
  · exact single (.stray first) fun rest => by
      simp only [cut, one, two, if_neg slash, if_neg blank, if_neg quote, if_neg digit,
        if_neg start]

end Cuts

/-! ## Pieces -/

section Pieces

variable {rest rest' word : List Char} {piece : Piece}

/-- What is taken from a text is taken from one that goes on alike. -/
theorem Takes.similar (takes : Takes (piece.text ++ rest) piece rest)
    (closed : ∀ body, piece ≠ .unclosed body) (similar : Similar rest rest') :
    Takes (piece.text ++ rest') piece rest' := by
  obtain ⟨first, others, shape⟩ := takes.cons
  rw [shape] at takes
  have cutting := cut_of_takes takes
  obtain ⟨more, front⟩ := first_cut first others
  rw [cutting] at front
  have front : piece.text = first :: more := front
  obtain rfl : more ++ rest = others := by
    rw [front, List.cons_append] at shape
    exact (List.cons.inj shape).2
  have found := takes_cut first (more ++ rest')
  rwa [cut_similar cutting front closed similar, ← List.cons_append, ← front] at found

/-- An identifier is taken in front of what is no part of a word, and only there. -/
theorem takes_identifier_iff (lexeme : Lexeme .identifier word) :
    Takes (word ++ rest) (.token .identifier word) rest ↔ ∀ c ∈ rest.head?, ¬ isWordRest c := by
  obtain ⟨first, more, rfl, start, inside, kind⟩ := lexeme.of_identifier
  have cutting (behind : List Char) : cut first behind = cutWord first behind := by
    rw [cut_of_word behind (isWordRest_of_start start), not_digit_of_start start, if_neg nofun]
  constructor
  · intro takes
    have found := cut_of_takes takes
    rw [cutting] at found
    exact (cutWord_ends found rfl).2
  · intro ends
    have found := takes_cut first (more ++ rest)
    rwa [cutting, cutWord_row inside ends, kind] at found

end Pieces

/-! ## Whole texts -/

/-- Pieces of a text, and those of another one with some identifiers replaced, which has the
given items where it begins on the given line. -/
structure Recut (x y : String) (line : Nat) (items : List Item) (text : List Char)
    (found : List Piece) (text' : List Char) (found' : List Piece) : Prop where
  segmented : Segmented text' found'
  alike : List.Forall₂ (Piece.Replaced x y) found found'
  items : itemsFrom line found' = items
  lines : newlines text' = newlines text
  similar : Similar text text'

namespace Recut

variable {x y : String} {line : Nat} {items : List Item} {rest rest' : List Char}
  {more more' : List Piece}

/-- A piece is kept in front of what is cut anew. -/
theorem keep {piece : Piece} (takes : Takes (piece.text ++ rest) piece rest)
    (closed : ∀ body, piece ≠ .unclosed body)
    (behind : Recut x y (line + newlines piece.text) items rest more rest' more') :
    Recut x y line ((piece.item? (line + newlines piece.text)).toList ++ items)
      (piece.text ++ rest) (piece :: more) (piece.text ++ rest') (piece :: more') where
  segmented := .cons (takes.similar closed behind.similar) behind.segmented
  alike := .cons (.inl rfl) behind.alike
  items := by rw [itemsFrom, behind.items]
  lines := by rw [newlines_append, newlines_append, behind.lines]
  similar := behind.similar.append _

/-- An identifier is replaced in front of what is cut anew. -/
theorem replace (lexeme : Lexeme .identifier x.toList) (word : Lexeme .identifier y.toList)
    (takes : Takes (x.toList ++ rest) (.token .identifier x.toList) rest)
    (behind : Recut x y line items rest more rest' more') :
    Recut x y line (.ok ⟨.identifier, y, line⟩ :: items) (x.toList ++ rest)
      (.token .identifier x.toList :: more) (y.toList ++ rest')
      (.token .identifier y.toList :: more') where
  segmented := by
    have ends := (takes_identifier_iff lexeme).mp takes
    exact .cons ((takes_identifier_iff word).mpr (behind.similar.head uniform_word ends))
      behind.segmented
  alike := .cons (.inr ⟨rfl, rfl⟩) behind.alike
  items := by
    rw [itemsFrom, Piece.text, word.newlines_eq_zero (by decide), Nat.add_zero, behind.items,
      Piece.item?, String.ofList_toList]
    rfl
  lines := by
    rw [newlines_append, newlines_append, word.newlines_eq_zero (by decide),
      lexeme.newlines_eq_zero (by decide), behind.lines]
  similar := by
    obtain ⟨c, others, front, start, -⟩ := lexeme.of_identifier
    obtain ⟨c', others', front', start', -⟩ := word.of_identifier
    rw [front, front']
    exact .word start start'

end Recut

section Texts

variable {x y : String} (word : Lexeme .identifier y.toList)
include word

/-- The pieces of a text with some of its identifiers replaced. -/
theorem recut_of_segmented {text : List Char} {found : List Piece} {line : Nat}
    {list list' : List Token} (segmented : Segmented text found)
    (items : itemsFrom line found = clean list)
    (replaced : List.Forall₂ (Token.Replaced x y) list list') :
    ∃ text' found', Recut x y line (clean list') text found text' found' := by
  induction segmented generalizing line list list' with
  | nil =>
    cases list with
    | cons => cases items
    | nil =>
      cases replaced
      exact ⟨[], [], .nil, .nil, rfl, rfl, .nil⟩
  | @cons whole piece rest more first others ih =>
    obtain rfl : piece.text ++ rest = whole := first.text
    rw [itemsFrom] at items
    cases piece with
    | stray c => cases list <;> simp [Piece.item?, clean] at items
    | unclosed body => cases list <;> simp [Piece.item?, clean] at items
    -- blanks and comments are kept; of the tokens only the replaced names change
    | blank c | comment body =>
      obtain ⟨rest', more', behind⟩ := ih items replaced
      exact ⟨_, _, behind.keep first (by simp)⟩
    | token kind shape =>
      cases replaced with
      | nil => simp [Piece.item?, clean] at items
      | @cons token token' list list' here later =>
        obtain ⟨same, left⟩ := List.cons.inj items
        obtain rfl := (Except.ok.inj same).symm
        obtain ⟨rest', more', behind⟩ := ih left later
        rcases here with rfl | ⟨isName, spelling, rfl⟩
        · exact ⟨_, _, behind.keep first (by simp)⟩
        · obtain rfl : kind = .identifier := isName
          obtain rfl : shape = x.toList := by rw [← spelling, String.toList_ofList]
          have lexeme := (Segmented.cons first others).lexeme List.mem_cons_self
          have line : newlines (Piece.token .identifier x.toList).text = 0 :=
            lexeme.newlines_eq_zero (by decide)
          simp only [line, Nat.add_zero] at behind ⊢
          exact ⟨_, _, behind.replace lexeme word first⟩

/-- A text with some of its identifiers replaced has the tokens with these replaced. -/
theorem tokens_replaced {text : String} {found : Tokens} {list' : List Token}
    (scanned : tokens text = .ok found)
    (replaced : List.Forall₂ (Token.Replaced x y) found.list list') :
    ∃ text', Replaced x y text text' ∧ tokens text' = .ok ⟨list', found.endLine⟩ := by
  obtain ⟨items, line⟩ := tokens_iff.mp scanned
  obtain ⟨text', found', recut⟩ :=
    recut_of_segmented word (segmented_pieces text.toList) items replaced
  obtain rfl := segmented_iff.mp recut.segmented
  refine ⟨String.ofList text', ?_, tokens_iff.mpr ?_⟩
  · rw [Replaced, String.toList_ofList]
    exact recut.alike
  · rw [String.toList_ofList]
    exact ⟨recut.items, by rw [line, recut.lines]⟩

end Texts

end ClassScript.Source
