import ClassScript.Source.Piece
import Mathlib

/-!
# What may stand at the front of a text

`Lexeme` says for every kind of token which texts are tokens of that kind, without
saying how they are found. At the front of a text the longest of them is taken, or a
blank, a comment, a character that begins nothing, or a string that is never closed
(`takes_cut`). That leaves no choice (`cut_of_takes`), so there is one way only to cut
a whole text into pieces (`segmented_iff`).
-/

namespace ClassScript.Source

/-- The tokens that are written in one way only and are no words. -/
def operators : List (List Char × Kind) :=
  [(['('], .leftParen), ([')'], .rightParen), (['{'], .leftBrace), (['}'], .rightBrace),
   ([','], .comma), (['.'], .dot), (['-'], .minus), (['+'], .plus), ([';'], .semicolon),
   (['/'], .slash), (['*'], .star), (['!'], .bang), (['!', '='], .bangEqual),
   (['='], .equal), (['=', '='], .equalEqual), (['>'], .greater),
   (['>', '='], .greaterEqual), (['<'], .less), (['<', '='], .lessEqual)]

/-- The texts that are one token, and of which kind. -/
inductive Lexeme : Kind → List Char → Prop
  | operator {kind text} (listed : (text, kind) ∈ operators) : Lexeme kind text
  | keyword {kind text} (listed : (text, kind) ∈ keywords) : Lexeme kind text
  /-- A word that is no keyword. -/
  | identifier {first rest} (start : isWordStart first) (word : ∀ c ∈ rest, isWordRest c)
      (plain : ∀ kind, (first :: rest, kind) ∉ keywords) :
      Lexeme .identifier (first :: rest)
  | integer {first rest} (digits : ∀ c ∈ first :: rest, c.isDigit) :
      Lexeme .number (first :: rest)
  /-- Digits on both sides of a point. -/
  | decimal {first whole next fraction} (before : ∀ c ∈ first :: whole, c.isDigit)
      (behind : ∀ c ∈ next :: fraction, c.isDigit) :
      Lexeme .number (first :: whole ++ '.' :: next :: fraction)
  | string {contents} (closed : '"' ∉ contents) :
      Lexeme .string ('"' :: contents ++ ['"'])

/-- The piece at the front of a text, and the text behind it. -/
inductive Takes : List Char → Piece → List Char → Prop
  /-- No token at the front is longer, and a comment comes before a slash. -/
  | token {whole kind text rest} (split : text ++ rest = whole) (lexeme : Lexeme kind text)
      (longest : ∀ other shape, Lexeme other shape → shape <+: whole →
        shape.length ≤ text.length)
      (code : ¬ ['/', '/'] <+: whole) : Takes whole (.token kind text) rest
  | blank {c rest} (blank : isBlank c) : Takes (c :: rest) (.blank c) rest
  /-- A comment goes up to the end of its line, which is no part of it. -/
  | comment {whole body rest} (split : '/' :: '/' :: body ++ rest = whole)
      (line : '\n' ∉ body) (ends : ∀ c ∈ rest.head?, c = '\n') :
      Takes whole (.comment ('/' :: '/' :: body)) rest
  | stray {c rest} (nothing : ∀ kind text, Lexeme kind text → ¬ text <+: c :: rest)
      (visible : ¬ isBlank c) (unquoted : c ≠ '"') : Takes (c :: rest) (.stray c) rest
  | unclosed {body} (opened : '"' ∉ body) : Takes ('"' :: body) (.unclosed ('"' :: body)) []

/-- The pieces of a text, from left to right. -/
inductive Segmented : List Char → List Piece → Prop
  | nil : Segmented [] []
  | cons {text piece rest more} (first : Takes text piece rest)
      (others : Segmented rest more) : Segmented text (piece :: more)

/-! ## Rows of one class -/

section Rows

variable {α : Type} {p : α → Bool} {row rest : List α}

theorem takeWhile_row (inside : ∀ c ∈ row, p c) (ends : ∀ c ∈ rest.head?, ¬ p c) :
    (row ++ rest).takeWhile p = row := by
  rw [List.takeWhile_append_of_pos inside]
  cases rest with
  | nil => simp
  | cons c after => simp [ends c rfl]

theorem dropWhile_row (inside : ∀ c ∈ row, p c) (ends : ∀ c ∈ rest.head?, ¬ p c) :
    (row ++ rest).dropWhile p = rest := by
  rw [List.dropWhile_append_of_pos inside]
  cases rest with
  | nil => simp
  | cons c after => simp [ends c rfl]

/-- A row at the front is no longer than the longest one. -/
theorem length_le_takeWhile (inside : ∀ c ∈ row, p c) (front : row <+: rest) :
    row.length ≤ (rest.takeWhile p).length := by
  obtain ⟨after, rfl⟩ := front
  rw [List.takeWhile_append_of_pos inside, List.length_append]
  omega

/-- The end of the text ends every row. -/
theorem ends_nil {ends : α → Prop} : ∀ c ∈ ([] : List α).head?, ends c := nofun

theorem takeWhile_whole (inside : ∀ c ∈ row, p c) : row.takeWhile p = row := by
  simpa using takeWhile_row inside ends_nil

theorem dropWhile_whole (inside : ∀ c ∈ row, p c) : row.dropWhile p = [] := by
  simpa using dropWhile_row inside ends_nil

/-- A row without an element is a row of others. -/
theorem others_of_not_mem [DecidableEq α] {c : α} (absent : c ∉ row) :
    ∀ d ∈ row, decide (d ≠ c) := by
  intro d inside
  rw [decide_eq_true_iff]
  rintro rfl
  exact absent inside

theorem mem_takeWhile {c : α} (inside : c ∈ rest.takeWhile p) : p c :=
  List.all_eq_true.mp List.all_takeWhile c inside

theorem head_dropWhile {c : α} (first : c ∈ (rest.dropWhile p).head?) : ¬ p c := by
  have := List.head?_dropWhile_not p rest
  rw [Option.mem_def.mp first] at this
  simpa using this

end Rows

/-! ## Tokens as they are cut -/

/-- A word that is listed as no keyword is a name. -/
theorem wordKind_of_plain {word : List Char} (plain : ∀ kind, (word, kind) ∉ keywords) :
    wordKind word = .identifier := by
  have missing : keywords.lookup word = none := by
    rw [List.lookup_eq_none_iff]
    intro entry inside
    obtain ⟨text, kind⟩ := entry
    simp only [ne_eq, bne_iff_ne]
    rintro rfl
    exact plain kind inside
  rw [wordKind, missing]
  rfl

theorem wordKind_of_listed {word : List Char} {kind : Kind} (listed : (word, kind) ∈ keywords) :
    wordKind word = kind := by
  have all : ∀ entry ∈ keywords, wordKind entry.1 = entry.2 := by decide
  exact all _ listed

/-- A word is of the kind that it is listed with, or an identifier. -/
theorem lexeme_word {first : Char} {rest : List Char} (start : isWordStart first)
    (word : ∀ c ∈ rest, isWordRest c) :
    Lexeme (wordKind (first :: rest)) (first :: rest) := by
  by_cases listed : ∃ kind, (first :: rest, kind) ∈ keywords
  · obtain ⟨kind, listed⟩ := listed
    rw [wordKind_of_listed listed]
    exact .keyword listed
  · have plain : ∀ kind, (first :: rest, kind) ∉ keywords := fun kind inside =>
      listed ⟨kind, inside⟩
    rw [wordKind_of_plain plain]
    exact .identifier start word plain

/-- A character of words is no operator, no blank and no quote. -/
theorem plain_of_word {c : Char} (word : isWordRest c) : singleKind? c = none ∧
    comparisonKinds? c = none ∧ c ≠ '/' ∧ isBlank c = false ∧ c ≠ '"' := by
  refine ⟨?_, ?_, ?_, ?_, ?_⟩
  · unfold singleKind?
    split
    all_goals first | rfl | exact absurd word (by decide)
  · unfold comparisonKinds?
    split
    all_goals first | rfl | exact absurd word (by decide)
  · rintro rfl
    exact absurd word (by decide)
  · rw [Bool.eq_false_iff]
    intro blank
    simp only [isBlank, Bool.or_eq_true, beq_iff_eq] at blank
    rcases blank with ((rfl | rfl) | rfl) | rfl <;> exact absurd word (by decide)
  · rintro rfl
    exact absurd word (by decide)

/-- A character of words begins nothing but a word or a numeral. -/
theorem cut_of_word {first : Char} (rest : List Char) (word : isWordRest first) :
    cut first rest =
      if first.isDigit then cutNumber first rest else cutWord first rest := by
  obtain ⟨single, comparison, slash, blank, quote⟩ := plain_of_word word
  have start (digit : ¬ first.isDigit) : isWordStart first := by
    simpa [isWordRest, digit] using word
  simp only [cut, single, comparison, slash, quote, blank, if_false, Bool.false_eq_true]
  split
  · rfl
  · next digit => rw [if_pos (start digit)]

/-- The text does not go on with a point and a digit, in which a numeral would go on. -/
def NoFraction (text : List Char) : Prop :=
  ∀ d after, text = '.' :: d :: after → d.isDigit = false

/-- Digits without a fraction behind them are cut as a whole. -/
theorem cutNumber_integer {whole rest : List Char} (digits : ∀ c ∈ whole, c.isDigit)
    (ends : ∀ c ∈ rest.head?, ¬ c.isDigit) (fraction : NoFraction rest) (first : Char) :
    cutNumber first (whole ++ rest) = (.token .number (first :: whole), rest) := by
  rw [cutNumber, takeWhile_row digits ends, dropWhile_row digits ends]
  split
  · next d after => rw [fraction d after rfl, if_neg Bool.false_ne_true]
  · rfl

theorem point_ends (rest : List Char) : ∀ c ∈ ('.' :: rest).head?, ¬ c.isDigit := by
  rintro _ ⟨⟩
  decide

/-- Digits, a point and digits are cut as a whole. -/
theorem cutNumber_decimal {whole fraction rest : List Char} {next : Char}
    (digits : ∀ c ∈ whole, c.isDigit) (behind : ∀ c ∈ next :: fraction, c.isDigit)
    (ends : ∀ c ∈ rest.head?, ¬ c.isDigit) (first : Char) :
    cutNumber first (whole ++ '.' :: (next :: fraction ++ rest)) =
      (.token .number (first :: whole ++ '.' :: next :: fraction), rest) := by
  obtain ⟨digit, behind⟩ := List.forall_mem_cons.mp behind
  rw [cutNumber, takeWhile_row digits (point_ends _), dropWhile_row digits (point_ends _)]
  simp only [List.cons_append, digit, if_true, takeWhile_row behind ends, dropWhile_row behind ends]

/-- At the front of a text stand digits, and behind them no fraction, or a point with more
digits. -/
theorem numeral_cases (text : List Char) :
    (∃ whole rest, text = whole ++ rest ∧ (∀ c ∈ whole, c.isDigit) ∧
      (∀ c ∈ rest.head?, ¬ c.isDigit) ∧ NoFraction rest) ∨
    ∃ whole next fraction rest, text = whole ++ '.' :: (next :: fraction ++ rest) ∧
      (∀ c ∈ whole, c.isDigit) ∧ (∀ c ∈ next :: fraction, c.isDigit) ∧
        ∀ c ∈ rest.head?, ¬ c.isDigit := by
  have split := (List.takeWhile_append_dropWhile (p := Char.isDigit) (l := text)).symm
  have digits : ∀ c ∈ text.takeWhile Char.isDigit, c.isDigit := fun _ => mem_takeWhile
  by_cases fraction : NoFraction (text.dropWhile Char.isDigit)
  · exact .inl ⟨_, _, split, digits, fun _ => head_dropWhile, fraction⟩
  · unfold NoFraction at fraction
    push Not at fraction
    obtain ⟨d, after, shape, digit⟩ := fraction
    have digit : d.isDigit := by simpa using digit
    refine .inr ⟨_, d, after.takeWhile Char.isDigit, after.dropWhile Char.isDigit, ?_, digits,
      List.forall_mem_cons.mpr ⟨digit, fun _ => mem_takeWhile⟩, fun _ => head_dropWhile⟩
    rw [List.cons_append, List.takeWhile_append_dropWhile, ← shape]
    exact split

/-- What is cut as a numeral is one. -/
theorem lexeme_cutNumber {first : Char} (rest : List Char) (digit : first.isDigit) :
    ∃ text, (cutNumber first rest).1 = .token .number text ∧ Lexeme .number text := by
  rcases numeral_cases rest with ⟨whole, after, rfl, digits, ends, fraction⟩ |
    ⟨whole, next, fraction, after, rfl, digits, behind, ends⟩
  · rw [cutNumber_integer digits ends fraction]
    exact ⟨_, rfl, .integer (List.forall_mem_cons.mpr ⟨digit, digits⟩)⟩
  · rw [cutNumber_decimal digits behind ends]
    exact ⟨_, rfl, .decimal (List.forall_mem_cons.mpr ⟨digit, digits⟩) behind⟩

/-- A string up to its closing quote. -/
theorem cutString_closed {contents : List Char} (closed : '"' ∉ contents) (after : List Char) :
    cutString (contents ++ '"' :: after) = (.token .string ('"' :: contents ++ ['"']), after) := by
  have row := others_of_not_mem closed
  have stop : ∀ c ∈ ('"' :: after).head?, ¬ decide (c ≠ '"') := by
    rintro _ ⟨⟩
    decide
  rw [cutString, dropWhile_row row stop, takeWhile_row row stop]

theorem cutString_unclosed {rest : List Char} (opened : '"' ∉ rest) :
    cutString rest = (.unclosed ('"' :: rest), []) := by
  rw [cutString, dropWhile_whole (others_of_not_mem opened)]

theorem listed_of_single {c : Char} {kind : Kind} (single : singleKind? c = some kind) :
    ([c], kind) ∈ operators := by
  unfold singleKind? at single
  split at single <;> cases single <;> decide

theorem listed_of_comparison {c : Char} {alone paired : Kind}
    (comparison : comparisonKinds? c = some (alone, paired)) :
    ([c], alone) ∈ operators ∧ ([c, '='], paired) ∈ operators := by
  unfold comparisonKinds? at comparison
  split at comparison <;> cases comparison <;> decide

/-- An operator of more than one character is a comparison or a test for equality. -/
theorem pair_of_listed {text : List Char} {kind : Kind} (listed : (text, kind) ∈ operators) :
    text.length ≤ 1 ∨ ∃ c ∈ ['!', '=', '<', '>'], text = [c, '='] := by
  have all : ∀ entry ∈ operators,
      entry.1.length ≤ 1 ∨ ['!', '=', '<', '>'].any (entry.1 = [·, '=']) := by decide
  simpa only [List.any_eq_true, decide_eq_true_eq] using all _ listed

/-- Every piece has the character that it was cut at. -/
theorem first_cut (first : Char) (rest : List Char) :
    ∃ more, (cut first rest).1.text = first :: more := by
  unfold cut
  split
  · exact ⟨_, rfl⟩
  · split <;> exact ⟨_, rfl⟩
  · split
    · next slash => subst slash; unfold cutSlash; split <;> exact ⟨_, rfl⟩
    split
    · exact ⟨_, rfl⟩
    split
    · next quote => subst quote; unfold cutString; split <;> exact ⟨_, rfl⟩
    split
    · unfold cutNumber
      split
      · split <;> exact ⟨_, rfl⟩
      · exact ⟨_, rfl⟩
    split <;> exact ⟨_, rfl⟩

/-! ## The longest token -/

/-- Digits at the front are part of the numeral, and so are digits behind a point. -/
theorem length_le_cutNumber {first : Char} {whole rest : List Char}
    (digits : ∀ c ∈ whole, c.isDigit) (front : whole <+: rest) :
    whole.length < (cutNumber first rest).1.text.length := by
  have fits := length_le_takeWhile digits front
  unfold cutNumber
  split
  · split <;> simp only [Piece.text, List.length_append, List.length_cons] <;> omega
  · simp only [Piece.text, List.length_cons]
    omega

theorem length_le_cutNumber_decimal {first next : Char} {whole fraction rest : List Char}
    (before : ∀ c ∈ whole, c.isDigit) (behind : ∀ c ∈ next :: fraction, c.isDigit)
    (front : whole ++ '.' :: next :: fraction <+: rest) :
    (first :: whole ++ '.' :: next :: fraction).length ≤
      (cutNumber first rest).1.text.length := by
  obtain ⟨after, rfl⟩ := front
  have point : ∀ c ∈ ('.' :: next :: fraction ++ after).head?, ¬ c.isDigit := by
    rintro c ⟨⟩
    decide
  have digit : next.isDigit := behind next List.mem_cons_self
  have fits : fraction.length ≤ ((fraction ++ after).takeWhile Char.isDigit).length :=
    length_le_takeWhile (fun c inside => behind c (List.mem_cons_of_mem _ inside)) ⟨after, rfl⟩
  rw [cutNumber, List.append_assoc, takeWhile_row before point, dropWhile_row before point]
  simp only [List.cons_append, digit, if_true, Piece.text, List.length_cons,
    List.length_append]
  omega

theorem length_le_cutWord {first : Char} {word rest : List Char}
    (inside : ∀ c ∈ word, isWordRest c) (front : word <+: rest) :
    word.length < (cutWord first rest).1.text.length := by
  have fits := length_le_takeWhile inside front
  simp only [cutWord, Piece.text, List.length_cons]
  omega

/-- A keyword is spelled as a word. -/
theorem word_of_listed {text : List Char} {kind : Kind} (listed : (text, kind) ∈ keywords) :
    ∃ first rest, text = first :: rest ∧ isWordStart first ∧ ∀ c ∈ rest, isWordRest c := by
  have all : ∀ entry ∈ keywords, entry.1 ≠ [] ∧ entry.1.head?.all isWordStart ∧
      entry.1.tail.all isWordRest := by decide
  obtain ⟨some, start, word⟩ := all _ listed
  cases text with
  | nil => exact absurd rfl some
  | cons first rest => exact ⟨first, rest, rfl, start, List.all_eq_true.mp word⟩

theorem isWordRest_of_start {c : Char} (start : isWordStart c) : isWordRest c := by
  simp [isWordRest, start]

theorem isWordRest_of_digit {c : Char} (digit : c.isDigit) : isWordRest c := by
  simp [isWordRest, digit]

theorem not_digit_of_start {c : Char} (start : isWordStart c) : c.isDigit = false := by
  have : c.isAlpha ∨ c = '_' := by simpa [isWordStart] using start
  rcases this with letter | rfl
  · simp only [Char.isAlpha, Char.isUpper, Char.isLower, Char.isDigit] at letter ⊢
    grind
  · decide

/-- A word at the front is no longer than what is cut there. -/
theorem length_le_cut_of_word {first : Char} {word rest : List Char} (start : isWordStart first)
    (inside : ∀ c ∈ word, isWordRest c) (front : word <+: rest) :
    (first :: word).length ≤ (cut first rest).1.text.length := by
  rw [cut_of_word rest (isWordRest_of_start start), not_digit_of_start start]
  exact length_le_cutWord inside front

/-- No token at the front is longer than the piece that is cut there. -/
theorem length_le_cut {kind : Kind} {text : List Char} {first : Char} {rest : List Char}
    (lexeme : Lexeme kind text) (front : text <+: first :: rest) :
    text.length ≤ (cut first rest).1.text.length := by
  -- whatever is cut has the first character, so only longer lexemes count
  have one : 1 ≤ (cut first rest).1.text.length := by
    obtain ⟨more, same⟩ := first_cut first rest
    rw [same, List.length_cons]
    omega
  cases lexeme with
  | operator listed =>
    rcases pair_of_listed listed with short | ⟨c, among, rfl⟩
    · exact Nat.le_trans short one
    · obtain ⟨rfl, after⟩ := List.cons_prefix_cons.mp front
      obtain ⟨after, rfl⟩ := after
      simp only [List.mem_cons, List.not_mem_nil, or_false] at among
      rcases among with rfl | rfl | rfl | rfl <;> exact Nat.le_refl 2
  | keyword listed =>
    obtain ⟨head, tail, rfl, start, word⟩ := word_of_listed listed
    obtain ⟨rfl, others⟩ := List.cons_prefix_cons.mp front
    exact length_le_cut_of_word start word others
  | identifier start word plain =>
    obtain ⟨rfl, others⟩ := List.cons_prefix_cons.mp front
    exact length_le_cut_of_word start word others
  | integer digits =>
    obtain ⟨rfl, others⟩ := List.cons_prefix_cons.mp front
    have digit := digits _ List.mem_cons_self
    rw [cut_of_word rest (isWordRest_of_digit digit), digit]
    exact length_le_cutNumber (fun c inside => digits c (List.mem_cons_of_mem _ inside)) others
  | decimal before behind =>
    rw [List.cons_append] at front
    obtain ⟨rfl, others⟩ := List.cons_prefix_cons.mp front
    have digit := before _ List.mem_cons_self
    rw [cut_of_word rest (isWordRest_of_digit digit), digit]
    exact length_le_cutNumber_decimal
      (fun c inside => before c (List.mem_cons_of_mem _ inside)) behind others
  | @string contents closed =>
    rw [List.cons_append] at front
    obtain ⟨rfl, after, rfl⟩ := List.cons_prefix_cons.mp front
    have string : cut '"' (contents ++ ['"'] ++ after) =
        cutString (contents ++ '"' :: after) := by
      rw [List.append_assoc]
      rfl
    rw [string, cutString_closed closed]
    exact Nat.le_refl _

/-! ## The piece at the front -/

/-- The characters that a token can begin with. -/
def Begins (c : Char) : Prop :=
  (singleKind? c).isSome ∨ (comparisonKinds? c).isSome ∨ c = '/' ∨ c = '"' ∨ isWordRest c

instance (c : Char) : Decidable (Begins c) := inferInstanceAs (Decidable (_ ∨ _))

/-- Every token begins with a character that says which kind of piece to cut. -/
theorem Lexeme.begins {kind : Kind} {text : List Char} (lexeme : Lexeme kind text) :
    ∃ first rest, text = first :: rest ∧ Begins first := by
  cases lexeme with
  | operator listed =>
    have all : ∀ entry ∈ operators, entry.1 ≠ [] ∧ entry.1.head?.all (Begins ·) := by decide
    obtain ⟨some, begins⟩ := all _ listed
    cases text with
    | nil => exact absurd rfl some
    | cons first rest => exact ⟨first, rest, rfl, of_decide_eq_true begins⟩
  | keyword listed =>
    obtain ⟨first, rest, same, start, -⟩ := word_of_listed listed
    exact ⟨first, rest, same, .inr (.inr (.inr (.inr (isWordRest_of_start start))))⟩
  | identifier start =>
    exact ⟨_, _, rfl, .inr (.inr (.inr (.inr (isWordRest_of_start start))))⟩
  | integer digits =>
    have digit := isWordRest_of_digit (digits _ List.mem_cons_self)
    exact ⟨_, _, rfl, .inr (.inr (.inr (.inr digit)))⟩
  | decimal before =>
    have digit := isWordRest_of_digit (before _ List.mem_cons_self)
    exact ⟨_, _, rfl, .inr (.inr (.inr (.inr digit)))⟩
  | string => exact ⟨_, _, rfl, .inr (.inr (.inr (.inl rfl)))⟩

/-- A token at the front begins with the first character. -/
theorem Lexeme.begins_of_prefix {kind : Kind} {text rest : List Char} {first : Char}
    (lexeme : Lexeme kind text) (front : text <+: first :: rest) : Begins first := by
  obtain ⟨head, tail, rfl, begins⟩ := lexeme.begins
  obtain ⟨rfl, -⟩ := List.cons_prefix_cons.mp front
  exact begins

theorem not_begins_of_blank {c : Char} (blank : isBlank c) : ¬ Begins c := by
  simp only [isBlank, Bool.or_eq_true, beq_iff_eq] at blank
  rcases blank with ((rfl | rfl) | rfl) | rfl <;> decide

/-- Blanks stand in strings only. -/
theorem Lexeme.solid {kind : Kind} {text : List Char} {b : Char} (lexeme : Lexeme kind text)
    (blank : isBlank b) (inside : b ∈ text) : kind = .string := by
  -- no operator, word or numeral has a blank in it; a string may
  have listed : ∀ entry ∈ operators, entry.1.all (! isBlank ·) := by decide
  have word {c : Char} (word : isWordRest c) : ¬ isBlank c := by
    simp [(plain_of_word word).2.2.2.1]
  cases lexeme with
  | operator among =>
    have plain := List.all_eq_true.mp (listed _ among) b inside
    rw [blank] at plain
    cases plain
  | keyword among =>
    obtain ⟨first, rest, rfl, start, others⟩ := word_of_listed among
    rcases List.mem_cons.mp inside with rfl | later
    · exact absurd blank (word (isWordRest_of_start start))
    · exact absurd blank (word (others b later))
  | identifier start others plain =>
    rcases List.mem_cons.mp inside with rfl | later
    · exact absurd blank (word (isWordRest_of_start start))
    · exact absurd blank (word (others b later))
  | integer digits => exact absurd blank (word (isWordRest_of_digit (digits b inside)))
  | decimal before behind =>
    rcases List.mem_append.mp inside with whole | fraction
    · exact absurd blank (word (isWordRest_of_digit (before b whole)))
    · rcases List.mem_cons.mp fraction with rfl | fraction
      · exact absurd blank (by decide)
      · exact absurd blank (word (isWordRest_of_digit (behind b fraction)))
  | string => rfl

/-- Strings alone go on to further lines. -/
theorem Lexeme.newlines_eq_zero {kind : Kind} {text : List Char} (lexeme : Lexeme kind text)
    (other : kind ≠ .string) : newlines text = 0 :=
  List.count_eq_zero.mpr fun inside => other (lexeme.solid (by decide) inside)

/-- A token that is cut is the longest one. -/
theorem takes_token {first : Char} {rest text after : List Char} {kind : Kind}
    (same : cut first rest = (.token kind text, after)) (lexeme : Lexeme kind text)
    (code : ¬ ['/', '/'] <+: first :: rest) :
    Takes (first :: rest) (.token kind text) after := by
  have split : text ++ after = first :: rest := by
    have := text_cut first rest
    rwa [same] at this
  refine .token split lexeme ?_ code
  intro other shape found front
  have longest := length_le_cut found front
  rwa [same] at longest

theorem no_comment {first : Char} {rest : List Char} (code : first ≠ '/') :
    ¬ ['/', '/'] <+: first :: rest := fun front =>
  code (List.cons_prefix_cons.mp front).1.symm

/-- What is cut at a slash is what the longest match takes. -/
theorem takes_cutSlash (rest : List Char) :
    Takes ('/' :: rest) (cut '/' rest).1 (cut '/' rest).2 := by
  have same : cut '/' rest = cutSlash rest := rfl
  by_cases comment : ['/', '/'] <+: '/' :: rest
  · obtain ⟨after, rfl⟩ := (List.cons_prefix_cons.mp comment).2
    rw [same]
    simp only [cutSlash, List.cons_append, List.nil_append]
    rw [List.takeWhile_cons_of_pos (by decide), List.dropWhile_cons_of_pos (by decide)]
    refine .comment ?_ ?_ ?_
    · rw [List.cons_append, List.cons_append, List.takeWhile_append_dropWhile]
    · intro inside
      simpa using mem_takeWhile inside
    · intro c first
      simpa using head_dropWhile first
  · have alone : cut '/' rest = (.token .slash ['/'], rest) := by
      rw [same]
      unfold cutSlash
      split
      · exact absurd ⟨_, rfl⟩ comment
      · rfl
    rw [alone]
    exact takes_token alone (.operator (by decide)) comment

theorem takes_cutString (rest : List Char) :
    Takes ('"' :: rest) (cut '"' rest).1 (cut '"' rest).2 := by
  have same : cut '"' rest = cutString rest := rfl
  by_cases quoted : '"' ∈ rest
  · obtain ⟨contents, after, rfl, closed⟩ := List.eq_append_cons_of_mem quoted
    have token := same.trans (cutString_closed closed after)
    rw [token]
    exact takes_token token (.string closed) (no_comment (by decide))
  · rw [same, cutString_unclosed quoted]
    exact .unclosed quoted

/-- What is cut at a digit is the longest numeral. -/
theorem takes_cutNumber {first : Char} (rest : List Char) (digit : first.isDigit) :
    Takes (first :: rest) (cut first rest).1 (cut first rest).2 := by
  have same : cut first rest = cutNumber first rest := by
    rw [cut_of_word rest (isWordRest_of_digit digit), digit]
    rfl
  have code : ¬ ['/', '/'] <+: first :: rest := by
    apply no_comment
    rintro rfl
    exact absurd digit (by decide)
  obtain ⟨text, number, lexeme⟩ := lexeme_cutNumber rest digit
  have token : cut first rest = (.token .number text, (cutNumber first rest).2) :=
    same.trans (Prod.ext number rfl)
  rw [token]
  exact takes_token token lexeme code

/-- What is cut at a letter is the longest word. -/
theorem takes_cutWord {first : Char} (rest : List Char) (start : isWordStart first) :
    Takes (first :: rest) (cut first rest).1 (cut first rest).2 := by
  have same : cut first rest = cutWord first rest := by
    rw [cut_of_word rest (isWordRest_of_start start), not_digit_of_start start]
    rfl
  have inside : ∀ c ∈ rest.takeWhile isWordRest, isWordRest c := fun c => mem_takeWhile
  have word := lexeme_word start inside
  have code : ¬ ['/', '/'] <+: first :: rest := by
    apply no_comment
    rintro rfl
    exact absurd start (by decide)
  rw [same]
  exact takes_token same word code

/-- What is cut off a text is the piece at its front. -/
theorem takes_cut (first : Char) (rest : List Char) :
    Takes (first :: rest) (cut first rest).1 (cut first rest).2 := by
  by_cases slash : first = '/'
  · subst slash; exact takes_cutSlash rest
  by_cases quote : first = '"'
  · subst quote; exact takes_cutString rest
  by_cases digit : first.isDigit
  · exact takes_cutNumber rest digit
  by_cases start : isWordStart first
  · exact takes_cutWord rest start
  -- no comment begins here, so a token may be cut
  have code : ¬ ['/', '/'] <+: first :: rest := no_comment slash
  cases single : singleKind? first with
  | some kind =>
    have alone : cut first rest = (.token kind [first], rest) := by simp [cut, single]
    rw [alone]
    exact takes_token alone (.operator (listed_of_single single)) code
  | none =>
  cases comparison : comparisonKinds? first with
  | some kinds =>
    obtain ⟨alone, paired⟩ := kinds
    obtain ⟨one, two⟩ := listed_of_comparison comparison
    by_cases equals : ∃ after, rest = '=' :: after
    · obtain ⟨after, rfl⟩ := equals
      have same : cut first ('=' :: after) = (.token paired [first, '='], after) := by
        simp [cut, single, comparison]
      rw [same]
      exact takes_token same (.operator two) code
    · have same : cut first rest = (.token alone [first], rest) := by
        simp only [cut, single, comparison]
        split
        · exact absurd ⟨_, rfl⟩ equals
        · rfl
      rw [same]
      exact takes_token same (.operator one) code
  | none =>
  by_cases blank : isBlank first
  · have same : cut first rest = (.blank first, rest) := by
      simp [cut, single, comparison, slash, blank]
    rw [same]
    exact .blank blank
  · have same : cut first rest = (.stray first, rest) := by
      simp [cut, single, comparison, slash, blank, quote, digit, start]
    rw [same]
    -- a character that begins no token is a piece of its own
    refine .stray ?_ blank quote
    intro kind text lexeme front
    have begins := lexeme.begins_of_prefix front
    simp [Begins, single, comparison, slash, quote, isWordRest, digit, start] at begins

/-! ## There is no other cut -/

/-- A text that is one token is cut as that token. -/
theorem Lexeme.cut_eq {kind : Kind} {first : Char} {rest : List Char}
    (lexeme : Lexeme kind (first :: rest)) :
    cut first rest = (.token kind (first :: rest), []) := by
  generalize shape : first :: rest = text at lexeme
  cases lexeme with
  | operator listed =>
    -- the operators and keywords are finitely many, so each one is tried
    have all : ∀ entry ∈ operators,
        entry.1.head?.all (cut · entry.1.tail = (.token entry.2 entry.1, [])) := by decide
    subst shape
    exact of_decide_eq_true (all _ listed)
  | keyword listed =>
    have all : ∀ entry ∈ keywords,
        entry.1.head?.all (cut · entry.1.tail = (.token entry.2 entry.1, [])) := by decide
    subst shape
    exact of_decide_eq_true (all _ listed)
  | identifier start word plain =>
    cases shape
    rw [cut_of_word rest (isWordRest_of_start start), not_digit_of_start start]
    simp only [Bool.false_eq_true, if_false, cutWord, takeWhile_whole word,
      dropWhile_whole word, wordKind_of_plain plain]
  | integer digits =>
    cases shape
    obtain ⟨digit, digits⟩ := List.forall_mem_cons.mp digits
    have whole : NoFraction [] := by simp [NoFraction]
    have number := cutNumber_integer digits ends_nil whole first
    rw [List.append_nil] at number
    rw [cut_of_word rest (isWordRest_of_digit digit), if_pos digit, number]
  | @decimal first whole next fraction before behind =>
    rw [List.cons_append] at shape
    cases shape
    obtain ⟨digit, digits⟩ := List.forall_mem_cons.mp before
    have number := cutNumber_decimal digits behind ends_nil first
    rw [List.append_nil] at number
    rw [cut_of_word _ (isWordRest_of_digit digit), if_pos digit, number, List.cons_append]
  | @string contents closed =>
    rw [List.cons_append] at shape
    cases shape
    exact cutString_closed closed []

/-- A text is a token of one kind only. -/
theorem Lexeme.kind_eq {kind other : Kind} {text : List Char} (lexeme : Lexeme kind text)
    (also : Lexeme other text) : kind = other := by
  obtain ⟨first, rest, rfl, -⟩ := lexeme.begins
  have same := lexeme.cut_eq.symm.trans also.cut_eq
  injection same with same
  injection same

theorem lexeme_slash : Lexeme .slash ['/'] := .operator (by decide)

/-- A token that begins with a quote has another one. -/
theorem Lexeme.closed {kind : Kind} {body text : List Char} (lexeme : Lexeme kind text)
    (front : text <+: '"' :: body) : '"' ∈ body := by
  obtain ⟨first, rest, rfl, -⟩ := lexeme.begins
  obtain ⟨rfl, inside⟩ := List.cons_prefix_cons.mp front
  refine Decidable.byContradiction fun opened => ?_
  have unclosed := cutString_unclosed fun quote => opened (inside.subset quote)
  have token := lexeme.cut_eq
  rw [show cut '"' rest = cutString rest from rfl, unclosed] at token
  cases token

/-- Nothing but the piece that is cut can be taken from the front. -/
theorem cut_of_takes {first : Char} {rest after : List Char} {piece : Piece}
    (takes : Takes (first :: rest) piece after) : cut first rest = (piece, after) := by
  have found := takes_cut first rest
  generalize cutting : cut first rest = result at found
  obtain ⟨other, behind⟩ := result
  cases takes with
  | @token _ kind text _ split lexeme longest code =>
    have front : text <+: first :: rest := ⟨after, split⟩
    -- only a token can be cut, and both are the longest one
    cases found with
    | @token _ kind' text' _ split' lexeme' longest' =>
      have same : text = text' := by
        have front' : text' <+: first :: rest := ⟨behind, split'⟩
        have le := longest' _ _ lexeme front
        have ge := longest _ _ lexeme' front'
        have short := List.prefix_of_prefix_length_le front front' le
        exact short.eq_of_length (Nat.le_antisymm le ge)
      subst same
      obtain rfl : behind = after := List.append_cancel_left (split'.trans split.symm)
      rw [lexeme.kind_eq lexeme']
    | blank blank => exact absurd (lexeme.begins_of_prefix front) (not_begins_of_blank blank)
    | comment split' => exact absurd ⟨_, split'⟩ code
    | stray nothing => exact absurd front (nothing _ _ lexeme)
    | unclosed opened => exact absurd (lexeme.closed front) opened
  | blank blank =>
    simp only [isBlank, Bool.or_eq_true, beq_iff_eq] at blank
    rw [← cutting]
    rcases blank with ((rfl | rfl) | rfl) | rfl <;> rfl
  | @comment _ body _ split line ends =>
    obtain ⟨rfl, rfl⟩ := List.cons.inj split
    have row := others_of_not_mem (List.not_mem_cons_of_ne_of_not_mem (by decide : '\n' ≠ '/') line)
    have stop : ∀ c ∈ after.head?, ¬ decide (c ≠ '\n') := by
      intro c first
      simpa using ends c first
    have taken := takeWhile_row row stop
    have dropped := dropWhile_row row stop
    rw [← cutting]
    show cutSlash ('/' :: (body ++ after)) = _
    rw [List.cons_append] at taken dropped
    rw [cutSlash, taken, dropped]
  | stray nothing visible unquoted =>
    cases found with
    | token split lexeme => exact absurd ⟨_, split⟩ (nothing _ _ lexeme)
    | blank blank => exact absurd blank visible
    | comment split => exact absurd ⟨_, split⟩ (nothing _ _ lexeme_slash)
    | stray => rfl
    | unclosed => exact absurd rfl unquoted
  | unclosed opened =>
    rw [← cutting]
    exact cutString_unclosed opened

/-! ## Whole texts -/

/-- A piece and what is left behind it make up the text. -/
theorem Takes.text {whole rest : List Char} {piece : Piece} (takes : Takes whole piece rest) :
    piece.text ++ rest = whole := by
  cases takes with
  | token split => exact split
  | comment split => exact split
  | unclosed => simp [Piece.text]
  | _ => rfl

/-- No text is left over between the pieces, and none is lost. -/
theorem Segmented.text {text : List Char} {found : List Piece} (segmented : Segmented text found) :
    found.flatMap Piece.text = text := by
  induction segmented with
  | nil => rfl
  | cons first others ih => rw [List.flatMap_cons, ih, first.text]

/-- A token that was cut is a lexeme of its kind. -/
theorem Segmented.lexeme {text shape : List Char} {found : List Piece} {kind : Kind}
    (segmented : Segmented text found) (among : .token kind shape ∈ found) :
    Lexeme kind shape := by
  induction segmented with
  | nil => cases among
  | cons first _ ih =>
    rcases List.mem_cons.mp among with rfl | later
    · cases first with
      | token _ lexeme => exact lexeme
    · exact ih later

theorem Lexeme.of_string {text : List Char} (lexeme : Lexeme .string text) :
    ∃ contents, '"' ∉ contents ∧ text = '"' :: contents ++ ['"'] := by
  have operator : ∀ entry ∈ operators, entry.2 ≠ .string := by decide
  have keyword : ∀ entry ∈ keywords, entry.2 ≠ .string := by decide
  cases lexeme with
  | operator listed => exact absurd rfl (operator _ listed)
  | keyword listed => exact absurd rfl (keyword _ listed)
  | string closed => exact ⟨_, closed, rfl⟩

/-- An identifier is a word that is no keyword. -/
theorem Lexeme.of_identifier {word : List Char} (lexeme : Lexeme .identifier word) :
    ∃ first more, word = first :: more ∧ isWordStart first ∧ (∀ c ∈ more, isWordRest c) ∧
      wordKind word = .identifier := by
  have operator : ∀ entry ∈ operators, entry.2 ≠ .identifier := by decide
  have keyword : ∀ entry ∈ keywords, entry.2 ≠ .identifier := by decide
  cases lexeme with
  | operator listed => exact absurd rfl (operator _ listed)
  | keyword listed => exact absurd rfl (keyword _ listed)
  | identifier start inside plain => exact ⟨_, _, rfl, start, inside, wordKind_of_plain plain⟩

/-- Something is taken from every text but the empty one. -/
theorem Takes.cons {whole rest : List Char} {piece : Piece} (takes : Takes whole piece rest) :
    ∃ first others, whole = first :: others := by
  cases takes with
  | token split lexeme =>
    obtain ⟨first, others, rfl, -⟩ := lexeme.begins
    exact ⟨first, _, split.symm⟩
  | comment split => exact ⟨_, _, split.symm⟩
  | _ => exact ⟨_, _, rfl⟩

/-- What is left is shorter. -/
theorem length_cut (first : Char) (rest : List Char) : (cut first rest).2.length ≤ rest.length := by
  obtain ⟨more, same⟩ := first_cut first rest
  have whole := congrArg List.length (text_cut first rest)
  rw [same, List.cons_append, List.length_cons, List.length_append, List.length_cons] at whole
  omega

theorem cutOnto_append (fuel : Nat) (text : List Char) (done : List Piece) :
    cutOnto fuel text done = cutOnto fuel text [] ++ done := by
  induction fuel generalizing text done with
  | zero => rfl
  | succ fuel ih =>
    cases text with
    | nil => rfl
    | cons first rest =>
      simp only [cutOnto]
      rw [ih, ih _ [_], List.append_assoc]
      rfl

/-- Fuel for the length of the text is enough, and more changes nothing. -/
theorem cutOnto_fuel {fuel : Nat} {text : List Char} (enough : text.length ≤ fuel)
    (done : List Piece) : cutOnto fuel text done = cutOnto text.length text done := by
  induction fuel using Nat.strongRecOn generalizing text done with
  | ind fuel ih =>
    cases text with
    | nil => cases fuel <;> rfl
    | cons first rest =>
      cases fuel with
      | zero => cases enough
      | succ fuel =>
        have fits : rest.length ≤ fuel := Nat.le_of_succ_le_succ enough
        have shorter := length_cut first rest
        simp only [cutOnto, List.length_cons]
        rw [ih fuel (Nat.lt_succ_self fuel) (Nat.le_trans shorter fits)]
        rcases Nat.lt_or_ge rest.length (fuel + 1) with less | more
        · exact (ih rest.length less shorter _).symm
        · omega

@[simp] theorem pieces_nil : pieces [] = [] := rfl

/-- The pieces of a text are the first one and those of what is left. -/
theorem pieces_cons (first : Char) (rest : List Char) :
    pieces (first :: rest) = (cut first rest).1 :: pieces (cut first rest).2 := by
  show (cutOnto rest.length (cut first rest).2 [(cut first rest).1]).reverse = _
  rw [cutOnto_append, cutOnto_fuel (length_cut first rest), List.reverse_append]
  rfl

/-- The pieces of a text are cut from left to right, each the longest there is. -/
theorem segmented_pieces (text : List Char) : Segmented text (pieces text) := by
  induction h : text.length using Nat.strongRecOn generalizing text with
  | ind length ih =>
    cases text with
    | nil => exact .nil
    | cons first rest =>
      rw [pieces_cons]
      refine .cons (takes_cut first rest) (ih _ ?_ _ rfl)
      rw [← h, List.length_cons]
      exact Nat.lt_succ_of_le (length_cut first rest)

/-- A text can be cut in one way only, and its pieces are what that gives. -/
theorem segmented_iff {text : List Char} {found : List Piece} :
    Segmented text found ↔ found = pieces text := by
  constructor
  · intro segmented
    induction segmented with
    | nil => rfl
    | cons first others ih =>
      obtain ⟨head, tail, rfl⟩ := first.cons
      rw [pieces_cons, cut_of_takes first, ih]
  · rintro rfl
    exact segmented_pieces text

end ClassScript.Source
