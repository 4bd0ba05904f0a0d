import ClassScript.Proofs.Source.Encoding
import ClassScript.Proofs.Source.Lines

/-!
# Scanning byte by byte

The tokens of a text can be found in its bytes, without decoding them first: a cursor
looks at the byte at its position, which counts as zero behind the last one, moves on,
and cuts the text between byte positions. It yields the items of the text's pieces, then
its end, and then nothing (`events_eq`). All its positions between two pieces are
boundaries of characters, so none of its cuts fails.
-/

namespace ClassScript.Source

/-- Where a reader of bytes is: the next byte, the line, and whether it has told that
the text has ended. -/
structure Cursor where
  position : Nat
  line : Nat
  done : Bool

/-- What a reader of bytes yields. -/
inductive Event where
  /-- A token, with the contents of a string. -/
  | token (token : Token) (contents : Option String)
  | error (error : LexicalError)
  | finish (line : Nat)

/-- What the bytes at a position are. -/
inductive Found where
  | nothing
  | token (kind : Kind) (contents : Option String)
  | error (cause : LexicalCause)

/-- What was found, and the position and the line behind it. -/
structure Advance where
  found : Found
  position : Nat
  line : Nat

section Reading

variable (bytes : List UInt8)

/-- The byte at a position as a character. -/
def peekChar (position : Nat) : Char := Char.ofUInt8 (peek bytes position)

theorem peekChar_end {position : Nat} (behind : bytes.length ≤ position) :
    peekChar bytes position = '\x00' := by
  rw [peekChar, peek, List.getElem?_eq_none behind]
  rfl

/-- The position behind a row of characters of a class. It ends with the text because
the zero behind the text is in no class. -/
def skip (p : Char → Bool) (zero : p '\x00' = false) (position : Nat) : Nat :=
  if p (peekChar bytes position) then skip p zero (position + 1) else position
termination_by bytes.length - position
decreasing_by
  have : position < bytes.length := by
    refine Nat.lt_of_not_le fun behind => ?_
    simp_all [peekChar_end]
  omega

/-- The position of the quote that closes a string, or of the end, and the line there. -/
def skipString (position line : Nat) : Nat × Nat :=
  if position < bytes.length ∧ peekChar bytes position ≠ '"' then
    skipString (position + 1) (if peekChar bytes position = '\n' then line + 1 else line)
  else (position, line)
termination_by bytes.length - position

/-- The position of the next line end, or of the end. -/
def skipLine (position : Nat) : Nat :=
  position + ((bytes.drop position).takeWhile (· ≠ 10)).length

/-- Behind the digits of a numeral: a point is part of it if a digit follows. -/
def skipNumber (position : Nat) : Nat :=
  let point := skip bytes Char.isDigit (by decide) position
  if peekChar bytes point = '.' ∧ (peekChar bytes (point + 1)).isDigit then
    skip bytes Char.isDigit (by decide) (point + 1)
  else point

def advanceString (start line : Nat) : Option Advance :=
  let (quote, line) := skipString bytes (start + 1) line
  if bytes.length ≤ quote then some ⟨.error .unterminated, quote, line⟩
  else do
    let contents ← slice? bytes (start + 1) quote
    return ⟨.token .string contents, quote + 1, line⟩

def advanceWord (start line : Nat) : Option Advance := do
  let behind := skip bytes isWordRest (by decide) (start + 1)
  let word ← slice? bytes start behind
  return ⟨.token (wordKind word.toList) none, behind, line⟩

/-- Step over a whole character. -/
def advanceStray (start line : Nat) : Option Advance := do
  let rest ← slice? bytes start bytes.length
  let c := rest.toList.headD '\uFFFD'
  return ⟨.error (.unexpected c), start + c.utf8Size, line⟩

/-- What begins at a position. There is no result where a cut goes through a
character. -/
def advance (start line : Nat) : Option Advance :=
  let first := peekChar bytes start
  match singleKind? first, comparisonKinds? first with
  | some kind, _ => some ⟨.token kind none, start + 1, line⟩
  | none, some (alone, paired) =>
    if peekChar bytes (start + 1) = '=' then some ⟨.token paired none, start + 2, line⟩
    else some ⟨.token alone none, start + 1, line⟩
  | none, none =>
    if first = '/' then
      if peekChar bytes (start + 1) = '/' then
        some ⟨.nothing, skipLine bytes (start + 2), line⟩
      else some ⟨.token .slash none, start + 1, line⟩
    else if first = '\n' then some ⟨.nothing, start + 1, line + 1⟩
    else if isBlank first then some ⟨.nothing, start + 1, line⟩
    else if first = '"' then advanceString bytes start line
    else if first.isDigit then
      some ⟨.token .number none, skipNumber bytes (start + 1), line⟩
    else if isWordStart first then advanceWord bytes start line
    else advanceStray bytes start line

/-- The next event, and the cursor behind it. The fuel bounds the number of pieces that
are skipped. -/
def pull : Nat → Cursor → Option (Option Event × Cursor)
  | 0, _ => none
  | fuel + 1, c =>
    if c.done then some (none, c)
    else if bytes.length ≤ c.position then some (some (.finish c.line), { c with done := true })
    else do
      let ahead ← advance bytes c.position c.line
      let next : Cursor := ⟨ahead.position, ahead.line, false⟩
      match ahead.found with
      | .nothing => pull fuel next
      | .token kind contents =>
        let lexeme ← slice? bytes c.position ahead.position
        return (some (.token ⟨kind, lexeme, ahead.line⟩ contents), next)
      | .error cause => return (some (.error ⟨ahead.line, cause⟩), next)

/-- What a number of calls yield, from a cursor on. -/
def events : Nat → Cursor → Option (List (Option Event))
  | 0, _ => some []
  | count + 1, c => do
    let (event, next) ← pull bytes (bytes.length + 1) c
    return event :: (← events count next)

end Reading

/-! ## Rows of characters in bytes -/

section Rows

variable {bytes : List UInt8} {position : Nat} {first : Char} {rest : List Char}

theorem Stands.peekChar_ascii (h : Stands bytes position (first :: rest))
    (ascii : first.toNat < 128) : peekChar bytes position = first := by
  rw [peekChar, h.peek_ascii ascii, ofUInt8_ascii ascii]

/-- The first byte of a character that is not ASCII is not an ASCII character either. -/
theorem Stands.peekChar_high (h : Stands bytes position (first :: rest))
    (high : 128 ≤ first.toNat) : 128 ≤ (peekChar bytes position).toNat := by
  have : 0xC0 ≤ peek bytes position := h.peek_high high
  have : 192 ≤ (peek bytes position).toNat := UInt8.le_iff_toNat_le.mp this
  show 128 ≤ (peek bytes position).toUInt32.toNat
  rw [UInt8.toNat_toUInt32]
  omega

/-- A class of ASCII characters, without zero, can be tested on the byte at a position. -/
theorem Stands.test {cs : List Char} (h : Stands bytes position cs) {p : Char → Bool}
    (ascii : ∀ c, p c → c.toNat < 128) (zero : p '\x00' = false) :
    p (peekChar bytes position) = cs.head?.any p := by
  cases cs with
  | nil =>
    rw [peekChar, h.peek_end]
    exact zero
  | cons first rest =>
    show _ = p first
    rcases Nat.lt_or_ge first.toNat 128 with low | high
    · rw [h.peekChar_ascii low]
    · have above := h.peekChar_high high
      have absent {c : Char} (outside : 128 ≤ c.toNat) : p c = false := by
        rw [Bool.eq_false_iff]
        exact fun inside => absurd (ascii c inside) (Nat.not_lt_of_le outside)
      rw [absent above, absent high]

/-- A character of ASCII can be read off the byte at a position. -/
theorem Stands.peekChar_eq_iff {cs : List Char} (h : Stands bytes position cs) {c : Char}
    (ascii : c.toNat < 128) (some : c ≠ '\x00') :
    peekChar bytes position = c ↔ cs.head? = Option.some c := by
  have zero : ('\x00' == c) = false := beq_false_of_ne some.symm
  have only (d : Char) (same : (d == c) = true) : d.toNat < 128 := by
    rw [beq_iff_eq.mp same]
    exact ascii
  have test := h.test only zero
  rw [← beq_iff_eq, test]
  cases cs <;> simp

theorem Stands.step (h : Stands bytes position (first :: rest)) (ascii : first.toNat < 128) :
    Stands bytes (position + 1) rest := by
  have : Stands bytes (position + (encode [first]).length) rest := Stands.move h
  rwa [encode_cons, encode_nil, List.append_nil, encode_ascii ascii] at this

theorem length_encode_ascii {c : Char} (ascii : c.toNat < 128) (cs : List Char) :
    (encode (c :: cs)).length = (encode cs).length + 1 := by
  rw [encode_cons, encode_ascii ascii]
  rfl

/-- Skipping bytes by an ASCII test skips the characters that pass it. -/
theorem skip_eq {cs : List Char} (h : Stands bytes position cs) {p : Char → Bool}
    (ascii : ∀ c, p c → c.toNat < 128) (zero : p '\x00' = false) :
    skip bytes p zero position = position + (encode (cs.takeWhile p)).length := by
  induction cs generalizing position with
  | nil => rw [skip, h.test ascii zero]; rfl
  | cons first rest ih =>
    rw [skip, h.test ascii zero]
    show (if p first then _ else _) = _
    by_cases inside : p first
    · have low := ascii first inside
      rw [if_pos inside, ih (h.step low), List.takeWhile_cons_of_pos inside,
        length_encode_ascii low]
      omega
    · rw [if_neg inside, List.takeWhile_cons_of_neg inside]
      rfl

/-- Skipping stops behind a row. -/
theorem skip_row {row behind : List Char} (h : Stands bytes position (row ++ behind))
    {p : Char → Bool} (ascii : ∀ c, p c → c.toNat < 128) (zero : p '\x00' = false)
    (inside : ∀ c ∈ row, p c) (ends : ∀ c ∈ behind.head?, ¬ p c) :
    skip bytes p zero position = position + (encode row).length := by
  rw [skip_eq h ascii, takeWhile_row inside ends]

theorem toNat_ofUInt8 (b : UInt8) : (Char.ofUInt8 b).toNat = b.toNat := UInt8.toNat_toUInt32 b

theorem ofUInt8_eq_iff {b : UInt8} {c : Char} (ascii : c.toNat < 128) :
    Char.ofUInt8 b = c ↔ b = UInt8.ofNat c.toNat := by
  constructor
  · rintro rfl
    rw [toNat_ofUInt8, UInt8.ofNat_toNat]
  · rintro rfl
    exact ofUInt8_ascii ascii

/-- Skipping the inside of a string stops at the quote or the end and counts the lines on the
way. -/
theorem skipString_eq {row tail : List UInt8} (split : bytes.drop position = row ++ tail)
    (opened : 34 ∉ row) (ends : ∀ b ∈ tail.head?, b = 34) (line : Nat) :
    skipString bytes position line = (position + row.length, line + row.count 10) := by
  induction row generalizing position line with
  | nil =>
    -- either the bytes are through, or the next one is the quote
    have stop : ¬ (position < bytes.length ∧ peekChar bytes position ≠ '"') := by
      rintro ⟨inside, other⟩
      have first : bytes[position]? = tail.head? := by
        rw [← List.head?_drop, split, List.nil_append]
      apply other
      rw [peekChar, ofUInt8_eq_iff (by decide), peek, first]
      rw [List.getElem?_eq_getElem inside] at first
      rw [← first]
      exact ends _ first.symm
    rw [skipString, if_neg stop]
    rfl
  | cons b row ih =>
    have first : bytes[position]? = some b := by
      rw [← List.head?_drop, split]
      rfl
    have here : peekChar bytes position = Char.ofUInt8 b := by rw [peekChar, peek, first]; rfl
    have inside : position < bytes.length := (List.getElem?_eq_some_iff.mp first).1
    have other : peekChar bytes position ≠ '"' := by
      rw [here, Ne, ofUInt8_eq_iff (by decide)]
      rintro rfl
      exact opened List.mem_cons_self
    have later : bytes.drop (position + 1) = row ++ tail := by
      rw [← List.drop_drop, split]
      rfl
    rw [skipString, if_pos ⟨inside, other⟩,
      ih later fun quote => opened (List.mem_cons_of_mem _ quote)]
    have lineEnd : Char.ofUInt8 b = '\n' ↔ b = 10 := ofUInt8_eq_iff (by decide)
    simp only [here, lineEnd, List.length_cons, List.count_cons, beq_iff_eq, Prod.mk.injEq]
    constructor
    · omega
    · split <;> omega

theorem newlines_eq (cs : List Char) : (encode cs).count 10 = newlines cs :=
  count_encode (by decide) cs

/-- The search for the closing quote stops at the first one, or at the end. -/
theorem skipString_row {contents behind : List Char}
    (h : Stands bytes position (contents ++ behind)) (closed : '"' ∉ contents)
    (ends : ∀ c ∈ behind.head?, c = '"') (line : Nat) :
    skipString bytes position line =
      (position + (encode contents).length, line + newlines contents) := by
  have split : bytes.drop position = encode contents ++ encode behind := by
    rw [← encode_append]
    exact h.rest
  have absent : 34 ∉ encode contents := by
    rw [mem_encode (by decide)]
    exact closed
  have quote : ∀ b ∈ (encode behind).head?, b = 34 := by
    cases behind with
    | nil => nofun
    | cons c after =>
      obtain rfl := ends c rfl
      rw [encode_cons, encode_ascii (by decide)]
      rintro _ ⟨⟩
      rfl
  rw [skipString_eq split absent quote, newlines_eq]

/-- A search for an ASCII byte stops at its character. -/
theorem takeWhile_encode {b : UInt8} (low : b < 0x80) (cs : List Char) :
    (encode cs).takeWhile (· ≠ b) = encode (cs.takeWhile (· ≠ Char.ofUInt8 b)) := by
  have whole := List.takeWhile_append_dropWhile (p := (· ≠ Char.ofUInt8 b)) (l := cs)
  conv => lhs; rw [← whole, encode_append]
  refine takeWhile_row ?_ ?_
  · intro other inside
    rw [decide_eq_true_iff]
    rintro rfl
    simpa using mem_takeWhile ((mem_encode low).mp inside)
  · intro first head
    generalize shape : cs.dropWhile (· ≠ Char.ofUInt8 b) = behind at head
    cases behind with
    | nil => cases head
    | cons c rest =>
      have same : c = Char.ofUInt8 b := by
        have head : c ∈ (cs.dropWhile (· ≠ Char.ofUInt8 b)).head? := by rw [shape]; rfl
        simpa using head_dropWhile head
      subst same
      -- the byte looked for is a whole character, not a part of a longer one
      have ascii : (Char.ofUInt8 b).toNat < 128 := by
        rw [toNat_ofUInt8]
        exact UInt8.lt_iff_toNat_lt.mp low
      rw [encode_cons, encode_ascii ascii, toNat_ofUInt8, UInt8.ofNat_toNat] at head
      cases head
      simp

end Rows

/-! ## What begins at a position -/

/-- What a piece is to a reader of bytes. -/
def Found.ofPiece : Piece → Found
  | .token kind text =>
    .token kind (if kind = .string then some (String.ofList (text.drop 1).dropLast) else none)
  | .blank _ | .comment _ => .nothing
  | .stray c => .error (.unexpected c)
  | .unclosed _ => .error .unterminated

/-- The first piece of a text, in bytes. -/
def Advance.ofPiece (start line : Nat) (piece : Piece) : Advance :=
  ⟨.ofPiece piece, start + (encode piece.text).length, line + newlines piece.text⟩

section Pieces

variable {bytes : List UInt8} {start : Nat} {first : Char} {rest : List Char}

theorem isDigit_ascii (c : Char) (digit : c.isDigit) : c.toNat < 128 := by
  simp only [Char.isDigit, Bool.and_eq_true, decide_eq_true_eq] at digit
  have := UInt32.le_iff_toNat_le.mp digit.2
  have : c.toNat ≤ 57 := this
  omega

theorem isWordRest_ascii (c : Char) (word : isWordRest c) : c.toNat < 128 := by
  by_cases digit : c.isDigit
  · exact isDigit_ascii c digit
  by_cases line : c = '_'
  · subst line; decide
  have letter : c.isAlpha := by simpa [isWordRest, isWordStart, digit, line] using word
  simp only [Char.isAlpha, Char.isUpper, Char.isLower, Bool.or_eq_true, Bool.and_eq_true,
    decide_eq_true_eq] at letter
  rcases letter with ⟨-, upper⟩ | ⟨-, lower⟩
  · have : c.toNat ≤ 90 := UInt32.le_iff_toNat_le.mp upper
    omega
  · have : c.toNat ≤ 122 := UInt32.le_iff_toNat_le.mp lower
    omega

theorem begins_ascii {c : Char} (begins : Begins c) : c.toNat < 128 := by
  rcases begins with single | comparison | rfl | rfl | word
  · unfold singleKind? at single
    split at single <;> first | decide | cases single
  · unfold comparisonKinds? at comparison
    split at comparison <;> first | decide | cases comparison
  · decide
  · decide
  · exact isWordRest_ascii c word

/-- The whole character where nothing begins. -/
theorem advanceStray_eq (h : Stands bytes start (first :: rest)) (line : Nat) :
    advanceStray bytes start line =
      some ⟨.error (.unexpected first), start + (encode [first]).length, line⟩ := by
  have cut : slice? bytes start bytes.length = some (String.ofList (first :: rest)) := by
    have whole : Stands bytes start (first :: rest ++ []) := by rwa [List.append_nil]
    rw [h.length]
    exact whole.slice
  rw [advanceStray, cut, encode_cons, encode_nil, List.append_nil, String.length_utf8EncodeChar]
  simp

theorem isBlank_ascii {c : Char} (blank : isBlank c) : c.toNat < 128 := by
  simp only [isBlank, Bool.or_eq_true, beq_iff_eq] at blank
  rcases blank with ((rfl | rfl) | rfl) | rfl <;> decide

/-- What does not begin a token is in none of the classes. -/
theorem not_begins {c : Char} (begins : ¬ Begins c) : singleKind? c = none ∧
    comparisonKinds? c = none ∧ c ≠ '/' ∧ c ≠ '"' ∧ c.isDigit = false ∧
      isWordStart c = false := by
  simp only [Begins, not_or] at begins
  obtain ⟨single, comparison, slash, quote, word⟩ := begins
  refine ⟨by simpa using single, by simpa using comparison, slash, quote, ?_, ?_⟩
  · rw [Bool.eq_false_iff]
    exact fun digit => word (isWordRest_of_digit digit)
  · rw [Bool.eq_false_iff]
    exact fun start => word (isWordRest_of_start start)

theorem advance_other (h : Stands bytes start (first :: rest)) (begins : ¬ Begins first)
    (blank : ¬ isBlank first) (line : Nat) :
    advance bytes start line = some (.ofPiece start line (cut first rest).1) := by
  -- neither the character nor its first byte begins anything
  have byte : ¬ Begins (peekChar bytes start) ∧ ¬ isBlank (peekChar bytes start) := by
    rcases Nat.lt_or_ge first.toNat 128 with ascii | high
    · rw [h.peekChar_ascii ascii]
      exact ⟨begins, blank⟩
    · have above := Nat.not_lt_of_le (h.peekChar_high high)
      exact ⟨fun begins => above (begins_ascii begins), fun blank => above (isBlank_ascii blank)⟩
  obtain ⟨single, comparison, slash, quote, digit, word⟩ := not_begins byte.1
  have newline : peekChar bytes start ≠ '\n' := fun same => byte.2 (by rw [same]; decide)
  have stray : advance bytes start line = advanceStray bytes start line := by
    unfold advance
    simp [single, comparison, slash, quote, digit, word, newline, byte.2]
  obtain ⟨single, comparison, slash, quote, digit, word⟩ := not_begins begins
  have cutting : cut first rest = (.stray first, rest) := by
    simp [cut, single, comparison, slash, quote, digit, word, blank]
  have flat : newlines [first] = 0 := by
    have other : first ≠ '\n' := fun same => blank (by rw [same]; decide)
    simp [newlines, other]
  rw [stray, advanceStray_eq h, cutting, Advance.ofPiece, Piece.text, flat]
  rfl

/-- A token of one or two ASCII characters. -/
theorem ofPiece_operator {kind : Kind} {text : List Char} (listed : (text, kind) ∈ operators)
    (line : Nat) : Advance.ofPiece start line (.token kind text) =
      ⟨.token kind none, start + text.length, line⟩ := by
  have all : ∀ entry ∈ operators, entry.2 ≠ .string ∧ newlines entry.1 = 0 ∧
      (encode entry.1).length = entry.1.length := by decide
  obtain ⟨other, flat, short⟩ := all _ listed
  simp only at other flat short
  simp [Advance.ofPiece, Found.ofPiece, Piece.text, other, flat, short]

theorem advance_blank (h : Stands bytes start (first :: rest)) (blank : isBlank first)
    (line : Nat) : advance bytes start line = some (.ofPiece start line (cut first rest).1) := by
  have here := h.peekChar_ascii (isBlank_ascii blank)
  simp only [isBlank, Bool.or_eq_true, beq_iff_eq] at blank
  unfold advance
  rcases blank with ((rfl | rfl) | rfl) | rfl <;> simp only [here] <;> rfl

theorem advance_single (h : Stands bytes start (first :: rest)) {kind : Kind}
    (single : singleKind? first = some kind) (line : Nat) :
    advance bytes start line = some (.ofPiece start line (cut first rest).1) := by
  have here := h.peekChar_ascii (begins_ascii (.inl (by simp [single])))
  have cutting : cut first rest = (.token kind [first], rest) := by simp [cut, single]
  rw [cutting, ofPiece_operator (listed_of_single single)]
  unfold advance
  simp only [here, single]
  rfl

/-- A comparison sign is one piece alone and another with an equals sign behind it. -/
theorem advance_comparison (h : Stands bytes start (first :: rest)) {alone paired : Kind}
    (single : singleKind? first = none)
    (comparison : comparisonKinds? first = some (alone, paired)) (line : Nat) :
    advance bytes start line = some (.ofPiece start line (cut first rest).1) := by
  have begins : Begins first := .inr (.inl (by rw [comparison]; rfl))
  have ascii := begins_ascii begins
  have here := h.peekChar_ascii ascii
  have equals := (h.step ascii).peekChar_eq_iff (c := '=') (by decide) (by decide)
  obtain ⟨one, two⟩ := listed_of_comparison comparison
  unfold advance
  simp only [here, single, comparison, equals]
  -- one byte more tells the two operators apart
  by_cases paired : rest.head? = some '='
  · cases rest with
    | nil => cases paired
    | cons next after =>
      cases paired
      rw [if_pos (List.head?_cons ..)]
      simp only [cut, single, comparison]
      rw [ofPiece_operator two]
      rfl
  · rw [if_neg paired]
    have cutting : (cut first rest).1 = .token alone [first] := by
      simp only [cut, single, comparison]
      split
      · exact absurd rfl paired
      · rfl
    rw [cutting, ofPiece_operator one]
    rfl

/-- A slash is an operator, or a comment up to the end of its line. -/
theorem advance_slash (h : Stands bytes start ('/' :: rest)) (line : Nat) :
    advance bytes start line = some (.ofPiece start line (cut '/' rest).1) := by
  have ascii : '/'.toNat < 128 := by decide
  have here := h.peekChar_ascii ascii
  have slash := (h.step ascii).peekChar_eq_iff (c := '/') (by decide) (by decide)
  have unfolded : advance bytes start line =
      if peekChar bytes (start + 1) = '/' then
        some ⟨.nothing, skipLine bytes (start + 2), line⟩
      else some ⟨.token .slash none, start + 1, line⟩ := by
    unfold advance
    simp only [here]
    rfl
  rw [unfolded]
  simp only [slash]
  -- a second slash begins a comment, whose line end is left for the next piece
  by_cases comment : rest.head? = some '/'
  · cases rest with
    | nil => cases comment
    | cons next after =>
      cases comment
      have body := ((h.step ascii).step ascii).rest
      have flat : newlines ('/' :: '/' :: after.takeWhile (· ≠ '\n')) = 0 := by
        refine List.count_eq_zero.mpr fun among => ?_
        have inside : '\n' ∈ after.takeWhile (· ≠ '\n') := by simpa using among
        exact absurd (mem_takeWhile inside) (by decide)
      have ends : skipLine bytes (start + 2) =
          start + (encode ('/' :: '/' :: after.takeWhile (· ≠ '\n'))).length := by
        have search := takeWhile_encode (b := 10) (by decide) after
        rw [skipLine, body, search, length_encode_ascii ascii, length_encode_ascii ascii]
        show start + 2 + (encode (after.takeWhile (· ≠ '\n'))).length = _
        omega
      have cutting : (cut '/' ('/' :: after)).1 =
          .comment ('/' :: '/' :: after.takeWhile (· ≠ '\n')) := by
        show (cutSlash ('/' :: after)).1 = _
        rw [cutSlash, List.takeWhile_cons_of_pos (by decide)]
      rw [if_pos (List.head?_cons ..), cutting, ends, Advance.ofPiece, Piece.text, flat]
      rfl
  · rw [if_neg comment]
    have cutting : (cut '/' rest).1 = .token .slash ['/'] := by
      show (cutSlash rest).1 = _
      unfold cutSlash
      split
      · exact absurd rfl comment
      · rfl
    rw [cutting, ofPiece_operator (by decide)]
    rfl

/-- A string is closed by the next quote, or runs unclosed to the end of the text. -/
theorem advance_string (h : Stands bytes start ('"' :: rest)) (line : Nat) :
    advance bytes start line = some (.ofPiece start line (cut '"' rest).1) := by
  have ascii : '"'.toNat < 128 := by decide
  have here := h.peekChar_ascii ascii
  have unfolded : advance bytes start line = advanceString bytes start line := by
    unfold advance
    simp only [here]
    rfl
  have body := h.step ascii
  have cutting : cut '"' rest = cutString rest := rfl
  rw [unfolded, advanceString, cutting]
  -- a string that is not closed takes the text to its end
  by_cases quoted : '"' ∈ rest
  · obtain ⟨contents, after, rfl, closed⟩ := List.eq_append_cons_of_mem quoted
    have quote : ∀ c ∈ ('"' :: after).head?, c = '"' := by
      rintro _ ⟨⟩
      rfl
    have inside : ¬ bytes.length ≤ start + 1 + (encode contents).length := by
      rw [body.move.at_end_iff]
      exact List.cons_ne_nil _ _
    have slice := body.slice
    have flat : newlines ('"' :: contents ++ ['"']) = newlines contents := by
      simp [newlines]
    rw [skipString_row body closed quote, cutString_closed closed, Advance.ofPiece, Piece.text,
      flat, List.cons_append, length_encode_ascii ascii, encode_append, List.length_append,
      length_encode_ascii ascii []]
    simp only [inside, if_false, slice, Found.ofPiece, if_true, List.drop_succ_cons,
      List.drop_zero, List.dropLast_concat, encode_nil, List.length_nil]
    show some (Advance.mk _ _ _) = some _
    congr 2
    omega
  · have whole : Stands bytes (start + 1) (rest ++ []) := by rwa [List.append_nil]
    have lines : newlines ('"' :: rest) = newlines rest := by simp [newlines]
    rw [skipString_row whole quoted ends_nil, cutString_unclosed quoted, Advance.ofPiece,
      Piece.text, lines, length_encode_ascii ascii]
    dsimp only
    rw [if_pos (whole.move.at_end_iff.mpr rfl), Nat.add_assoc, Nat.add_comm 1]
    rfl

theorem advance_of_word (h : Stands bytes start (first :: rest)) (word : isWordRest first)
    (line : Nat) : advance bytes start line =
      if first.isDigit then some ⟨.token .number none, skipNumber bytes (start + 1), line⟩
      else advanceWord bytes start line := by
  have here := h.peekChar_ascii (isWordRest_ascii first word)
  obtain ⟨single, comparison, slash, blank, quote⟩ := plain_of_word word
  have newline : first ≠ '\n' := by rintro rfl; exact absurd blank (by decide)
  have wordStart (digit : ¬ first.isDigit) : isWordStart first := by
    simpa [isWordRest, digit] using word
  unfold advance
  simp only [here, single, comparison, slash, newline, blank, quote, if_false,
    Bool.false_eq_true]
  split
  · rfl
  · next digit => rw [if_pos (wordStart digit)]

/-- Tokens other than strings stay on their line. -/
theorem ofPiece_lexeme {kind : Kind} {text : List Char} (lexeme : Lexeme kind text)
    (other : kind ≠ .string) (line : Nat) : Advance.ofPiece start line (.token kind text) =
      ⟨.token kind none, start + (encode text).length, line⟩ := by
  simp [Advance.ofPiece, Found.ofPiece, Piece.text, other, lexeme.newlines_eq_zero other]

/-- A point behind digits is part of the numeral exactly if a digit follows. -/
theorem skipNumber_eq (h : Stands bytes start (first :: rest)) (digit : first.isDigit) :
    skipNumber bytes (start + 1) = start + (encode (cutNumber first rest).1.text).length := by
  have ascii := isDigit_ascii first digit
  have body := h.step ascii
  rcases numeral_cases rest with ⟨whole, after, rfl, digits, ends, fraction⟩ |
    ⟨whole, next, fraction, after, rfl, digits, more, ends⟩
  -- no fraction: either no point comes next, or no digit behind it
  · have behind := body.move
    have stop : ¬ (peekChar bytes (start + 1 + (encode whole).length) = '.' ∧
        (peekChar bytes (start + 1 + (encode whole).length + 1)).isDigit) := by
      rintro ⟨point, next⟩
      rw [behind.peekChar_eq_iff (by decide) (by decide)] at point
      obtain ⟨more, rfl⟩ := List.head?_eq_some_iff.mp point
      rw [(behind.step (by decide)).test isDigit_ascii (by decide)] at next
      cases more with
      | nil => cases next
      | cons d more => exact Bool.false_ne_true ((fraction d more rfl).symm.trans next)
    rw [skipNumber, skip_row body isDigit_ascii (by decide) digits ends,
      if_neg stop, cutNumber_integer digits ends fraction, Piece.text, length_encode_ascii ascii]
    omega
  · have point := body.move
    have later := point.step (by decide)
    have digit : (peekChar bytes (start + 1 + (encode whole).length + 1)).isDigit := by
      rw [later.test isDigit_ascii (by decide)]
      exact more next List.mem_cons_self
    rw [skipNumber, skip_row body isDigit_ascii (by decide) digits (point_ends _),
      if_pos ⟨point.peekChar_ascii (by decide), digit⟩,
      skip_row later isDigit_ascii (by decide) more ends, cutNumber_decimal digits more ends,
      Piece.text, List.cons_append, length_encode_ascii ascii, encode_append, List.length_append,
      length_encode_ascii (c := '.') (by decide)]
    omega

theorem advance_number (h : Stands bytes start (first :: rest)) (digit : first.isDigit)
    (line : Nat) : advance bytes start line = some (.ofPiece start line (cut first rest).1) := by
  have word := isWordRest_of_digit digit
  obtain ⟨text, number, lexeme⟩ := lexeme_cutNumber rest digit
  rw [advance_of_word h word, if_pos digit, skipNumber_eq h digit, cut_of_word rest word,
    if_pos digit, number, ofPiece_lexeme lexeme (by decide)]
  rfl

theorem wordKind_ne_string (word : List Char) : wordKind word ≠ .string := by
  have all : ∀ entry ∈ keywords, entry.2 ≠ .string := by decide
  rw [wordKind]
  cases found : keywords.lookup word with
  | none => decide
  | some kind =>
    obtain ⟨before, after, same, -⟩ := List.lookup_eq_some_iff.mp found
    exact all (word, kind) (by rw [same]; simp)

/-- A word is a keyword if it is listed as one, and a name otherwise. -/
theorem advance_word (h : Stands bytes start (first :: rest)) (word : isWordStart first)
    (line : Nat) : advance bytes start line = some (.ofPiece start line (cut first rest).1) := by
  have inside := isWordRest_of_start word
  have ascii := isWordRest_ascii first inside
  have body := h.step ascii
  have cutting : (cut first rest).1 =
      .token (wordKind (first :: rest.takeWhile isWordRest))
        (first :: rest.takeWhile isWordRest) := by
    rw [cut_of_word rest inside, not_digit_of_start word]
    rfl
  -- the bytes skipped are those of the longest word
  have row : ∀ c ∈ rest.takeWhile isWordRest, isWordRest c := fun _ => mem_takeWhile
  have lexeme := lexeme_word word row
  have slice : slice? bytes start (start + (encode (first :: rest.takeWhile isWordRest)).length) =
      some (String.ofList (first :: rest.takeWhile isWordRest)) := by
    apply Stands.slice
    rwa [List.cons_append, List.takeWhile_append_dropWhile]
  have ends : skip bytes isWordRest (by decide) (start + 1) =
      start + (encode (first :: rest.takeWhile isWordRest)).length := by
    rw [skip_eq body isWordRest_ascii, length_encode_ascii ascii]
    omega
  rw [advance_of_word h inside, not_digit_of_start word, cutting,
    ofPiece_lexeme lexeme (wordKind_ne_string _), advanceWord, ends, slice]
  simp

/-- What begins at a position between two characters is the first piece of the text
behind it. -/
theorem advance_eq (h : Stands bytes start (first :: rest)) (line : Nat) :
    advance bytes start line = some (.ofPiece start line (cut first rest).1) := by
  by_cases blank : isBlank first
  · exact advance_blank h blank line
  by_cases begins : Begins first
  · cases single : singleKind? first with
    | some kind => exact advance_single h single line
    | none =>
    cases comparison : comparisonKinds? first with
    | some kinds => exact advance_comparison h single comparison line
    | none =>
    simp only [Begins, single, comparison, Option.isSome_none, Bool.false_eq_true,
      false_or] at begins
    rcases begins with rfl | rfl | word
    · exact advance_slash h line
    · exact advance_string h line
    by_cases digit : first.isDigit
    · exact advance_number h digit line
    · have start : isWordStart first := by simpa [isWordRest, digit] using word
      exact advance_word h start line
  · exact advance_other h begins blank line

end Pieces

/-! ## The items of a text, from its bytes -/

/-- What a reader of bytes yields for an item. -/
def Event.ofItem : Item → Event
  | .ok item => .token item (if item.kind = .string then some item.contents else none)
  | .error fault => .error fault

/-- What the calls at a cursor are to yield: the items of the text behind it and its end,
if the cursor is between two characters of the text and has not ended, and nothing if it
has. -/
inductive Ahead (bytes : List UInt8) : Cursor → List Event → Prop
  | reading {position cs} (line : Nat) (stands : Stands bytes position cs) :
      Ahead bytes ⟨position, line, false⟩
        ((itemsFrom line (pieces cs)).map .ofItem ++ [.finish (line + newlines cs)])
  | ended {position line} : Ahead bytes ⟨position, line, true⟩ []

section Reader

variable {bytes : List UInt8}

theorem length_le_encode (cs : List Char) : cs.length ≤ (encode cs).length := by
  induction cs with
  | nil => exact Nat.zero_le _
  | cons c rest ih =>
    have := List.length_pos_iff.mpr (String.utf8EncodeChar_ne_nil (c := c))
    rw [encode_cons, List.length_append, List.length_cons]
    omega

/-- A call steps over the pieces that are no items, up to the next item or the end. -/
theorem pull_reading {position : Nat} {cs : List Char} (stands : Stands bytes position cs)
    (line : Nat) {fuel : Nat} (enough : cs.length < fuel) :
    ∃ event next more, pull bytes fuel ⟨position, line, false⟩ = some (some event, next) ∧
      Ahead bytes next more ∧ (itemsFrom line (pieces cs)).map Event.ofItem ++
        [.finish (line + newlines cs)] = event :: more := by
  induction fuel generalizing position cs line with
  | zero => cases enough
  | succ fuel ih =>
  cases cs with
  | nil =>
    have found : pull bytes (fuel + 1) ⟨position, line, false⟩ =
        some (some (.finish line), ⟨position, line, true⟩) := by
      rw [pull, if_neg nofun, if_pos (stands.at_end_iff.mpr rfl)]
    exact ⟨_, _, _, found, .ended, rfl⟩
  | cons first rest =>
    have split := text_cut first rest
    have shorter := length_cut first rest
    have flat : newlines (first :: rest) =
        newlines (cut first rest).1.text + newlines (cut first rest).2 := by
      rw [← newlines_append, split]
    have inside : ¬ bytes.length ≤ position := fun ends => nomatch stands.at_end_iff.mp ends
    have first_piece := advance_eq stands line
    rw [← split] at stands
    have lexeme := stands.slice
    have behind := stands.move
    rw [pieces_cons, itemsFrom, flat, ← Nat.add_assoc]
    simp only [pull, inside, if_false, first_piece, Bool.false_eq_true, Option.bind_eq_bind,
      Option.bind_some, Advance.ofPiece]
    -- what is ahead behind the piece
    have later := Ahead.reading (line + newlines (cut first rest).1.text) behind
    generalize (cut first rest).1 = piece at *
    generalize (cut first rest).2 = after at *
    have shorter : after.length < fuel := by
      rw [List.length_cons] at enough
      omega
    cases piece with
    | token kind text =>
      refine ⟨_, _, _, ?_, later, rfl⟩
      simp only [Found.ofPiece, Piece.text] at lexeme ⊢
      rw [lexeme]
      simp [Event.ofItem, Token.contents]
    | blank c | comment body => exact ih behind _ shorter
    | stray c | unclosed body => exact ⟨_, _, _, rfl, later, rfl⟩

/-- A call at a cursor yields the first event ahead of it, and leaves the others ahead. -/
theorem pull_ahead {c : Cursor} {ahead : List Event} (h : Ahead bytes c ahead) :
    ∃ next, pull bytes (bytes.length + 1) c = some (ahead.head?, next) ∧
      Ahead bytes next ahead.tail := by
  cases h with
  | @reading _ cs line stands =>
    have enough : cs.length < bytes.length + 1 := by
      have := length_le_encode cs
      have := stands.length
      omega
    obtain ⟨event, next, more, found, later, whole⟩ := pull_reading stands line enough
    rw [whole]
    exact ⟨next, found, later⟩
  | ended => exact ⟨_, rfl, .ended⟩

/-- As many calls at a cursor yield as many events, and nothing once these are through. -/
theorem events_ahead {c : Cursor} {ahead : List Event} (h : Ahead bytes c ahead) (count : Nat) :
    events bytes count c = some ((List.range count).map (ahead[·]?)) := by
  induction count generalizing c ahead with
  | zero => rfl
  | succ count ih =>
    obtain ⟨next, found, later⟩ := pull_ahead h
    have shifted : (fun i => ahead[i]?) ∘ Nat.succ = fun i => ahead.tail[i]? := by
      funext i
      simp
    rw [events, found, List.range_succ_eq_map, List.map_cons, List.map_map, shifted]
    simp [ih later, List.head?_eq_getElem?]

/-- The calls yield the items of the text in order, then its end once, and then nothing.
No cut fails. -/
theorem events_eq (text : String) (count : Nat) :
    events text.toUTF8.data.toList count ⟨0, 1, false⟩ = some ((List.range count).map fun i =>
      ((scan text).items.toList.map Event.ofItem ++ [.finish (scan text).line])[i]?) := by
  obtain ⟨items, line⟩ := scan_eq text
  rw [bytes_eq, items, line]
  exact events_ahead (.reading 1 (.start text)) count

end Reader

/-! ## The whole scan -/

/-- A string token is its contents in quotes. -/
theorem string_of_mem {text : String} {token : Token}
    (among : .ok token ∈ (scan text).items.toList) (string : token.kind = .string) :
    token.lexeme = "\"" ++ token.contents ++ "\"" := by
  have lexeme := lexeme_of_item among
  rw [string] at lexeme
  obtain ⟨contents, -, shape⟩ := lexeme.of_string
  apply String.toList_inj.mp
  simp [Token.contents, shape]

/-- A text is cut into pieces in one way only: each is the longest token where it begins,
a blank, a comment, a character that begins no token, or a string that is never closed.
The scan gives the tokens and the errors among the pieces, each with the line on which its
piece ends, and a reader of bytes yields them, the end once, and nothing after it. None
of its cuts goes through a character. -/
theorem scan_by_longest_match (text : String) :
    ∃ found, (∀ other, Segmented text.toList other ↔ other = found) ∧
      found.flatMap Piece.text = text.toList ∧
      (scan text).items.toList = itemsOf found ∧
      (∀ token, .ok token ∈ (scan text).items.toList → token.kind = .string →
        token.lexeme = "\"" ++ token.contents ++ "\"") ∧
      (scan text).line = 1 + newlines text.toList ∧
      ∀ count, events text.toUTF8.data.toList count ⟨0, 1, false⟩ =
        some ((List.range count).map fun i =>
          ((scan text).items.toList.map Event.ofItem ++ [.finish (scan text).line])[i]?) :=
  ⟨pieces text.toList, fun _ => segmented_iff, (segmented_pieces text.toList).text,
    items_scan text, fun _ => string_of_mem, (scan_eq text).2, events_eq text⟩

end ClassScript.Source
