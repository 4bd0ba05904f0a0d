import Mathlib.Tactic

/-!
# Texts as bytes

The bytes of a text are those of its characters, one after another. A character below
0x80 is one byte, and all bytes of the others are 0x80 or more (`encode_ascii`,
`high_of_mem`); so a position is a boundary of characters if and only if the byte there
does not continue one, and a text can be cut at boundaries only (`Stands.slice`).
-/

namespace ClassScript.Source

/-- The bytes of characters. -/
def encode (cs : List Char) : List UInt8 := cs.flatMap String.utf8EncodeChar

/-- The byte at a position, or zero behind the last one. -/
def peek (bytes : List UInt8) (position : Nat) : UInt8 := bytes[position]?.getD 0

/-- Whether a position is between two characters, where the bytes are a text: those that
continue a character are the ones from 0x80 to 0xBF. -/
def isBoundary (bytes : List UInt8) (position : Nat) : Bool :=
  match bytes[position]? with
  | some b => b < 0x80 || 0xC0 ≤ b
  | none => position == bytes.length

/-- The text between two positions. There is none unless both are boundaries. -/
def slice? (bytes : List UInt8) (first last : Nat) : Option String :=
  if first ≤ last ∧ isBoundary bytes first ∧ isBoundary bytes last then
    String.fromUTF8? ((bytes.drop first).take (last - first)).toByteArray
  else none

@[simp] theorem encode_nil : encode [] = [] := rfl

theorem encode_cons (c : Char) (cs : List Char) :
    encode (c :: cs) = String.utf8EncodeChar c ++ encode cs := rfl

theorem encode_append (cs ds : List Char) : encode (cs ++ ds) = encode cs ++ encode ds :=
  List.flatMap_append

theorem utf8Encode_eq (cs : List Char) : cs.utf8Encode = (encode cs).toByteArray := rfl

theorem bytes_eq (text : String) : text.toUTF8.data.toList = encode text.toList := by
  rw [String.toUTF8_eq_toByteArray, ← String.utf8Encode_toList, utf8Encode_eq,
    List.toList_data_toByteArray]

theorem fromUTF8?_encode (cs : List Char) :
    String.fromUTF8? (encode cs).toByteArray = some (String.ofList cs) := by
  have valid : (encode cs).toByteArray.IsValidUTF8 := ByteArray.isValidUTF8_utf8Encode
  rw [String.fromUTF8?, dif_pos valid]
  rfl

/-! ## The bytes of a character -/

theorem encode_ascii {c : Char} (ascii : c.toNat < 128) :
    String.utf8EncodeChar c = [UInt8.ofNat c.toNat] := by
  have small : c.val.toNat ≤ 127 := Nat.le_of_lt_succ ascii
  rw [String.utf8EncodeChar.eq_1]
  simp only [small, if_true]
  rfl

theorem ofUInt8_ascii {c : Char} (ascii : c.toNat < 128) :
    Char.ofUInt8 (UInt8.ofNat c.toNat) = c := by
  apply Char.ext
  apply UInt32.toNat_inj.mp
  show (UInt8.ofNat c.toNat).toUInt32.toNat = c.val.toNat
  rw [UInt8.toNat_toUInt32, UInt8.toNat_ofNat']
  exact Nat.mod_eq_of_lt (Nat.lt_trans ascii (by decide))

/-- A character that is not ASCII has a first byte from 0xC0 on, and its other bytes
continue it. -/
theorem encode_high {c : Char} (high : 128 ≤ c.toNat) :
    ∃ first rest, String.utf8EncodeChar c = first :: rest ∧ 0xC0 ≤ first ∧
      ∀ b ∈ rest, 0x80 ≤ b ∧ b < 0xC0 := by
  have large : ¬ c.val.toNat ≤ 127 := Nat.not_le_of_lt high
  have begins (v size start : Nat) (fits : start + size ≤ 256) (above : 192 ≤ start)
      (some : 0 < size) : 0xC0 ≤ UInt8.ofNat (v % size + start) := by
    have := Nat.mod_lt v some
    rw [UInt8.le_iff_toNat_le, UInt8.toNat_ofNat', Nat.mod_eq_of_lt (by omega)]
    show 192 ≤ _
    omega
  -- two, three or four bytes: the first has its high bits set, and the others are continuation
  -- bytes
  have continues (v : Nat) : 0x80 ≤ UInt8.ofNat (v % 64 + 128) ∧
      UInt8.ofNat (v % 64 + 128) < 0xC0 := by
    rw [UInt8.le_iff_toNat_le, UInt8.lt_iff_toNat_lt, UInt8.toNat_ofNat',
      Nat.mod_eq_of_lt (by omega)]
    constructor
    · show 128 ≤ _
      omega
    · show _ < 192
      omega
  rw [String.utf8EncodeChar.eq_1]
  simp only [large, if_false]
  split
  · refine ⟨_, _, rfl, begins _ 32 192 (by decide) (by decide) (by decide), ?_⟩
    simp only [List.mem_cons, List.not_mem_nil, or_false, forall_eq, continues, and_self]
  split
  · refine ⟨_, _, rfl, begins _ 16 224 (by decide) (by decide) (by decide), ?_⟩
    simp only [List.mem_cons, List.not_mem_nil, or_false, forall_eq_or_imp, forall_eq,
      continues, and_self]
  · refine ⟨_, _, rfl, begins _ 8 240 (by decide) (by decide) (by decide), ?_⟩
    simp only [List.mem_cons, List.not_mem_nil, or_false, forall_eq_or_imp, forall_eq,
      continues, and_self]

/-- A byte below 0x80 stands for itself and is in no other character. -/
theorem count_encode {b : UInt8} (low : b < 0x80) (cs : List Char) :
    (encode cs).count b = cs.count (Char.ofUInt8 b) := by
  induction cs with
  | nil => rfl
  | cons c rest ih =>
    rw [encode_cons, List.count_append, ih, List.count_cons, Nat.add_comm]
    congr 1
    rcases Nat.lt_or_ge c.toNat 128 with ascii | high
    · rw [encode_ascii ascii, List.count_singleton]
      have same : UInt8.ofNat c.toNat = b ↔ c = Char.ofUInt8 b := by
        constructor
        · rintro rfl
          exact (ofUInt8_ascii ascii).symm
        · rintro rfl
          exact UInt8.ofNat_toNat
      simp only [beq_iff_eq, same]
    -- a character beyond ASCII has no low byte in its encoding
    · obtain ⟨first, more, same, above, between⟩ := encode_high high
      have absent : b ∉ String.utf8EncodeChar c := by
        rw [same]
        intro inside
        rcases List.mem_cons.mp inside with rfl | inside
        · exact absurd low (UInt8.not_lt.mpr (UInt8.le_trans (by decide) above))
        · exact absurd low (UInt8.not_lt.mpr (between b inside).1)
      have other : c ≠ Char.ofUInt8 b := by
        rintro rfl
        have : b.toNat < 128 := UInt8.lt_iff_toNat_lt.mp low
        exact absurd high (Nat.not_le_of_lt this)
      rw [List.count_eq_zero.mpr absent]
      simp [other]

/-- An ASCII byte is in an encoding just where its character is in the text. -/
theorem mem_encode {b : UInt8} (low : b < 0x80) {cs : List Char} :
    b ∈ encode cs ↔ Char.ofUInt8 b ∈ cs := by
  rw [← List.count_pos_iff, ← List.count_pos_iff, count_encode low]

/-! ## Positions between characters -/

/-- The position is between two characters: the bytes from there on are those of the
given characters. -/
structure Stands (bytes : List UInt8) (position : Nat) (cs : List Char) : Prop where
  rest : bytes.drop position = encode cs
  inside : position ≤ bytes.length

namespace Stands

variable {bytes : List UInt8} {position : Nat} {c : Char} {cs ds : List Char}

theorem start (text : String) : Stands (encode text.toList) 0 text.toList := ⟨rfl, Nat.zero_le _⟩

theorem length (h : Stands bytes position cs) :
    bytes.length = position + (encode cs).length := by
  have := congrArg List.length h.rest
  rw [List.length_drop] at this
  have := h.inside
  omega

/-- Behind some of the characters. -/
theorem move (h : Stands bytes position (cs ++ ds)) :
    Stands bytes (position + (encode cs).length) ds where
  rest := by
    rw [← List.drop_drop, h.rest, encode_append, List.drop_left]
  inside := by
    have := h.length
    rw [encode_append, List.length_append] at this
    omega

theorem getElem?_eq (h : Stands bytes position cs) : bytes[position]? = (encode cs).head? := by
  rw [← h.rest, List.head?_drop]

/-- A cursor is at the end of the bytes just where no character is left. -/
theorem at_end_iff (h : Stands bytes position cs) : bytes.length ≤ position ↔ cs = [] := by
  rw [h.length]
  cases cs with
  | nil => simp
  | cons c rest =>
    have : 0 < (String.utf8EncodeChar c).length :=
      List.length_pos_iff.mpr String.utf8EncodeChar_ne_nil
    rw [encode_cons, List.length_append]
    constructor
    · omega
    · nofun

/-- Between two characters there is a boundary. -/
theorem boundary (h : Stands bytes position cs) : isBoundary bytes position := by
  unfold isBoundary
  rw [h.getElem?_eq]
  cases cs with
  | nil => simp [h.length]
  | cons c rest =>
    rw [encode_cons]
    rcases Nat.lt_or_ge c.toNat 128 with ascii | high
    · have low : UInt8.ofNat c.toNat < 0x80 := by
        rw [UInt8.lt_iff_toNat_lt, UInt8.toNat_ofNat', Nat.mod_eq_of_lt (by omega)]
        exact ascii
      rw [encode_ascii ascii]
      simp [low]
    · obtain ⟨first, more, same, above, -⟩ := encode_high high
      rw [same]
      simp [above]

/-- Characters that stand at a position can be cut off there. -/
theorem slice (h : Stands bytes position (cs ++ ds)) :
    slice? bytes position (position + (encode cs).length) = some (String.ofList cs) := by
  have taken : (bytes.drop position).take (encode cs).length = encode cs := by
    rw [h.rest, encode_append, List.take_left]
  rw [slice?, if_pos ⟨Nat.le_add_right _ _, h.boundary, h.move.boundary⟩,
    Nat.add_sub_cancel_left, taken, fromUTF8?_encode]

/-- The byte of an ASCII character. -/
theorem peek_ascii (h : Stands bytes position (c :: cs)) (ascii : c.toNat < 128) :
    peek bytes position = UInt8.ofNat c.toNat := by
  rw [peek, h.getElem?_eq, encode_cons, encode_ascii ascii]
  rfl

/-- A byte of a character that is not ASCII is no ASCII character. -/
theorem peek_high (h : Stands bytes position (c :: cs)) (high : 128 ≤ c.toNat) :
    0xC0 ≤ peek bytes position := by
  obtain ⟨first, more, same, above, -⟩ := encode_high high
  rw [peek, h.getElem?_eq, encode_cons, same]
  exact above

theorem peek_end (h : Stands bytes position []) : peek bytes position = 0 := by
  rw [peek, h.getElem?_eq]
  rfl

end Stands

end ClassScript.Source
