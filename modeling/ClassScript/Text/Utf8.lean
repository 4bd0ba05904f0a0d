/-!
# Reading UTF-8

Bytes become text if they are well-formed UTF-8. Otherwise the first fault is
reported: where the text before it ends, and how many bytes can be discarded
before a new character may begin, or that the bytes end inside a character.
-/

namespace ClassScript.Text.Utf8

/-- The first place where bytes are not UTF-8. -/
inductive Fault where
  /-- `length` bytes from `index` begin no character. -/
  | invalid (length index : Nat)
  /-- The bytes from `index` to the end begin a character and do not finish it. -/
  | incomplete (index : Nat)
deriving Repr, DecidableEq

def Fault.message : Fault → String
  | .invalid length index =>
    "invalid utf-8 sequence of " ++ toString length ++ " bytes from index " ++ toString index
  | .incomplete index => "incomplete utf-8 byte sequence from index " ++ toString index

/-- What stands at the front of the remaining bytes. -/
inductive Front where
  | character (width : Nat)
  | invalid (length : Nat)
  | incomplete
deriving Repr, DecidableEq

/-- Bytes that continue a character. -/
def isContinuation (b : UInt8) : Bool := 0x80 ≤ b && b ≤ 0xBF

/-- Whether a second byte can follow a first one: neither an overlong form, nor a
surrogate, nor a code point beyond the last. -/
def isSecond (first second : UInt8) : Bool :=
  if first == 0xE0 then 0xA0 ≤ second && second ≤ 0xBF
  else if first == 0xED then 0x80 ≤ second && second ≤ 0x9F
  else if first == 0xF0 then 0x90 ≤ second && second ≤ 0xBF
  else if first == 0xF4 then 0x80 ≤ second && second ≤ 0x8F
  else isContinuation second

/-- The number of bytes of a character with this first byte. -/
def width? (first : UInt8) : Option Nat :=
  if first ≤ 0x7F then some 1
  else if 0xC2 ≤ first && first ≤ 0xDF then some 2
  else if 0xE0 ≤ first && first ≤ 0xEF then some 3
  else if 0xF0 ≤ first && first ≤ 0xF4 then some 4
  else none

/-- The third and later bytes of a character: how many of `missing` are there, after
`taken` bytes in front of them. -/
def continued (taken : Nat) : Nat → List UInt8 → Front
  | 0, _ => .character taken
  | _ + 1, [] => .incomplete
  | missing + 1, b :: rest =>
    if isContinuation b then continued (taken + 1) missing rest else .invalid taken

def front (first : UInt8) (rest : List UInt8) : Front :=
  match width? first, rest with
  | none, _ => .invalid 1
  | some 1, _ => .character 1
  | some _, [] => .incomplete
  | some width, second :: rest =>
    if isSecond first second then continued 2 (width - 2) rest else .invalid 1

/-- The first fault of bytes that begin at `index`. The fuel bounds the number of
characters. -/
def firstFault? : Nat → Nat → List UInt8 → Option Fault
  | 0, _, _ => none
  | _, _, [] => none
  | fuel + 1, index, first :: rest =>
    match front first rest with
    | .character width => firstFault? fuel (index + width) (rest.drop (width - 1))
    | .invalid length => some (.invalid length index)
    | .incomplete => some (.incomplete index)

/-- The text that bytes encode. -/
def decode (bytes : ByteArray) : Except Fault String :=
  match String.fromUTF8? bytes with
  | some text => .ok text
  | none => .error ((firstFault? bytes.size 0 bytes.toList).getD (.incomplete bytes.size))

end ClassScript.Text.Utf8
