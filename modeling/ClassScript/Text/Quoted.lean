import ClassScript.Text.DefaultIgnorable
import ClassScript.Text.GraphemeExtend
import ClassScript.Text.Unprintable

/-!
# Quoted text

Text is quoted in two ways. `debug` is the form of a string in reports about
values, with escapes for what would not be seen. `data` is the form of a string
inside an S-expression: that of a string in a data interchange file.
-/

namespace ClassScript.Text.Quoted

/-- The digits of a code point in base sixteen, lower case. -/
def hex (c : Char) : String := String.ofList (Nat.toDigits 16 c.toNat)

/-- The sound marks of halfwidth Katakana. They extend the character in front of
them, but they are letters, drawn in a place of their own; no other letter extends
others. -/
def isHalfwidthSoundMark (c : Char) : Bool := c == '\uff9e' || c == '\uff9f'

/-- Whether a character would not be seen, or not be seen as a character of its
own. -/
def isHidden (c : Char) : Bool :=
  isUnprintable c || isDefaultIgnorable c ||
    (isGraphemeExtend c && !isHalfwidthSoundMark c)

/-- The characters that are written as escapes for want of a form of their own are those of
the three tables, but for the two letters among them. -/
theorem isHidden_iff {c : Char} : isHidden c = true ↔
    unprintableRanges.Contains c.toNat ∨ defaultIgnorableRanges.Contains c.toNat ∨
      graphemeExtendRanges.Contains c.toNat ∧ c ≠ '\uff9e' ∧ c ≠ '\uff9f' := by
  rw [← isUnprintable_iff, ← isDefaultIgnorable_iff, ← isGraphemeExtend_iff]
  simp [isHidden, isHalfwidthSoundMark, or_assoc]

/-- A character of a string in a report about values. -/
def debugChar (c : Char) : String :=
  match c with
  | '"' => "\\\""
  | '\\' => "\\\\"
  | '\n' => "\\n"
  | '\r' => "\\r"
  | '\t' => "\\t"
  | '\x00' => "\\0"
  | c => if isHidden c then "\\u\x7b" ++ hex c ++ "\x7d" else String.singleton c

/-- A character of a string inside an S-expression. -/
def dataChar (c : Char) : String :=
  match c with
  | '"' => "\\\""
  | '\\' => "\\\\"
  | '\x08' => "\\b"
  | '\x0c' => "\\f"
  | '\n' => "\\n"
  | '\r' => "\\r"
  | '\t' => "\\t"
  | c =>
    if c.toNat < 0x10 then "\\u000" ++ hex c
    else if c.toNat < 0x20 then "\\u00" ++ hex c
    else String.singleton c

/-- Text between quotes, each character in its written form. -/
def quote (write : Char → String) (s : String) : String :=
  s.foldl (fun quoted c => quoted ++ write c) "\"" ++ "\""

def debug (s : String) : String := quote debugChar s

def data (s : String) : String := quote dataChar s

end ClassScript.Text.Quoted
