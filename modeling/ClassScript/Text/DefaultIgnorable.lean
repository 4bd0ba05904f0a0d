import ClassScript.Text.Ranges

/-!
# Characters that are ignored where they are shown

Fillers, joiners, selectors and other characters for which nothing is drawn: the
property `Default_Ignorable_Code_Point` of Unicode 17.0. Most of them are format
characters or extend others, but the fillers of Korean syllables are letters.
-/

namespace ClassScript.Text

def defaultIgnorableRanges : Ranges :=
  [(0xAD, 0xAD), (0x34F, 0x34F), (0x61C, 0x61C), (0x115F, 0x1160), (0x17B4, 0x17B5),
   (0x180B, 0x180F), (0x200B, 0x200F), (0x202A, 0x202E), (0x2060, 0x206F), (0x3164, 0x3164),
   (0xFE00, 0xFE0F), (0xFEFF, 0xFEFF), (0xFFA0, 0xFFA0), (0xFFF0, 0xFFF8),
   (0x1BCA0, 0x1BCA3), (0x1D173, 0x1D17A), (0xE0000, 0xE0FFF)]

/-- Whether nothing is drawn for a character. -/
def isDefaultIgnorable (c : Char) : Bool := defaultIgnorableRanges.has c.toNat

theorem defaultIgnorableRanges_ascend : defaultIgnorableRanges.ascendFrom 0 := by
  decide +kernel

theorem isDefaultIgnorable_iff {c : Char} :
    isDefaultIgnorable c = true ↔ defaultIgnorableRanges.Contains c.toNat :=
  Ranges.has_iff defaultIgnorableRanges_ascend _

end ClassScript.Text
