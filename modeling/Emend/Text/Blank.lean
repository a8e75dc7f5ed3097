import Emend.Text

/-!
White space in the sense of the Unicode database: the characters of bidirectional class white space,
segment separator or paragraph separator, and the space separators. The zero-width space is not among
them. -/
namespace Emend.Text

/-- The white space characters outside the run of spaces that starts at U+2000. -/
def blanks : List Nat :=
  [0x09, 0x0A, 0x0B, 0x0C, 0x0D, 0x1C, 0x1D, 0x1E, 0x1F, 0x20, 0x85, 0xA0, 0x1680, 0x2028, 0x2029,
    0x202F, 0x205F, 0x3000]

/-- Whether `c` is white space: one of `blanks`, or one of the eleven spaces from U+2000 to U+200A. -/
def isBlank (c : Char) : Bool :=
  blanks.contains c.toNat || (0x2000 ≤ c.toNat && c.toNat ≤ 0x200A)

def strip (text : Text) : Text :=
  text.trim isBlank

end Emend.Text
