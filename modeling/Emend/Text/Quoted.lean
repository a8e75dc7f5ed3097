import Emend.Text
import Emend.Text.Printable

/-!
The quoted form of a text, as messages and labels show it. The quote is the single one, unless the
text holds a single quote and no double one. The quote itself and the backslash take a backslash, the
three common controls their letter, and every other hidden character its number in two, four or eight
hexadecimal digits. -/
namespace Emend.Text

/-- A number in lower-case hexadecimal, filled up with zeros to `width` digits. -/
def hex (width number : Nat) : Text :=
  let digits := Nat.toDigits 16 number
  List.replicate (width - digits.length) '0' ++ digits

def quotedChar (quote c : Char) : Text :=
  if c = quote ∨ c = '\\' then ['\\', c]
  else if c = '\n' then ['\\', 'n']
  else if c = '\r' then ['\\', 'r']
  else if c = '\t' then ['\\', 't']
  else if isPrintable c then [c]
  else if c.toNat < 0x100 then '\\' :: 'x' :: hex 2 c.toNat
  else if c.toNat < 0x10000 then '\\' :: 'u' :: hex 4 c.toNat
  else '\\' :: 'U' :: hex 8 c.toNat

def quoteFor (text : Text) : Char :=
  if text.contains ['\''] && !text.contains ['"'] then '"' else '\''

/-- The text between quotes, with everything escaped that would be hidden or end it early. -/
def quoted (text : Text) : Text :=
  let quote := quoteFor text
  quote :: text.flatMap (quotedChar quote) ++ [quote]

end Emend.Text
