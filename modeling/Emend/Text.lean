/-!
Text as a list of characters, so that an offset is a count of characters and slices, searches and
comparisons are plain list functions. `find?` is the one search of the library: the first place
within a window at which a needle stands whole. -/
namespace Emend

/-- Source text, and every piece of it: a list of code points. -/
abbrev Text := List Char

namespace Text

/-- The characters from `start` up to `stop`; both ends are clamped to the text. -/
def slice (text : Text) (start stop : Nat) : Text :=
  (text.drop start).take (stop - start)

/-- The offset of the first whole copy of `needle`, counting the head of the text as `offset`. -/
def seek (needle : Text) : Text → Nat → Option Nat
  | [], offset => if needle.isEmpty then some offset else none
  | c :: rest, offset =>
    if needle.isPrefixOf (c :: rest) then some offset else seek needle rest (offset + 1)

/-- A copy that is found lies within the text that was looked through. -/
theorem seek_bounds {needle text : Text} {offset found : Nat}
    (hit : seek needle text offset = some found) :
    offset ≤ found ∧ found + needle.length ≤ offset + text.length := by
  induction text generalizing offset with
  | nil =>
    simp only [seek] at hit
    split at hit <;> simp_all
  | cons c rest ih =>
    simp only [seek] at hit
    split at hit
    · rename_i fits
      have short := (List.isPrefixOf_iff_prefix.mp fits).length_le
      simp_all
    · have later := ih hit
      simp only [List.length_cons]
      omega

/-- The least offset from `start` on at which `needle` stands whole before `limit`. -/
def find? (text needle : Text) (start limit : Nat) : Option Nat :=
  seek needle ((text.take limit).drop start) start

/-- Whether `needle` occurs anywhere in the text; the empty needle occurs in every text. -/
def contains (text needle : Text) : Bool :=
  (seek needle text 0).isSome

/-- The text without the characters of a class at its two ends. -/
def trim (strips : Char → Bool) (text : Text) : Text :=
  ((text.dropWhile strips).reverse.dropWhile strips).reverse

/-- The text without `tail` at its end, where it ends so; otherwise the text itself. -/
def dropTail (text tail : Text) : Text :=
  if tail.isSuffixOf text then text.take (text.length - tail.length) else text

end Text
end Emend
