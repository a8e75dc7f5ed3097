import Emend.Place

/-!
From offsets to line numbers and back. Lines count from zero. A line break is a carriage return with a
line feed after it, or either of them alone; it belongs to the line it ends, so the next line starts
right after it, and a break at the very end opens an empty last line. -/
namespace Emend

/-- Where the lines of one source start, the first at offset zero. -/
structure Lines where
  starts : List Nat
  length : Nat
deriving DecidableEq, Repr

namespace Lines

/-- The offsets right after each line break, counting the head of the text as `offset`. -/
def breaks : Text → Nat → List Nat
  | [], _ => []
  | '\r' :: '\n' :: rest, offset => (offset + 2) :: breaks rest (offset + 2)
  | c :: rest, offset =>
    if c = '\r' ∨ c = '\n' then (offset + 1) :: breaks rest (offset + 1)
    else breaks rest (offset + 1)

def ofText (source : Text) : Lines where
  starts := 0 :: breaks source 0
  length := source.length

def count (lines : Lines) : Nat :=
  lines.starts.length

/-- The line that holds a known offset: as many lines start at or before it, less the first. -/
def line (lines : Lines) (offset : Nat) : Nat :=
  lines.starts.countP (· ≤ offset) - 1

/-- The line that holds an offset, which must lie within the source or at its end. -/
def lineAt (lines : Lines) (offset : Int) : Except Fault Nat :=
  if 0 ≤ offset ∧ offset ≤ lines.length then .ok (lines.line offset.toNat)
  else .error (.outsideSource "offset" offset offset lines.length)

/-- Where a line starts. A line past the last one starts at the end of the source, so that ranges of
lines turn into ranges of offsets. A negative number counts back from the last line, and there is no
line before the first. -/
def startOf (lines : Lines) (number : Int) : Except Fault Nat :=
  if lines.starts.length ≤ number then .ok lines.length
  else Place.item lines.starts number .noSuchLine

end Lines
end Emend
