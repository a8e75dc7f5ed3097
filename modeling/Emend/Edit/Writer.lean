import Emend.Source.Span

/-!
Output that is anchored to the source. The writer keeps one offset, `reached`: the source before it
has been copied or dropped, the source after it has not been touched. Every operation moves that offset
forward or leaves it, so no character of the source can come out twice, and none is lost except by
`dropTo`. A bound, while there is one, keeps the offset from moving past the region being edited. -/
namespace Emend

/-- A piece of output: a span copied from the source, or text that was added. -/
inductive Part where
  | copied (span : Span)
  | inserted (text : Text)
deriving DecidableEq, Repr

def Part.text (source : Text) : Part → Text
  | copied span => span.text source
  | inserted text => text

/-- Output so far, in order, and how far into the source it reaches. -/
structure Writer where
  source : Text
  parts : List Part := []
  bound : Option Nat := none
  reached : Nat := 0
deriving DecidableEq, Repr

/-- What can be asked of a writer. Offsets are integers; one that is out of place is refused. -/
inductive Operation where
  | copyTo (offset : Int)
  | dropTo (offset : Int)
  | insert (text : Text)
  | replace (span : Span) (text : Text)
  | delete (span : Span)
deriving DecidableEq, Repr

namespace Writer

/-- The furthest offset that may be moved to. -/
def limit (writer : Writer) : Nat :=
  writer.bound.getD writer.source.length

/-- The offset as a place to move to: it has to lie in the source, and then within the bound. -/
def check (writer : Writer) (offset : Int) : Except Fault Nat :=
  if offset < 0 ∨ writer.source.length < offset then
    .error (.outsideSource "offset" offset offset writer.source.length)
  else
    match writer.bound with
    | none => .ok offset.toNat
    | some bound =>
      if bound < offset then .error (.pastRegion offset bound) else .ok offset.toNat

/-- Copies the source up to an offset; there is nothing to do at or before `reached`. -/
def copyTo (writer : Writer) (offset : Int) : Except Fault Writer :=
  (writer.check offset).map fun target =>
    if target ≤ writer.reached then writer
    else { writer with
      parts := writer.parts ++ [.copied (.reach writer.reached target)]
      reached := target }

/-- Drops the source up to an offset; there is nothing to do at or before `reached`. -/
def dropTo (writer : Writer) (offset : Int) : Except Fault Writer :=
  (writer.check offset).map fun target =>
    { writer with reached := max writer.reached target }

/-- Adds text. Empty text adds nothing. -/
def insert (writer : Writer) (text : Text) : Writer :=
  if text.isEmpty then writer else { writer with parts := writer.parts ++ [.inserted text] }

/-- Carries out an operation. Replacing copies up to the span, adds the text and drops the span;
deleting is the same without text. Steps that were taken before a fault stay taken. -/
def perform : Operation → EStateM Fault Writer Unit
  | .copyTo offset => step (·.copyTo offset)
  | .dropTo offset => step (·.dropTo offset)
  | .insert text => modify (·.insert text)
  | .replace span text => do
    step (·.copyTo span.start)
    modify (·.insert text)
    step (·.dropTo span.stop)
  | .delete span => do
    step (·.copyTo span.start)
    step (·.dropTo span.stop)
where
  /-- One step that either moves the writer on or leaves it as it was. -/
  step (move : Writer → Except Fault Writer) : EStateM Fault Writer Unit := fun writer =>
    match move writer with
    | .ok moved => .ok () moved
    | .error fault => .error fault writer

/-- The writer restricted to offsets up to `stop`, which has to be a place it may move to. -/
def enter (writer : Writer) (stop : Int) : Except Fault Writer :=
  (writer.check stop).map fun bound => { writer with bound := some bound }

/-- The source between `reached` and the limit. -/
def pending (writer : Writer) : Text :=
  writer.source.slice writer.reached writer.limit

def output (writer : Writer) : Text :=
  writer.parts.flatMap (·.text writer.source)

def render (writer : Writer) : String :=
  s!"Writer(last_emitted={writer.reached}, parts={writer.parts.length})"

end Writer
end Emend
