import Emend.Edit.Region
import Emend.Edit.Writer
import Emend.Log

/-!
What an editing pass did, note by note: which matcher was asked at which event, where regions opened,
what was handed to a callback, and how regions ended. The log of a pass is read off its journal. -/
namespace Emend

inductive Side where
  | start
  | stop
deriving DecidableEq, Repr

/-- One thing that a pass did. Bindings go by their position in the list. -/
inductive Note where
  /-- A matcher of a binding was asked at an event. -/
  | asked (position : Nat) (side : Side) (index : Nat)
  /-- A binding opened a region at an event that starts at `offset`. -/
  | opened (position index offset : Nat)
  /-- The region that an event had opened was still open when the events ran out. -/
  | leftOpen (index : Nat)
  /-- A region went to a binding's callback, which found the writer like this. -/
  | handed (position : Nat) (region : Region) (writer : Writer)
  /-- A callback was done with its region and left the writer like this. -/
  | closed (position : Nat) (region : Region) (writer : Writer)
deriving DecidableEq, Repr

/-- What a pass did, in order. -/
abbrev Journal := List Note

def Note.logLine : Note → Option LogLine
  | asked .. | handed .. => none
  | opened _ index offset =>
    some ⟨.debug, s!"Opened edit region at event {index} (offset {offset})"⟩
  | leftOpen index =>
    some ⟨.warning, s!"Edit region opened at event {index} was still open at end of document; " ++
      "handing the rest of the document to the callback"⟩
  | closed _ region _ =>
    let count := region.events.length
    some ⟨.debug, s!"Closed edit region {region.span.render} after {count} events"⟩

def Journal.log (journal : Journal) : List LogLine :=
  journal.filterMap Note.logLine

/-- The regions that were handed over, in order, each with the position of its binding. -/
def Journal.handed (journal : Journal) : List (Nat × Region) :=
  journal.filterMap fun
    | .handed position region _ => some (position, region)
    | _ => none

end Emend
