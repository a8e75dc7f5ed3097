import Emend.Stream.Document

/-!
Positions in the events of a document. A cursor moves forward only and checks each event as it comes
to it, so whatever reads through a cursor has the document's promises for every event so far. -/
namespace Emend

/-- A position in a document's events, the end included. -/
structure Cursor where
  document : Document
  index : Nat := 0

namespace Cursor

/-- A cursor on the first event, which is checked. -/
def start (document : Document) : Except Fault Cursor :=
  match document.check 0 with
  | .ok () => .ok { document }
  | .error fault => .error fault

/-- The event under the cursor; none at the end. -/
def current (cursor : Cursor) : Option Event :=
  cursor.document.events[cursor.index]?

def atEnd (cursor : Cursor) : Bool :=
  cursor.document.events.length ≤ cursor.index

/-- The event `distance` places ahead of the cursor, or behind it when negative. -/
def peek (cursor : Cursor) (distance : Int := 1) : Option Event :=
  let place := cursor.index + distance
  if place < 0 then none else cursor.document.events[place.toNat]?

def previous (cursor : Cursor) : Option Event :=
  cursor.peek (-1)

def lineAt (cursor : Cursor) (offset : Int) : Except Fault Nat :=
  cursor.document.lineAt offset

/-- The next position; the end is its own next. -/
def next (cursor : Cursor) : Cursor :=
  if cursor.atEnd then cursor else { cursor with index := cursor.index + 1 }

/-- Moves on by one event and checks where it came to. The move stands even if the check fails. -/
def advance : EStateM Fault Cursor (Option Event) := fun cursor =>
  let moved := cursor.next
  match moved.document.check moved.index with
  | .ok () => .ok moved.current moved
  | .error fault => .error fault moved

/-- Moves on by several events, or until a check fails. -/
def advanceBy : Nat → EStateM Fault Cursor Unit
  | 0 => pure ()
  | count + 1 => do
    let _ ← advance
    advanceBy count

def render (cursor : Cursor) : String :=
  let shown := (cursor.current.map Event.render).getD "None"
  s!"EventCursor(index={cursor.index}, current={shown})"

end Cursor
end Emend
