import Emend.Stream.Document

/-!
The part of a document that one callback gets to edit: a run of events, from the one that opened it, and
the range of source that goes with them. -/
namespace Emend

/-- A run of events of a document and the range of source that the callback has authority over. A region
has at least the event that opened it; it is unterminated when it ran to the end of the document. -/
structure Region where
  source : Text
  opening : Event
  rest : List Event
  span : Span
  firstIndex : Nat
  terminated : Bool := true
deriving DecidableEq, Repr

namespace Region

def events (region : Region) : List Event :=
  region.opening :: region.rest

def last (region : Region) : Event :=
  region.rest.getLast?.getD region.opening

/-- The event at a place of the region; a negative one counts back from the last event. -/
def eventAt (region : Region) (place : Int) : Except Fault Event :=
  Place.item region.events place .noSuchEvent

def text (region : Region) : Text :=
  region.span.text region.source

end Region

/-- The furthest that any of these events reaches. -/
def furthestStop (opening : Event) (rest : List Event) : Nat :=
  rest.foldl (fun furthest event => max furthest event.stop) opening.stop

end Emend
