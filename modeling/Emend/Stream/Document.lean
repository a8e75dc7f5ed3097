import Emend.Source.Lines
import Emend.Stream.Event

/-!
A source text with its events. Two promises are made about each event: its span lies within the source,
and it does not start before its predecessor. `Document.check` looks at one event; a document is only
ever checked as far as it is read, and a broken promise is a fault that nobody repairs. -/
namespace Emend

/-- A source and the events derived from it. The line index is determined by the source. -/
structure Document where
  source : Text
  events : List Event
  lines : Lines := .ofText source
  lines_eq : lines = .ofText source := by rfl

namespace Document

/-- Documents with equal sources and events are equal; what is derived from them does not count. -/
instance : BEq Document where
  beq document other := document.source == other.source && document.events == other.events

def text (document : Document) (span : Span) : Text :=
  span.text document.source

def lineAt (document : Document) (offset : Int) : Except Fault Nat :=
  document.lines.lineAt offset

/-- The document without its first events. The source, and with it the lines, stay whole. -/
def dropEvents (document : Document) (count : Nat) : Document :=
  { document with events := document.events.drop count }

/-- The promises about the event at a position: first its bounds, then its order. There is nothing to
check past the last event. -/
def check (document : Document) (index : Nat) : Except Fault Unit :=
  match document.events[index]? with
  | none => .ok ()
  | some event =>
    match event.span.requireWithin document.source.length with
    | .error fault => .error fault
    | .ok () =>
      match index with
      | 0 => .ok ()
      | before + 1 =>
        match document.events[before]? with
        | none => .ok ()
        | some previous =>
          if event.start < previous.start then
            .error (.spanOrder index previous.start event.start)
          else .ok ()

end Document
end Emend
