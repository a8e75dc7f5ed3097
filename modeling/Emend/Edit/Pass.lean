import Emend.Edit.Binding
import Emend.Edit.Journal
import Emend.Settings

/-!
One pass over a document that edits it. While the pass is searching, every binding is asked at every
event, in order, and the first whose start matcher answers true opens a region there; the source before
it has been copied by then. While a region is open only its own binding is asked, until its stop matcher
answers true. The region then goes to the callback, and at the same event the other bindings are asked
as well, so that the event which ends one region may open the next. A binding without a stop matcher
hands its event over at once. What no region covers is copied unchanged. -/
namespace Emend

/-- A region that is open: the binding, the event that opened it, and the events since. -/
structure Active (World : Type) where
  position : Nat
  binding : Binding World
  index : Nat
  opening : Event
  rest : List Event := []

namespace Active

variable {World : Type}

/-- The region up to an event that stops it. It reaches as far as its events do, but not into the
stopping event. -/
def stoppedAt (active : Active World) (source : Text) (stop : Event) : Region where
  source
  opening := active.opening
  rest := active.rest
  span := .reach active.opening.start (min (furthestStop active.opening active.rest) stop.start)
  firstIndex := active.index

/-- The region of exactly the events so far. -/
def complete (active : Active World) (source : Text) : Region where
  source
  opening := active.opening
  rest := active.rest
  span := .reach active.opening.start (furthestStop active.opening active.rest)
  firstIndex := active.index

/-- The region that nothing stopped: it takes the rest of the document. -/
def unstopped (active : Active World) (source : Text) : Region where
  source
  opening := active.opening
  rest := active.rest
  span := .reach active.opening.start source.length
  firstIndex := active.index
  terminated := false

end Active

inductive Mode (World : Type) where
  | searching
  | editing (active : Active World)

structure Pass (World : Type) where
  memory : Memory World
  writer : Writer
  mode : Mode World := .searching
  regions : Nat := 0
  unterminated : List Region := []
  journal : Journal := []

/-- What a pass gives: the new text, how many regions went to callbacks, and those of them that
nothing stopped. -/
structure Emended where
  text : Text
  regions : Nat := 0
  unterminated : List Region := []
deriving DecidableEq, Repr

/-- Whether every region that was opened was also stopped. -/
def Emended.complete (emended : Emended) : Bool :=
  emended.unterminated.isEmpty

namespace Pass

variable {World : Type}

abbrev Step (World : Type) := EStateM Fault (Pass World)

def note (entry : Note) : Step World Unit :=
  modify fun pass => { pass with journal := pass.journal ++ [entry] }

/-- Works on the memory of the pass. -/
def watch {α : Type} (work : Watch World α) : Step World α := fun pass =>
  match work pass.memory with
  | .ok answer memory => .ok answer { pass with memory }
  | .error fault memory => .error fault { pass with memory }

/-- Works on the writer and the world of the pass. -/
def atDesk (script : Script World) : Step World Unit := fun pass =>
  match script.run { writer := pass.writer, world := pass.memory.world } with
  | .ok () desk =>
    .ok () { pass with writer := desk.writer, memory := { pass.memory with world := desk.world } }
  | .error fault desk =>
    .error fault { pass with writer := desk.writer, memory := { pass.memory with world := desk.world } }

def ask (position : Nat) (side : Side) (matcher : Matcher World) (cursor : Cursor) :
    Step World Bool := do
  note (.asked position side cursor.index)
  watch (matcher.evaluate cursor)

/-- Asks both matchers of a binding, start first. A stop matcher that is not there answers false. -/
def askBoth (position : Nat) (binding : Binding World) (cursor : Cursor) :
    Step World (Bool × Bool) := do
  let started ← ask position .start binding.start cursor
  match binding.stop with
  | none => return (started, false)
  | some stop => return (started, ← ask position .stop stop cursor)

/-- Asks the bindings from `position` on, all of them, and answers with the first that starts here. A
binding that has been asked already is not asked again; `known` is its position and start answer. -/
def survey (cursor : Cursor) (known : Option (Nat × Bool)) :
    Nat → List (Binding World) → Step World (Option (Nat × Binding World))
  | _, [] => pure none
  | position, binding :: rest => do
    let started ←
      match known.filter (·.1 == position) with
      | some (_, answer) => pure answer
      | none => do
        let (answer, _) ← askBoth position binding cursor
        pure answer
    let later ← survey cursor known (position + 1) rest
    return if started then some (position, binding) else later

/-- Hands a region to its callback, which may write up to the end of the region and no further. What it
leaves of the region is dropped. -/
def handOver (active : Active World) (region : Region) : Step World Unit := do
  let writer ← ofExcept ((← get).writer.enter region.span.stop)
  note (.handed active.position region writer)
  atDesk (.bounded region.span.stop (active.binding.callback region) .done)
  note (.closed active.position region (← get).writer)
  modify fun pass => { pass with regions := pass.regions + 1, mode := .searching }

/-- Opens a region at an event. Without a stop matcher it is complete at once. -/
def openAt (position : Nat) (binding : Binding World) (cursor : Cursor) (event : Event) :
    Step World Unit := do
  let active : Active World := { position, binding, index := cursor.index, opening := event }
  atDesk (.once (.copyTo event.start))
  note (.opened position cursor.index event.start)
  match binding.stop with
  | none => handOver active (active.complete cursor.document.source)
  | some _ => modify fun pass => { pass with mode := .editing active }

/-- Looks for a binding that opens a region at an event. -/
def search (bindings : List (Binding World)) (cursor : Cursor) (event : Event)
    (known : Option (Nat × Bool)) : Step World Unit := do
  match ← survey cursor known 0 bindings with
  | none => return ()
  | some (position, binding) => openAt position binding cursor event

def visit (bindings : List (Binding World)) (cursor : Cursor) (event : Event) : Step World Unit := do
  match (← get).mode with
  | .searching => search bindings cursor event none
  | .editing active =>
    let (started, stopped) ← askBoth active.position active.binding cursor
    if stopped then
      handOver active (active.stoppedAt cursor.document.source event)
      search bindings cursor event (some (active.position, started))
    else
      modify fun pass =>
        { pass with mode := .editing { active with rest := active.rest ++ [event] } }

/-- The events `rest`, the first of which is event `index` and has been checked. -/
def events (bindings : List (Binding World)) (document : Document) :
    List Event → Nat → Step World Unit
  | [], _ => pure ()
  | event :: rest, index => do
    visit bindings { document, index } event
    ofExcept (document.check (index + 1))
    events bindings document rest (index + 1)

/-- What is left to do when the events have run out: a region that is still open is refused or handed
over, as the policy says, and the rest of the source is copied. -/
def finish (policy : Policy) (source : Text) : Step World Unit := do
  match (← get).mode with
  | .searching => pure ()
  | .editing active =>
    match policy with
    | .fail => throw (.unterminated active.index active.opening.start source.length)
    | .handOver =>
      let region := active.unstopped source
      note (.leftOpen active.index)
      modify fun pass => { pass with unterminated := pass.unterminated ++ [region] }
      handOver active region
  atDesk (.once (.copyTo source.length))

def all (bindings : List (Binding World)) (document : Document) (policy : Policy) :
    Step World Emended := do
  let cursor ← ofExcept (Cursor.start document)
  events bindings document document.events cursor.index
  finish policy document.source
  let pass ← get
  return { text := pass.writer.output, regions := pass.regions, unterminated := pass.unterminated }

end Pass

/-- How a pass ended, with what it left in memory and what it did. -/
structure Outcome (World : Type) where
  answer : Except Fault Emended
  memory : Memory World
  journal : Journal

/-- Edits a document with bindings in order of priority. -/
def emend {World : Type} (bindings : List (Binding World)) (document : Document)
    (policy : Policy) (memory : Memory World) : Outcome World :=
  match Pass.all bindings document policy { memory, writer := { source := document.source } } with
  | .ok emended pass => ⟨.ok emended, pass.memory, pass.journal⟩
  | .error fault pass => ⟨.error fault, pass.memory, pass.journal⟩

end Emend
