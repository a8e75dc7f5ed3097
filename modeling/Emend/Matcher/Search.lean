import Emend.Matcher.Tree

/-!
Read-only questions: where does a matcher answer true? A search asks exactly as an editing pass does, so
it finds the events that an edit would be anchored at. It runs on the matcher's own state; a search with
a fresh copy leaves that state as it was. A search that is cut short after its last wanted match leaves
the rest of the stream unread and unchecked. -/
namespace Emend.Search

variable {World : Type}

/-- The indices of true answers to a question that is put at each of the events `rest`, the first of
which is event `index` and has been checked. With `limit` only so many are looked for. The next event is
checked only when the search goes on to it. -/
def scan {σ : Type} (asks : Cursor → EStateM Fault σ Bool) (document : Document) :
    List Event → Nat → Option Nat → EStateM Fault σ (List Nat)
  | [], _, _ => pure []
  | _ :: _, _, some 0 => pure []
  | _ :: rest, index, limit => do
    if ← asks { document, index } then
      if limit = some 1 then return [index]
      ofExcept (document.check (index + 1))
      return index :: (← scan asks document rest (index + 1) (limit.map (· - 1)))
    else
      ofExcept (document.check (index + 1))
      scan asks document rest (index + 1) limit

/-- The indices of the events that the matcher accepts, at most `limit` of them. -/
def indices (operand : Operand World) (document : Document) (limit : Option Nat := none) :
    Watch World (List Nat) := do
  let matcher ← ofExcept operand.toMatcher
  let cursor ← ofExcept (Cursor.start document)
  scan matcher.evaluate document document.events cursor.index limit

def first (operand : Operand World) (document : Document) : Watch World (Option Nat) :=
  return (← indices operand document (some 1)).head?

def any (operand : Operand World) (document : Document) : Watch World Bool :=
  return (← first operand document).isSome

/-- The events from the first match of `start` to the next match of `stop`, both included; all that
follow when `stop` never matches, and none when `start` never does. The second search runs over the
events that are left, as a document of its own: its positions count from the first match. -/
def stretch (start stop : Operand World) (document : Document) : Watch World (Option (List Event)) := do
  match ← first start document with
  | none => return none
  | some index =>
    let rest := document.dropEvents index
    match ← first stop rest with
    | none => return some rest.events
    | some last => return some (rest.events.take (last + 1))

end Emend.Search
