import Emend.Edit.Region
import Emend.Edit.Script
import Emend.Matcher.Tree

/-!
A binding ties a callback to the places it edits: regions that open where its start matcher answers true
and end before the event at which its stop matcher does. Without a stop matcher every region is one
event long. -/
namespace Emend

/-- Start and stop matchers with the callback for the regions between them. -/
structure Binding (World : Type) where
  start : Matcher World
  stop : Option (Matcher World)
  callback : Region → Script World

namespace Binding

variable {World : Type}

/-- The binding of what is given as its matchers; the start is looked at first. -/
def of (start : Operand World) (stop : Option (Operand World)) (callback : Region → Script World) :
    Except Fault (Binding World) := do
  let start ← start.toMatcher
  match stop with
  | none => return { start, stop := none, callback }
  | some stop => return { start, stop := some (← stop.toMatcher), callback }

/-- Puts both matchers back into their initial state, the start first. -/
def reset (binding : Binding World) : EStateM Fault Registers Unit := do
  binding.start.reset
  match binding.stop with
  | none => pure ()
  | some stop => stop.reset

/-- The binding on fresh copies of its matchers, with the same callback. The copies are made one after
the other, the stop's first, so what the two matchers shared is no longer shared. -/
def fresh (binding : Binding World) : Watch World (Binding World) := do
  match binding.stop with
  | none =>
    let start ← binding.start.fresh
    return { binding with start }
  | some stop =>
    let stop ← stop.fresh
    let start ← binding.start.fresh
    return { binding with start, stop := some stop }

/-- Inserts a text before every event that a matcher accepts. -/
def before (text : Text) (matcher : Operand World) : Except Fault (Binding World) :=
  of matcher none fun region =>
    .act (.insert text) (.once (.copyTo region.span.stop))

/-- Inserts a text after the span of every event that a matcher accepts. The span of an event that opens
a block is whole lines, so a text after a heading starts on the line below it. -/
def after (text : Text) (matcher : Operand World) : Except Fault (Binding World) :=
  of matcher none fun region =>
    .act (.copyTo region.span.stop) (.once (.insert text))

/-- Puts a text in the place of every region from a start match up to a stop match. -/
def replacing (start : Operand World) (stop : Option (Operand World)) (text : Text) :
    Except Fault (Binding World) :=
  of start stop fun _ => .once (.insert text)

end Binding
end Emend
