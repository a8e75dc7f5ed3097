import Emend.Proofs.Edit.Moves
import Emend.Proofs.Edit.Priority

/-! Where the regions lie that a pass hands over. A region is a run of events that follow one another in the
document, and its span starts with the first of them. A region that was stopped reaches as far as any of
its events does, but not into the event that stopped it, whatever is nested in what. So if every binding
has a stop matcher, a region ends where the next one may start, and the writer comes to each region just
where the region starts. -/
namespace Emend
variable {World : Type} {bindings : List (Binding World)} {document : Document} {index position : Nat}
  {event : Event} {active : Active World} {region : Region} {journal notes : Journal} {writer : Writer}

/-- The region ends before this event, and unless the event cuts it short, where the last of its own events
does. -/
structure Region.StoppedBy (region : Region) (stop : Event) : Prop where
  before : region.span.stop ≤ stop.start
  reaches : ∃ furthest, (region.events.map Event.stop).max? = some furthest ∧
    region.span.stop = min furthest stop.start

/-- Where a region lies that the binding at a position was handed. If the binding has a stop matcher and the
region did not just run to the end of the document, the event behind the region stopped it. -/
structure Region.Placed (bindings : List (Binding World)) (document : Document) (position : Nat)
    (region : Region) : Prop where
  events : region.events = (document.events.drop region.firstIndex).take region.events.length
  start : region.span.start = region.opening.start
  within : region.span.stop ≤ document.source.length
  inside : ∀ event ∈ region.events, region.span.start ≤ event.start ∧ event.start ≤ region.span.stop
  stopped : ∃ binding, bindings[position]? = some binding ∧
    (binding.stop.isSome = true → region.terminated = true → ∃ stop,
      document.events[region.firstIndex + region.events.length]? = some stop ∧ region.StoppedBy stop)

namespace Journal

end Journal

/-- The open region is the run of events from the one that opened it up to the one at an index. -/
structure Active.Located (bindings : List (Binding World)) (document : Document) (index : Nat)
    (active : Active World) : Prop where
  known : bindings[active.position]? = some active.binding
  there : document.events.drop active.index =
    (active.opening :: active.rest) ++ document.events.drop index

namespace Active.Located

private theorem of_opened {binding : Binding World} (known : bindings[position]? = some binding)
    (found : document.events[index]? = some event) :
    Located bindings document (index + 1) { position, binding, index, opening := event } := by
  refine ⟨known, ?_⟩
  rw [drop_of_next found]
  rfl

theorem snoc (located : active.Located bindings document index)
    (found : document.events[index]? = some event) :
    Located bindings document (index + 1) { active with rest := active.rest ++ [event] } := by
  refine ⟨located.known, ?_⟩
  rw [located.there, drop_of_next found]
  exact List.append_cons ..

private theorem held (located : active.Located bindings document index) : active.Held bindings document := by
  have members : ∀ event ∈ active.opening :: active.rest, event ∈ document.events := by
    intro event member
    apply List.mem_of_mem_drop (i := active.index)
    rw [located.there]
    exact List.mem_append_left _ member
  refine ⟨located.known, ?_, fun event member => members event (List.mem_cons_of_mem _ member)⟩
  rw [← List.head?_drop, located.there]
  rfl

end Active.Located

namespace Pass
variable {pass after : Pass World}

namespace Aligned

end Aligned

end Pass

/-- Five events, the first of which has the others in it. -/
def enclosing : Document where
  source := ['u', 'v', 'w', 'x', 'y', 'z']
  events := [
    { kind := .opening, span := { start := 0, stop := 6 } },
    { kind := .text, span := { start := 0, stop := 2 } },
    { kind := .code, span := { start := 2, stop := 5 } },
    { kind := .text, span := { start := 3, stop := 5 } },
    { kind := .closing, span := { start := 6, stop := 6 } }]

end Emend
