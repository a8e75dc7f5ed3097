import Mathlib.Logic.Relation
import Emend.Proofs.Edit.Endings
import Emend.Proofs.Edit.Walk
import Emend.Proofs.Stream.Promises

/-! A pass over the events of a document as a chain of moves. A move says all that a step can do to the
state of the pass, guards included, so what every move keeps is kept by the pass, and no step has to be
taken apart again. A binding without a stop matcher opens its region and hands it over in two moves. -/
namespace Emend
variable {World : Type} {bindings : List (Binding World)} {document : Document} {index position : Nat}
  {event : Event} {active : Active World} {region : Region}

/-- Where a region ends before it is made sure that it does not end before its start. It reaches as far as
its events do, up to the event that stopped it, or to the end of the source if nothing did. -/
inductive Region.EndsAt (document : Document) (region : Region) : Nat → Prop
  | complete (terminated : region.terminated = true) :
      EndsAt document region (furthestStop region.opening region.rest)
  | stopped {stop : Event} (terminated : region.terminated = true) (member : stop ∈ document.events) :
      EndsAt document region
        (max region.opening.start (min (furthestStop region.opening region.rest) stop.start))
  | unstopped (left : region.terminated = false) : EndsAt document region document.source.length

/-- The region is one of the document: its events are, the first of them at its index, and its span can be
built from the ends that belong to it, within the source. -/
structure Region.Fits (document : Document) (region : Region) : Prop where
  source : region.source = document.source
  opening : document.events[region.firstIndex]? = some region.opening
  events : ∀ event ∈ region.events, event ∈ document.events
  span : ∃ stop : Nat, region.EndsAt document stop ∧ stop ≤ document.source.length ∧
    Span.of region.opening.start stop = .ok region.span

structure Active.Held (bindings : List (Binding World)) (document : Document) (active : Active World) :
    Prop where
  known : bindings[active.position]? = some active.binding
  opening : document.events[active.index]? = some active.opening
  rest : ∀ event ∈ active.rest, event ∈ document.events

/-- What an open region can become while there are still events. -/
inductive Active.Closes (document : Document) (active : Active World) : Region → Prop
  | complete : Closes document active (active.complete document.source)
  | stopped {stop : Event} (member : stop ∈ document.events) :
      Closes document active (active.stoppedAt document.source stop)

theorem furthestStop_eq_max (opening : Event) (rest : List Event) :
    ((opening :: rest).map Event.stop).max? = some (furthestStop opening rest) := by
  rw [List.map_cons, List.max?_cons', List.foldl_map]
  rfl

theorem le_furthestStop {opening : Event} {rest : List Event} (member : event ∈ opening :: rest) :
    event.stop ≤ furthestStop opening rest :=
  (List.max?_eq_some_iff.mp (furthestStop_eq_max opening rest)).2 _ (List.mem_map_of_mem member)

theorem start_le_furthestStop (opening : Event) (rest : List Event) :
    opening.start ≤ furthestStop opening rest :=
  Nat.le_trans opening.span.ordered (le_furthestStop List.mem_cons_self)

private theorem furthestStop_le {opening : Event} {rest : List Event} {length : Nat}
    (within : ∀ event ∈ opening :: rest, event.stop ≤ length) : furthestStop opening rest ≤ length := by
  have furthest := (List.max?_eq_some_iff.mp (furthestStop_eq_max opening rest)).1
  obtain ⟨event, member, stop⟩ := List.mem_map.mp furthest
  exact stop ▸ within event member

namespace Active.Held

private theorem opening_mem (held : active.Held bindings document) : active.opening ∈ document.events :=
  List.mem_of_getElem? held.opening

theorem events_mem (held : active.Held bindings document) :
    ∀ event ∈ active.opening :: active.rest, event ∈ document.events := by
  intro event member
  rcases List.mem_cons.mp member with rfl | member
  · exact held.opening_mem
  · exact held.rest event member

/-- No event of the document starts past its end. -/
theorem start_le (held : active.Held bindings document) (valid : document.Valid) :
    active.opening.start ≤ document.source.length :=
  Nat.le_trans active.opening.span.ordered (valid.within _ held.opening_mem)

theorem furthestStop_within (held : active.Held bindings document) (valid : document.Valid) :
    furthestStop active.opening active.rest ≤ document.source.length :=
  furthestStop_le fun event member => valid.within _ (held.events_mem event member)

private theorem closes_fits (held : active.Held bindings document) (valid : document.Valid)
    (closes : active.Closes document region) : region.Fits document := by
  cases closes with
  | complete =>
    refine ⟨rfl, held.opening, held.events_mem, _, .complete rfl, held.furthestStop_within valid, ?_⟩
    exact Span.of_reach (start_le_furthestStop _ _)
  | stopped member =>
    refine ⟨rfl, held.opening, held.events_mem, _, .stopped rfl member, ?_, ?_⟩
    · refine Nat.max_le.mpr ⟨held.start_le valid, ?_⟩
      exact Nat.le_trans (Nat.min_le_left _ _) (held.furthestStop_within valid)
    · exact Span.of_eq_ok_iff.mpr ⟨rfl, rfl⟩

theorem unstopped_fits (held : active.Held bindings document) (valid : document.Valid) :
    (active.unstopped document.source).Fits document :=
  ⟨rfl, held.opening, held.events_mem, _, .unstopped rfl, Nat.le_refl _, Span.of_reach (held.start_le valid)⟩

end Active.Held

/-- This holds of every callback that was handed a region, at the desk where it was, whatever the world was
by then. -/
def Journal.EachTurn (bindings : List (Binding World)) (holds : Region → Script World → Desk World → Prop)
    (journal : Journal) : Prop :=
  ∀ position region writer binding world, .handed position region writer ∈ journal →
    bindings[position]? = some binding → holds region (binding.callback region) { writer, world }

theorem Journal.EachTurn.of_append {holds : Region → Script World → Desk World → Prop}
    {journal later : Journal} (each : (journal ++ later).EachTurn bindings holds) :
    journal.EachTurn bindings holds :=
  fun position region writer binding world handed =>
    each position region writer binding world (List.mem_append_left _ handed)

namespace Pass
variable {pass after : Pass World} {nothing : Unit} {binding : Binding World} {rest : List Event}

/-- One thing that a pass does while there are still events. -/
inductive Move (bindings : List (Binding World)) (document : Document) : Pass World → Pass World → Prop
  /-- Matchers are asked. -/
  | hears {pass after : Pass World} (heard : Heard pass after) : Move bindings document pass after
  /-- A binding opens a region, once the source before it is out. -/
  | opens {pass : Pass World} {position index : Nat} {binding : Binding World} {event : Event}
      {writer : Writer} (searching : pass.mode = .searching) (known : bindings[position]? = some binding)
      (found : document.events[index]? = some event)
      (copied : pass.writer.copyTo event.start = .ok writer) :
      Move bindings document pass { pass.opened position index event.start writer with
        mode := .editing { position, binding, index, opening := event } }
  /-- One more event belongs to the open region. -/
  | grows {pass : Pass World} {active : Active World} {event : Event}
      (editing : pass.mode = .editing active) (member : event ∈ document.events) :
      Move bindings document pass
        { pass with mode := .editing { active with rest := active.rest ++ [event] } }
  /-- The open region goes to its callback. -/
  | hands {pass after : Pass World} {active : Active World} {region : Region}
      (editing : pass.mode = .editing active) (closes : active.Closes document region)
      (handed : handOver active region pass = .ok () after) : Move bindings document pass after

abbrev Moves (bindings : List (Binding World)) (document : Document) : Pass World → Pass World → Prop :=
  Relation.ReflTransGen (Move bindings document)

def begun (memory : Memory World) (document : Document) : Pass World :=
  { memory, writer := { source := document.source } }

private theorem closes_of_closesAt (closes : active.ClosesAt document index region) :
    active.Closes document region := by
  cases closes with
  | complete single => exact .complete
  | stopped found => exact .stopped (List.mem_of_getElem? found)

/-- Whatever a pass does at an event is a chain of moves. -/
theorem moves_walk (start : Pass World) :
    Walk bindings document (fun _ after => Moves bindings document start after) fun _ => True where
  hears moves heard := .tail moves (.hears heard)
  skips moves _ _ := moves
  opens moves searching known found copied := .tail moves (.opens searching known found copied)
  grows moves editing found := .tail moves (.grows editing (List.mem_of_getElem? found))
  closes closes := {
    served := fun moves editing handed => .tail moves (.hands editing (closes_of_closesAt closes) handed)
    entered := fun _ _ _ => trivial }
  rests _ := trivial

theorem visit_moves (found : document.events[index]? = some event)
    (ran : visit bindings { document, index } event pass = .ok nothing after) :
    Moves bindings document pass after :=
  ((moves_walk pass).meets_visit found .refl).described_of_ok ran

/-- A pass over the events is a chain of moves. -/
theorem events_moves (there : document.events.drop index = rest)
    (ran : events bindings document rest index pass = .ok nothing after) :
    Moves bindings document pass after := by
  obtain ⟨-, -, moves⟩ := ((moves_walk pass).meets_events there .refl).described_of_ok ran
  exact moves

/-- Between two moves every turn was served and counted, and all regions that were handed over or are open
are regions of the document. -/
structure Sound (bindings : List (Binding World)) (document : Document) (pass : Pass World) : Prop where
  steady : Steady bindings document.source pass
  held : ∀ active, pass.mode = .editing active → active.Held bindings document
  fits : ∀ turn ∈ pass.journal.turns, turn.region.Fits document

namespace Sound

theorem of_begun (memory : Memory World) (document : Document) :
    Sound bindings document (Pass.begun memory document) :=
  ⟨⟨⟨rfl, rfl, .nil, rfl⟩, rfl, by simp [Pass.begun, Journal.turns]⟩, by simp [Pass.begun],
    by simp [Pass.begun, Journal.turns]⟩

/-- Notes that give nobody a turn change nothing, as long as an open region stays one of the document. -/
theorem of_silent {notes : Journal} (sound : Sound bindings document pass) (silent : Silent notes)
    (journal : after.journal = pass.journal ++ notes) (regions : after.regions = pass.regions)
    (anchored : after.writer.source = document.source) (free : after.writer.bound = none)
    (held : ∀ active, after.mode = .editing active → active.Held bindings document) :
    Sound bindings document after := by
  obtain ⟨steady, turns⟩ := sound.steady.of_silent silent journal regions anchored free
  refine ⟨steady, held, ?_⟩
  rw [turns]
  exact sound.fits

/-- A region that nothing stopped is still open when that is noted. -/
theorem unstopped_sound (sound : Sound bindings document pass) :
    Sound bindings document (pass.unstopped active document.source) :=
  have ready := sound.steady.ready
  sound.of_silent (.of_leftOpen active.index) rfl rfl ready.anchored ready.free sound.held

theorem handed_fits (sound : Sound bindings document pass) :
    ∀ found ∈ pass.journal.handed, found.2.Fits document := by
  intro found member
  rw [sound.steady.ready.handed] at member
  obtain ⟨turn, inside, rfl⟩ := List.mem_map.mp member
  exact sound.fits turn inside

/-- A turn at a region of the document. -/
theorem handed_sound (sound : Sound bindings document pass) (searching : after.mode = .searching)
    (fits : region.Fits document) (handed : Handed pass after position region)
    (steady : Steady bindings document.source after) : Sound bindings document after := by
  obtain ⟨inner, left, turns⟩ := handed
  refine ⟨steady, ?_, ?_⟩
  · intro other editing
    rw [searching] at editing
    cases editing
  · intro turn member
    rw [turns] at member
    rcases List.mem_append.mp member with member | member
    · exact sound.fits turn member
    · cases List.mem_singleton.mp member
      exact fits

end Sound

/-- A region of the document is handed over without a fault of the pass itself. -/
theorem handOver_sound (sound : Sound bindings document pass)
    (known : bindings[active.position]? = some active.binding) (fits : region.Fits document) :
    Ends bindings (handOver active region) pass fun _ after => Sound bindings document after := by
  obtain ⟨stop, -, within, built⟩ := fits.span
  have ends : region.span.stop ≤ document.source.length := by
    rw [Int.ofNat_inj.mp (Span.of_eq_ok_iff.mp built).2]
    exact within
  apply (handOver_ends sound.steady known ends).mono
  rintro _ after ⟨steady, searching, -, handed⟩
  exact sound.handed_sound searching fits handed steady

namespace Move

private theorem keeps_sound (valid : document.Valid) (move : Move bindings document pass after)
    (sound : Sound bindings document pass) : Sound bindings document after := by
  have ready := sound.steady.ready
  cases move with
  | hears heard =>
    obtain ⟨notes, silent, journal⟩ := heard.silent_notes
    exact sound.of_silent silent journal heard.regions (heard.writer ▸ ready.anchored)
      (heard.writer ▸ ready.free) (heard.mode ▸ sound.held)
  | opens searching known found copied =>
    obtain ⟨anchored, free, -⟩ := Writer.copyTo_output copied
    refine sound.of_silent (.of_opened _ _ _) rfl rfl (anchored.trans ready.anchored)
      (free.trans ready.free) ?_
    intro active editing
    cases editing
    exact ⟨known, found, by simp⟩
  | grows editing member =>
    have held := sound.held _ editing
    refine sound.of_silent .nil (List.append_nil _).symm rfl ready.anchored ready.free ?_
    intro longer editing
    cases editing
    refine ⟨held.known, held.opening, fun other inside => ?_⟩
    rcases List.mem_append.mp inside with inside | inside
    · exact held.rest other inside
    · cases List.mem_singleton.mp inside
      exact member
  | hands editing closes handed =>
    have held := sound.held _ editing
    exact (handOver_sound sound held.known (held.closes_fits valid closes)).described_of_ok handed

theorem journal_grows (move : Move bindings document pass after) :
    ∃ notes, after.journal = pass.journal ++ notes := by
  cases move with
  | hears heard =>
    obtain ⟨notes, journal, -⟩ := heard.journal
    exact ⟨notes, journal⟩
  | opens => exact ⟨_, rfl⟩
  | grows => exact ⟨[], (List.append_nil _).symm⟩
  | hands _ _ handed =>
    obtain ⟨_, _, _, -, -, -, rfl⟩ := handOver_eq_ok.mp handed
    exact ⟨_, rfl⟩

private theorem unterminated_eq (move : Move bindings document pass after) :
    after.unterminated = pass.unterminated := by
  cases move with
  | hears heard => exact heard.unterminated
  | opens | grows => rfl
  | hands _ _ handed =>
    obtain ⟨_, _, _, -, -, -, rfl⟩ := handOver_eq_ok.mp handed
    rfl

end Move

namespace Moves

theorem keeps_sound (valid : document.Valid) (moves : Moves bindings document pass after)
    (sound : Sound bindings document pass) : Sound bindings document after := by
  induction moves with
  | refl => exact sound
  | tail _ last ih => exact last.keeps_sound valid ih

/-- While there are still events no region counts as left open. -/
theorem unterminated_eq (moves : Moves bindings document pass after) :
    after.unterminated = pass.unterminated := by
  induction moves with
  | refl => rfl
  | tail _ last ih => exact last.unterminated_eq.trans ih

end Moves

variable {policy : Policy} {memory : Memory World} {between : Pass World} {fault : Fault}

theorem finish_journal {source : Text} (ran : finish policy source pass = .ok nothing after) :
    ∃ notes, after.journal = pass.journal ++ notes := by
  obtain ⟨notes, journal⟩ := (finish_grown policy source).of_ok ran
  exact ⟨notes, journal.symm⟩

/-- Nothing is refused before the first event if that keeps its promises. -/
theorem all_of_kept (kept : document.Kept 0) : all bindings document policy = (do
      events bindings document document.events 0
      finish policy document.source
      let pass ← get
      return { text := pass.writer.output, regions := pass.regions, unterminated := pass.unterminated } :
      Step World Emended) := by
  rw [all, Document.start_of_kept kept]
  rfl

/-- A fault at an event is the fault of the whole pass. -/
theorem emend_of_events_error (kept : document.Kept 0)
    (failed : events bindings document document.events 0 (begun memory document) = .error fault after) :
    emend bindings document policy memory = ⟨.error fault, after.memory, after.journal⟩ := by
  unfold begun at failed
  rw [emend, all_of_kept kept, bind_of_error failed]

/-- Once the events have run out, the pass ends as its last step does. -/
theorem emend_of_events_ok (kept : document.Kept 0)
    (ran : events bindings document document.events 0 (begun memory document) = .ok () between) :
    emend bindings document policy memory =
      match finish policy document.source between with
      | .ok () after =>
        ⟨.ok { text := after.writer.output, regions := after.regions, unterminated := after.unterminated },
          after.memory, after.journal⟩
      | .error fault after => ⟨.error fault, after.memory, after.journal⟩ := by
  unfold begun at ran
  rw [emend, all_of_kept kept, bind_of_ok ran]
  cases finished : finish policy document.source between with
  | ok nothing after =>
    rw [bind_of_ok finished]
    rfl
  | error fault after => rw [bind_of_error finished]

end Pass
end Emend
