import Emend.Proofs.Stream.Order

/-! How the elements of a stream nest. A stream is read with a stack of the events that are open: an
opening event goes on top, and a closing one takes off the top, which must carry the same tag. What is
read on a stack leaves everything below it alone as long as it is well nested by itself, so the parts of
a stream can be looked at one by one. -/
namespace Emend
variable {events others inner : List Event} {outer after below : List Event} {event opening closing : Event}

namespace Event

/-- The event neither opens nor closes an element. -/
def Leaf (event : Event) : Prop :=
  event.kind ≠ .opening ∧ event.kind ≠ .closing

/-- The event belongs to an inline element. -/
def Inline (event : Event) : Prop :=
  ∃ tag ∈ event.tag, tag.block = false

/-- The events that are open after an event, innermost first, when `outer` are open before it. There is
none when a closing event does not carry the tag of the innermost one. -/
def nest (outer : List Event) (event : Event) : Option (List Event) :=
  match event.kind, outer with
  | .opening, _ => some (event :: outer)
  | .closing, [] => none
  | .closing, opening :: rest => if event.tag = opening.tag then some rest else none
  | _, _ => some outer

theorem nest_opening (opens : event.kind = .opening) : nest outer event = some (event :: outer) := by
  unfold nest
  rw [opens]

theorem nest_closing (closes : closing.kind = .closing) (same : closing.tag = opening.tag) :
    nest (opening :: outer) closing = some outer := by
  simp only [nest, closes, same, ↓reduceIte]

private theorem nest_leaf (leaf : event.Leaf) : nest outer event = some outer := by
  obtain ⟨notOpening, notClosing⟩ := leaf
  unfold nest
  cases kind : event.kind <;> first | rfl | exact absurd kind notOpening | exact absurd kind notClosing

private theorem nest_below (nested : nest outer event = some after) :
    nest (outer ++ below) event = some (after ++ below) := by
  cases kind : event.kind with
  | opening =>
    rw [nest_opening kind] at nested ⊢
    cases nested
    rfl
  | closing =>
    cases outer with
    | nil => simp only [nest, kind, reduceCtorEq] at nested
    | cons opening rest =>
      simp only [nest, kind] at nested
      split at nested
      · rename_i same
        cases nested
        exact nest_closing kind same
      · cases nested
  | _ =>
    have leaf : event.Leaf := ⟨by simp [kind], by simp [kind]⟩
    rw [nest_leaf leaf] at nested ⊢
    cases nested
    rfl

end Event

/-- The opening events that are still open after these events, innermost first, when `outer` are open
before them. -/
def unclosed (outer events : List Event) : Option (List Event) :=
  events.foldlM Event.nest outer

/-- Every opening event has its closing event, and every closing event its opening one. -/
def Balanced (events : List Event) : Prop :=
  unclosed [] events = some []

theorem unclosed_cons :
    unclosed outer (event :: others) = (event.nest outer).bind (unclosed · others) := by
  simp only [unclosed, List.foldlM_cons, Option.bind_eq_bind]

theorem unclosed_append :
    unclosed outer (events ++ others) = (unclosed outer events).bind (unclosed · others) := by
  simp only [unclosed, List.foldlM_append, Option.bind_eq_bind]

private theorem unclosed_below (nested : unclosed outer events = some after) :
    unclosed (outer ++ below) events = some (after ++ below) := by
  induction events generalizing outer with
  | nil =>
    cases nested
    rfl
  | cons event rest ih =>
    rw [unclosed_cons] at nested ⊢
    obtain ⟨next, stepped, nested⟩ := Option.bind_eq_some_iff.mp nested
    rw [Event.nest_below stepped]
    exact ih nested

namespace Balanced

theorem nil : Balanced [] :=
  rfl

theorem of_leaves (leaves : ∀ event ∈ events, event.Leaf) : Balanced events := by
  induction events with
  | nil => exact nil
  | cons event rest ih =>
    rw [Balanced, unclosed_cons, Event.nest_leaf (leaves event List.mem_cons_self)]
    exact ih fun event member => leaves event (List.mem_cons_of_mem _ member)

/-- Balanced events leave the stack as it was. -/
theorem unclosed_eq (balanced : Balanced events) (outer : List Event) :
    unclosed outer events = some outer :=
  unclosed_below balanced

theorem append (first : Balanced events) (second : Balanced others) : Balanced (events ++ others) := by
  rw [Balanced, unclosed_append, first.unclosed_eq, Option.bind_some]
  exact second

/-- Balanced events between an opening event and its closing one. -/
theorem of_element (balanced : Balanced inner) (opens : opening.kind = .opening)
    (closes : closing.kind = .closing) (same : closing.tag = opening.tag) :
    Balanced (opening :: inner ++ [closing]) := by
  rw [Balanced, List.cons_append, unclosed_cons, Event.nest_opening opens, Option.bind_some,
    unclosed_append, balanced.unclosed_eq, Option.bind_some, unclosed_cons,
    Event.nest_closing closes same]
  rfl

end Balanced

/-- An opening event of the stream with its closing event and all that is between them. -/
structure Element (events : List Event) (opening : Event) (inner : List Event) (closing : Event) :
    Prop where
  stands : opening :: inner ++ [closing] <:+: events
  opens : opening.kind = .opening
  closes : closing.kind = .closing
  balanced : Balanced inner

/-- No event reaches past the end of an opening event that counts and is still open when it comes. -/
def Covered (counts : Event → Prop) : List Event → List Event → Prop
  | _, [] => True
  | outer, event :: rest => (∀ opening ∈ outer, counts opening → event.stop ≤ opening.stop) ∧
      ∀ next ∈ event.nest outer, Covered counts next rest

namespace Covered
variable {counts : Event → Prop}

theorem single (ends : ∀ opening ∈ outer, counts opening → event.stop ≤ opening.stop) :
    Covered counts outer [event] :=
  ⟨ends, fun _ _ => trivial⟩

theorem of_leaves (leaves : ∀ event ∈ events, event.Leaf) : Covered counts [] events := by
  induction events with
  | nil => trivial
  | cons event rest ih =>
    refine ⟨by simp, ?_⟩
    rw [Event.nest_leaf (leaves event List.mem_cons_self)]
    rintro _ ⟨⟩
    exact ih fun event member => leaves event (List.mem_cons_of_mem _ member)

theorem append (first : Covered counts outer events)
    (second : ∀ next ∈ unclosed outer events, Covered counts next others) :
    Covered counts outer (events ++ others) := by
  induction events generalizing outer with
  | nil => exact second outer rfl
  | cons event rest ih =>
    obtain ⟨ends, later⟩ := first
    refine ⟨ends, fun next nested => ih (later next nested) fun left leaves => second left ?_⟩
    rw [unclosed_cons, Option.mem_def.mp nested]
    exact leaves

private theorem of_append_right (covered : Covered counts outer (events ++ others))
    (nested : unclosed outer events = some after) : Covered counts after others := by
  induction events generalizing outer with
  | nil =>
    cases nested
    exact covered
  | cons event rest ih =>
    rw [unclosed_cons] at nested
    obtain ⟨next, stepped, nested⟩ := Option.bind_eq_some_iff.mp nested
    exact ih (covered.2 next stepped) nested

private theorem of_append_left (covered : Covered counts outer (events ++ others)) :
    Covered counts outer events := by
  induction events generalizing outer with
  | nil => trivial
  | cons event rest ih => exact ⟨covered.1, fun next nested => ih (covered.2 next nested)⟩

theorem mono {others : Event → Prop} (covered : Covered counts outer events)
    (fewer : ∀ event, others event → counts event) : Covered others outer events := by
  induction events generalizing outer with
  | nil => trivial
  | cons event rest ih =>
    obtain ⟨ends, later⟩ := covered
    exact ⟨fun opening member counted => ends opening member (fewer opening counted),
      fun next nested => ih (later next nested)⟩

/-- Well-nested events that reach past no outer event are covered on top of the outer ones. -/
theorem append_outer (covered : Covered counts outer events) (nested : unclosed outer events = some after)
    (ends : ∀ event ∈ events, ∀ opening ∈ below, counts opening → event.stop ≤ opening.stop) :
    Covered counts (outer ++ below) events := by
  induction events generalizing outer with
  | nil => trivial
  | cons event rest ih =>
    obtain ⟨here, later⟩ := covered
    rw [unclosed_cons] at nested
    obtain ⟨next, stepped, nested⟩ := Option.bind_eq_some_iff.mp nested
    refine ⟨?_, ?_⟩
    · intro opening member counted
      rcases List.mem_append.mp member with member | member
      · exact here opening member counted
      · exact ends event List.mem_cons_self opening member counted
    · rw [Event.nest_below stepped]
      rintro _ ⟨⟩
      exact ih (later next stepped) nested
        fun event member => ends event (List.mem_cons_of_mem _ member)

theorem of_element (covered : Covered counts [] inner) (balanced : Balanced inner)
    (opens : opening.kind = .opening)
    (ends : counts opening → ∀ event ∈ inner ++ [closing], event.stop ≤ opening.stop) :
    Covered counts [] (opening :: inner ++ [closing]) := by
  have within : ∀ event ∈ inner ++ [closing], ∀ outer ∈ [opening], counts outer →
      event.stop ≤ outer.stop := by
    intro event member outer only counted
    cases List.mem_singleton.mp only
    exact ends counted event member
  rw [List.cons_append]
  refine ⟨by simp, ?_⟩
  rw [Event.nest_opening opens]
  rintro _ ⟨⟩
  have inside := covered.append_outer balanced fun event member =>
    within event (List.mem_append_left _ member)
  refine inside.append
    ?_
  rw [List.nil_append, balanced.unclosed_eq]
  rintro _ ⟨⟩
  exact single (within closing (by simp))

/-- As long as an event is not closed, what comes does not reach past it. -/
theorem stop_le (covered : Covered counts (outer ++ opening :: below) events)
    (nested : unclosed outer events = some after) (counted : counts opening) :
    ∀ event ∈ events, event.stop ≤ opening.stop := by
  induction events generalizing outer with
  | nil => simp
  | cons head rest ih =>
    obtain ⟨here, later⟩ := covered
    rw [unclosed_cons] at nested
    obtain ⟨next, stepped, nested⟩ := Option.bind_eq_some_iff.mp nested
    intro event member
    rcases List.mem_cons.mp member with rfl | member
    · exact here opening (by simp) counted
    · exact ih (later _ (Event.nest_below stepped)) nested event member

/-- What stands in an element, and its closing event, do not reach past its opening event. -/
theorem element_stop_le (covered : Covered counts [] events) (nested : unclosed [] events = some after)
    (element : Element events opening inner closing) (counted : counts opening) :
    ∀ event ∈ inner ++ [closing], event.stop ≤ opening.stop := by
  obtain ⟨earlier, later, rfl⟩ := element.stands
  simp only [List.append_assoc, List.cons_append] at covered nested
  rw [unclosed_append] at nested
  obtain ⟨outer, begun, -⟩ := Option.bind_eq_some_iff.mp nested
  have inside : Covered counts (opening :: outer) (inner ++ closing :: later) :=
    (covered.of_append_right begun).2 _ (Event.nest_opening element.opens)
  intro event member
  rcases List.mem_append.mp member with member | member
  · exact inside.of_append_left.stop_le element.balanced counted event member
  · cases List.mem_singleton.mp member
    have last := inside.of_append_right (element.balanced.unclosed_eq (opening :: outer))
    exact last.1 opening List.mem_cons_self counted

end Covered
end Emend
