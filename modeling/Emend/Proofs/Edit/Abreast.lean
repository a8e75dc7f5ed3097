import Mathlib.Data.List.Forall2
import Emend.Edit.Pass
import Emend.Proofs.Matcher.Renaming

/-! Two passes over one document side by side. If the bindings of the one answer and write as those of the
other do, the passes ask the same questions, hand over the same regions and end alike, though the matchers
keep their state in other slots and the worlds around the passes have nothing to do with each other. -/
namespace Emend
variable {World : Type} {alike : Registers → Registers → Prop}

/-- What a script does to a writer, and how it ends, depends on the writer and not on the world. -/
def Script.Detached (script : Script World) : Prop :=
  Lockstep Eq (fun first second : Desk World => first.writer = second.writer) script.run script.run

theorem Script.detached_once (operation : Operation) : (once operation : Script World).Detached := by
  rintro ⟨writer, here⟩ ⟨_, there⟩ rfl
  simp only [once, run, onWriter, Bind.bind, EStateM.bind]
  cases Writer.perform operation writer with
  | ok nothing moved => exact .ok rfl rfl
  | error fault left => exact .error rfl

/-- Two bindings whose matchers give the same answers and keep their registers related, and whose
callbacks do the same to a writer. -/
structure Binding.Twin (alike : Registers → Registers → Prop) (first second : Binding World) : Prop where
  start : ∀ cursor, Lockstep Eq (OnRegisters alike) (first.start.evaluate cursor)
    (second.start.evaluate cursor)
  stop : Option.Rel (fun one other => ∀ cursor,
    Lockstep Eq (OnRegisters alike) (one.evaluate cursor) (other.evaluate cursor)) first.stop second.stop
  callback : ∀ region, Lockstep Eq (fun first second : Desk World => first.writer = second.writer)
    (first.callback region).run (second.callback region).run

namespace Binding
variable {binding : Binding World} {here there : Slot → Slot}

def slots (binding : Binding World) : List Slot :=
  binding.start.slots ++ binding.stop.elim [] Matcher.slots

/-- Neither the checks nor the callback depend on the world. -/
structure Detached (binding : Binding World) : Prop where
  start : binding.start.Detached
  stop : ∀ stop ∈ binding.stop, stop.Detached
  callback : ∀ region, (binding.callback region).Detached

/-- The binding with other slots in the places of its own. -/
def rename (change : Slot → Slot) (binding : Binding World) : Binding World :=
  { binding with start := binding.start.rename change, stop := binding.stop.map (·.rename change) }

theorem mem_slots {slot : Slot} : slot ∈ binding.slots ↔
    slot ∈ binding.start.slots ∨ ∃ stop ∈ binding.stop, slot ∈ stop.slots := by
  unfold slots
  rw [List.mem_append]
  cases binding.stop <;> simp

theorem rename_id (binding : Binding World) : binding.rename id = binding := by
  have same : (fun stop : Matcher World => stop.rename id) = id := funext Matcher.rename_id
  rw [rename, Matcher.rename_id, same, Option.map_id, id]

/-- Under two names for its slots a binding is a twin of itself, if its matchers go in lockstep. -/
theorem twin_rename (detached : binding.Detached) (goes : ∀ matcher : Matcher World, matcher.Detached →
    (∀ slot ∈ matcher.slots, slot ∈ binding.slots) → ∀ cursor, Lockstep Eq (OnRegisters alike)
      ((matcher.rename here).evaluate cursor) ((matcher.rename there).evaluate cursor)) :
    (binding.rename here).Twin alike (binding.rename there) := by
  refine ⟨?_, ?_, detached.callback⟩
  · exact goes binding.start detached.start fun slot member => mem_slots.mpr (.inl member)
  · unfold rename
    cases stops : binding.stop with
    | none => exact .none
    | some stop => exact .some (goes stop (detached.stop stop stops) fun slot member =>
        mem_slots.mpr (.inr ⟨stop, stops, member⟩))

end Binding

/-- In both passes the same region is open, for bindings that are twins, or none. -/
inductive Mode.Twin (alike : Registers → Registers → Prop) : Mode World → Mode World → Prop
  | searching : Twin alike .searching .searching
  | editing {active : Active World} {other : Binding World} (twin : active.binding.Twin alike other) :
      Twin alike (.editing active) (.editing { active with binding := other })

namespace Pass

/-- The passes have done the same and stand at the same place. -/
structure Abreast (alike : Registers → Registers → Prop) (first second : Pass World) : Prop where
  memory : OnRegisters alike first.memory second.memory
  writer : first.writer = second.writer
  mode : first.mode.Twin alike second.mode
  regions : first.regions = second.regions
  unterminated : first.unterminated = second.unterminated
  journal : first.journal = second.journal

variable {bindings others : List (Binding World)} {binding other : Binding World} {document : Document}
  {cursor : Cursor} {event : Event} {position : Nat} {active : Active World} {region : Region}

theorem note_lockstep (entry : Note) :
    Lockstep Eq (Abreast alike) (note entry : Step World Unit) (note entry) :=
  .modify fun _ _ abreast => { abreast with journal := congrArg (· ++ [entry]) abreast.journal }

theorem atDesk_lockstep {script twin : Script World}
    (same : Lockstep Eq (fun first second : Desk World => first.writer = second.writer)
      script.run twin.run) : Lockstep Eq (Abreast alike) (atDesk script) (atDesk twin) := by
  intro first second abreast
  have ended := same { writer := first.writer, world := first.memory.world }
    { writer := second.writer, world := second.memory.world } abreast.writer
  unfold atDesk
  generalize script.run _ = one, twin.run _ = other at ended
  cases ended with
  | ok answered left => exact .ok rfl { abreast with writer := left }
  | error left => exact .error { abreast with writer := left }

theorem copying_lockstep (offset : Nat) : Lockstep Eq (Abreast alike)
    (atDesk (.once (.copyTo offset)) : Step World Unit) (atDesk (.once (.copyTo offset))) :=
  atDesk_lockstep (Script.detached_once _)

/-- Under the same bound, scripts that do the same do the same. -/
theorem bounded_lockstep {body twin : Script World} (stop : Int)
    (same : Lockstep Eq (fun first second : Desk World => first.writer = second.writer)
      body.run twin.run) : Lockstep Eq (fun first second : Desk World => first.writer = second.writer)
        (Script.bounded stop body .done).run (Script.bounded stop twin .done).run := by
  rintro ⟨writer, here⟩ ⟨_, there⟩ rfl
  simp only [Script.run]
  cases writer.enter stop with
  | error fault => exact .error rfl
  | ok inner =>
    have ended := same { writer := inner, world := here } { writer := inner, world := there } rfl
    dsimp only
    generalize body.run _ = one, twin.run _ = other at ended
    cases ended with
    | error left => exact .error (congrArg (fun held : Writer => { held with bound := writer.bound }) left)
    | @ok _ _ first second _ left =>
      obtain ⟨held, here⟩ := first
      obtain ⟨_, there⟩ := second
      cases left
      simp only [Script.onWriter]
      cases Writer.perform (.dropTo stop) { held with bound := writer.bound } with
      | ok nothing dropped => exact .ok rfl rfl
      | error fault dropped => exact .error rfl

theorem ask_lockstep {matcher twin : Matcher World} (side : Side)
    (same : Lockstep Eq (OnRegisters alike) (matcher.evaluate cursor) (twin.evaluate cursor)) :
    Lockstep Eq (Abreast alike) (ask position side matcher cursor) (ask position side twin cursor) := by
  refine (note_lockstep _).bind ?_
  rintro _ _ -
  intro first second abreast
  have ended := same first.memory second.memory abreast.memory
  unfold watch
  generalize matcher.evaluate cursor _ = one, twin.evaluate cursor _ = other at ended
  cases ended with
  | ok answered left => exact .ok answered { abreast with memory := left }
  | error left => exact .error { abreast with memory := left }

theorem askBoth_lockstep (twin : binding.Twin alike other) :
    Lockstep Eq (Abreast alike) (askBoth position binding cursor) (askBoth position other cursor) := by
  refine (ask_lockstep .start (twin.start cursor)).bind ?_
  rintro started _ rfl
  have stops := twin.stop
  generalize binding.stop = one, other.stop = another at stops
  cases stops with
  | none => exact .pure rfl
  | some same =>
    refine (ask_lockstep .stop (same cursor)).bind ?_
    rintro stopped _ rfl
    exact .pure rfl

/-- The bindings that two surveys have chosen stand at the same place and are twins. -/
def SameChoice (alike : Registers → Registers → Prop) (one other : Nat × Binding World) : Prop :=
  one.1 = other.1 ∧ one.2.Twin alike other.2

theorem survey_lockstep (twins : List.Forall₂ (Binding.Twin alike) bindings others)
    (known : Option (Nat × Bool)) : Lockstep (Option.Rel (SameChoice alike)) (Abreast alike)
      (survey cursor known position bindings) (survey cursor known position others) := by
  induction twins generalizing position with
  | nil => exact .pure .none
  | @cons binding other bindings others twin _ ih =>
    have goes (started : Bool) : Lockstep (Option.Rel (SameChoice alike)) (Abreast alike) (do
        let later ← survey cursor known (position + 1) bindings
        return if started then some (position, binding) else later) (do
        let later ← survey cursor known (position + 1) others
        return if started then some (position, other) else later) := by
      refine ih.bind ?_
      intro later following same
      cases started with
      | true => exact .pure (.some ⟨rfl, twin⟩)
      | false => exact .pure same
    rw [survey, survey]
    cases known.filter (·.1 == position) with
    | some told => exact goes told.2
    | none =>
      refine (askBoth_lockstep twin).bind ?_
      rintro answers _ rfl
      exact goes answers.1

theorem handOver_lockstep (twin : active.binding.Twin alike other) (region : Region) :
    Lockstep Eq (Abreast alike) (handOver active region)
      (handOver { active with binding := other } region) := by
  refine Lockstep.get.bind ?_
  intro first second abreast
  rw [abreast.writer]
  refine (Lockstep.ofExcept _).bind ?_
  rintro writer _ rfl
  refine (note_lockstep _).bind ?_
  rintro _ _ -
  refine (atDesk_lockstep (bounded_lockstep _ (twin.callback region))).bind ?_
  rintro _ _ -
  refine Lockstep.get.bind ?_
  intro first second abreast
  rw [abreast.writer]
  refine (note_lockstep _).bind ?_
  rintro _ _ -
  exact .modify fun _ _ abreast =>
    { abreast with mode := .searching, regions := congrArg (· + 1) abreast.regions }

theorem openAt_lockstep (twin : binding.Twin alike other) : Lockstep Eq (Abreast alike)
    (openAt position binding cursor event) (openAt position other cursor event) := by
  let active : Active World := { position, binding, index := cursor.index, opening := event }
  have twins : active.binding.Twin alike other := twin
  have stops := twin.stop
  refine (copying_lockstep event.start).bind ?_
  rintro _ _ -
  refine (note_lockstep _).bind ?_
  rintro _ _ -
  generalize binding.stop = one, other.stop = another at stops
  cases stops with
  | none => exact handOver_lockstep twins (active.complete cursor.document.source)
  | some same => exact .modify fun _ _ abreast => { abreast with mode := .editing twins }

theorem search_lockstep (twins : List.Forall₂ (Binding.Twin alike) bindings others)
    (known : Option (Nat × Bool)) : Lockstep Eq (Abreast alike)
      (search bindings cursor event known) (search others cursor event known) := by
  refine (survey_lockstep twins known).bind ?_
  intro chosen following same
  cases same with
  | none => exact .pure rfl
  | @some one another same =>
    obtain ⟨position, binding⟩ := one
    obtain ⟨place, other⟩ := another
    obtain ⟨rfl, twin⟩ : position = place ∧ binding.Twin alike other := same
    exact openAt_lockstep twin

/-- An event takes both passes on in the same way. -/
theorem visit_lockstep (twins : List.Forall₂ (Binding.Twin alike) bindings others) :
    Lockstep Eq (Abreast alike) (visit bindings cursor event) (visit others cursor event) := by
  refine Lockstep.get.bind ?_
  intro first second abreast
  have modes := abreast.mode
  generalize first.mode = one, second.mode = another at modes
  cases modes with
  | searching => exact search_lockstep twins none
  | @editing active other twin =>
    refine (askBoth_lockstep twin).bind ?_
    rintro ⟨started, stopped⟩ _ rfl
    cases stopped with
    | true =>
      refine (handOver_lockstep twin (active.stoppedAt cursor.document.source event)).bind ?_
      rintro _ _ -
      exact search_lockstep twins (some (active.position, started))
    | false =>
      have longer : { active with rest := active.rest ++ [event] : Active World }.binding.Twin alike
          other := twin
      exact .modify fun _ _ abreast => { abreast with mode := .editing longer }

theorem events_lockstep (twins : List.Forall₂ (Binding.Twin alike) bindings others)
    {left : List Event} {index : Nat} : Lockstep Eq (Abreast alike)
      (events bindings document left index) (events others document left index) := by
  induction left generalizing index with
  | nil => exact .pure rfl
  | cons event left ih =>
    refine (visit_lockstep twins).bind ?_
    rintro _ _ -
    refine (Lockstep.ofExcept _).bind ?_
    rintro _ _ -
    exact ih

theorem finish_lockstep (policy : Policy) (source : Text) : Lockstep Eq (Abreast alike)
    (finish policy source : Step World Unit) (finish policy source) := by
  refine Lockstep.get.bind ?_
  intro first second abreast
  have modes := abreast.mode
  generalize first.mode = one, second.mode = another at modes
  cases modes with
  | searching => exact copying_lockstep _
  | @editing active other twin =>
    cases policy with
    | fail =>
      have refused : Lockstep Eq (Abreast alike)
          (throw (.unterminated active.index active.opening.start source.length) : Step World Unit)
          (throw (.unterminated active.index active.opening.start source.length)) := .throw _
      exact refused.bind fun _ _ _ => copying_lockstep _
    | handOver =>
      refine (note_lockstep _).bind ?_
      rintro _ _ -
      have listed : Lockstep Eq (Abreast alike)
          (modify fun pass =>
            { pass with unterminated := pass.unterminated ++ [active.unstopped source] } :
            Step World PUnit) (modify fun pass =>
              { pass with unterminated := pass.unterminated ++ [active.unstopped source] }) :=
        .modify fun _ _ abreast =>
          { abreast with unterminated := congrArg (· ++ [active.unstopped source]) abreast.unterminated }
      refine listed.bind ?_
      rintro _ _ -
      refine (handOver_lockstep twin _).bind ?_
      rintro _ _ -
      exact copying_lockstep _

theorem all_lockstep (twins : List.Forall₂ (Binding.Twin alike) bindings others) (policy : Policy) :
    Lockstep Eq (Abreast alike) (all bindings document policy) (all others document policy) := by
  refine (Lockstep.ofExcept _).bind ?_
  rintro cursor _ rfl
  refine (events_lockstep twins).bind ?_
  rintro _ _ -
  refine (finish_lockstep policy _).bind ?_
  rintro _ _ -
  refine Lockstep.get.bind ?_
  intro first second abreast
  rw [abreast.writer, abreast.regions, abreast.unterminated]
  exact .pure rfl

/-- Before the first event two passes stand at the same place, whatever their worlds are. -/
theorem abreast_begun {memory elsewhere : Memory World} {source : Text}
    (related : alike memory.registers elsewhere.registers) :
    Abreast alike { memory, writer := { source } } { memory := elsewhere, writer := { source } } :=
  ⟨related, rfl, .searching, rfl, rfl, rfl⟩

end Pass

/-- Twin bindings edit alike: the answer is the same, or the fault, and so is all that was done, and the
registers are still related. -/
theorem emend_twins {bindings others : List (Binding World)} {memory elsewhere : Memory World}
    (twins : List.Forall₂ (Binding.Twin alike) bindings others)
    (related : alike memory.registers elsewhere.registers) (document : Document) (policy : Policy) :
    let first := emend bindings document policy memory
    let second := emend others document policy elsewhere
    first.answer = second.answer ∧ first.journal = second.journal ∧
      alike first.memory.registers second.memory.registers := by
  have passes : Lockstep Eq (Pass.Abreast alike) (Pass.all bindings document policy)
      (Pass.all others document policy) := Pass.all_lockstep twins policy
  have ended := passes _ _ (@Pass.abreast_begun _ _ memory elsewhere document.source related)
  unfold emend
  generalize Pass.all bindings document policy _ = one, Pass.all others document policy _ = other at ended
  cases ended with
  | ok answered left => exact ⟨congrArg Except.ok answered, left.journal, left.memory⟩
  | error left => exact ⟨rfl, left.journal, left.memory⟩

/-- What a pass does depends on what is in the slots of its matchers, and on nothing else in memory. -/
theorem emend_elsewhere {bindings : List (Binding World)} {memory elsewhere : Memory World}
    (detached : ∀ binding ∈ bindings, binding.Detached) (same : ∀ binding ∈ bindings,
      ∀ slot ∈ binding.slots, memory.registers.get slot = elsewhere.registers.get slot)
    (document : Document) (policy : Policy) :
    let first := emend bindings document policy memory
    let second := emend bindings document policy elsewhere
    first.answer = second.answer ∧ first.journal = second.journal := by
  let scope := bindings.flatMap Binding.slots
  have names : Matcher.Names scope id id := ⟨fun _ _ _ _ same => same, fun _ _ _ _ same => same⟩
  have twins : List.Forall₂ (Binding.Twin (Matcher.Renamed scope id id)) bindings bindings := by
    refine List.forall₂_same.mpr fun binding member => ?_
    have twin := Binding.twin_rename (detached binding member) fun matcher apart part cursor =>
      Matcher.evaluate_lockstep names apart
        (fun slot inside => List.mem_flatMap.mpr ⟨binding, member, part slot inside⟩) cursor
    rwa [Binding.rename_id] at twin
  have related : Matcher.Renamed scope id id memory.registers elsewhere.registers := by
    intro slot inside
    obtain ⟨binding, member, own⟩ := List.mem_flatMap.mp inside
    exact same binding member slot own
  obtain ⟨answer, journal, -⟩ := emend_twins twins related document policy
  exact ⟨answer, journal⟩

end Emend
