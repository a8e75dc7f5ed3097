import Emend.Proofs.Edit.Steps

/-! The callbacks' turns as the journal of a pass tells them, and which steps add to them. Asking
matchers writes to the journal but gives nobody a turn, and it leaves the output alone. -/
namespace Emend
variable {World : Type}

/-- One callback's turn at a region: the writer as the callback found it, and the writer once the turn
was over. -/
structure Turn where
  position : Nat
  region : Region
  before : Writer
  after : Writer

/-- What the callback appended to the output. -/
def Turn.added (turn : Turn) : List Part :=
  turn.after.parts.drop turn.before.parts.length

def Journal.turns : Journal → List Turn
  | [] => []
  | .handed position region before :: .closed _ _ after :: rest =>
    { position, region, before, after } :: turns rest
  | _ :: rest => turns rest

theorem Journal.handed_append (journal notes : Journal) :
    Journal.handed (journal ++ notes) = journal.handed ++ notes.handed :=
  List.filterMap_append

/-- No turn is under way at the end of the journal, so what comes later adds turns of its own. -/
def Settled (journal : Journal) : Prop :=
  ∀ later : Journal, Journal.turns (journal ++ later) = Journal.turns journal ++ Journal.turns later

namespace Settled
variable {journal others : Journal}

theorem nil : Settled [] :=
  fun _ => rfl

theorem append (first : Settled journal) (second : Settled others) : Settled (journal ++ others) := by
  intro later
  rw [List.append_assoc, first, second, first, List.append_assoc]

private theorem of_asked (position : Nat) (side : Side) (index : Nat) :
    Settled [.asked position side index] :=
  fun _ => rfl

private theorem of_opened (position index offset : Nat) : Settled [.opened position index offset] :=
  fun _ => rfl

private theorem of_leftOpen (index : Nat) : Settled [.leftOpen index] :=
  fun _ => rfl

private theorem of_turn (position : Nat) (region : Region) (before after : Writer) :
    Settled [.handed position region before, .closed position region after] :=
  fun _ => rfl

end Settled

/-- Notes that give nobody a turn. -/
structure Silent (notes : Journal) : Prop where
  settled : Settled notes
  turns : notes.turns = []
  handed : notes.handed = []

namespace Silent

theorem nil : Silent [] :=
  ⟨.nil, rfl, rfl⟩

theorem of_opened (position index offset : Nat) : Silent [.opened position index offset] :=
  ⟨Settled.of_opened position index offset, rfl, rfl⟩

theorem of_leftOpen (index : Nat) : Silent [.leftOpen index] :=
  ⟨Settled.of_leftOpen index, rfl, rfl⟩

private theorem of_asked (notes : Journal)
    (questions : ∀ entry ∈ notes, ∃ position side index, entry = .asked position side index) :
    Silent notes := by
  induction notes with
  | nil => exact nil
  | cons entry rest ih =>
    obtain ⟨position, side, index, rfl⟩ := questions entry List.mem_cons_self
    obtain ⟨settled, turns, handed⟩ :=
      ih fun entry member => questions entry (List.mem_cons_of_mem _ member)
    exact ⟨(Settled.of_asked position side index).append settled, turns, handed⟩

end Silent

namespace Pass
variable {before between after pass : Pass World} {source : Text}

/-- Between two steps the writer may go anywhere in the source, no turn is under way, and all that was
handed over was handed over in a turn. -/
structure Ready (source : Text) (pass : Pass World) : Prop where
  anchored : pass.writer.source = source
  free : pass.writer.bound = none
  settled : Settled pass.journal
  handed : pass.journal.handed = pass.journal.turns.map fun turn => (turn.position, turn.region)

namespace Ready

theorem of_silent {notes : Journal} (ready : Ready source before) (silent : Silent notes)
    (journal : after.journal = before.journal ++ notes) (anchored : after.writer.source = source)
    (free : after.writer.bound = none) :
    Ready source after ∧ after.journal.turns = before.journal.turns := by
  have turns : after.journal.turns = before.journal.turns := by
    rw [journal, ready.settled, silent.turns, List.append_nil]
  have handed : after.journal.handed = before.journal.handed := by
    rw [journal, Journal.handed_append, silent.handed, List.append_nil]
  refine ⟨⟨anchored, free, ?_, ?_⟩, turns⟩
  · rw [journal]
    exact ready.settled.append silent.settled
  · rw [handed, turns]
    exact ready.handed

theorem served_turns {position : Nat} {region : Region} {inner dropped : Writer} {world : World}
    (ready : Ready source pass) (anchored : dropped.source = source) (free : dropped.bound = none) :
    Ready source (pass.served position region inner dropped world) ∧
    (pass.served position region inner dropped world).journal.turns =
      pass.journal.turns ++ [⟨position, region, inner, dropped⟩] := by
  have turns : (pass.served position region inner dropped world).journal.turns =
      pass.journal.turns ++ [⟨position, region, inner, dropped⟩] := ready.settled _
  refine ⟨⟨anchored, free, ready.settled.append (Settled.of_turn _ _ _ _), ?_⟩, turns⟩
  rw [turns, Pass.served, Journal.handed_append, List.map_append, ready.handed]
  rfl

end Ready

/-- Matchers were asked and nothing else was done. -/
structure Heard (before after : Pass World) : Prop where
  writer : after.writer = before.writer
  mode : after.mode = before.mode
  regions : after.regions = before.regions
  unterminated : after.unterminated = before.unterminated
  journal : ∃ asked, after.journal = before.journal ++ asked ∧
    ∀ entry ∈ asked, ∃ position side index, entry = .asked position side index

namespace Heard

theorem trans (first : Heard before between) (second : Heard between after) : Heard before after := by
  obtain ⟨earlier, earlierNotes, earlierAsked⟩ := first.journal
  obtain ⟨later, laterNotes, laterAsked⟩ := second.journal
  refine ⟨second.writer.trans first.writer, second.mode.trans first.mode,
    second.regions.trans first.regions, second.unterminated.trans first.unterminated,
    earlier ++ later, by rw [laterNotes, earlierNotes, List.append_assoc], ?_⟩
  intro entry member
  rcases List.mem_append.mp member with member | member
  · exact earlierAsked entry member
  · exact laterAsked entry member

theorem refl (pass : Pass World) : Heard pass pass :=
  ⟨rfl, rfl, rfl, rfl, [], by simp, by simp⟩

/-- Asking gives no callback a turn. -/
theorem silent_notes (heard : Heard before after) :
    ∃ notes, Silent notes ∧ after.journal = before.journal ++ notes := by
  obtain ⟨notes, journal, questions⟩ := heard.journal
  exact ⟨notes, Silent.of_asked notes questions, journal⟩

end Heard

private theorem ask_heard (position : Nat) (side : Side) (matcher : Matcher World) (cursor : Cursor) :
    Keeps Heard (ask position side matcher cursor) := by
  have noted : Keeps Heard (note (.asked position side cursor.index) : Step World Unit) :=
    fun pass => ⟨rfl, rfl, rfl, rfl, _, rfl, by simp⟩
  have watched (work : Watch World Bool) : Keeps Heard (watch work) := by
    intro pass
    unfold watch
    split <;> exact ⟨rfl, rfl, rfl, rfl, [], by simp [stateOf], by simp⟩
  exact noted.bind .trans fun _ => watched _

private theorem pure_heard {α : Type} (answer : α) :
    Keeps Heard (pure answer : Step World α) :=
  fun pass => .refl pass

theorem askBoth_heard (position : Nat) (binding : Binding World) (cursor : Cursor) :
    Keeps Heard (askBoth position binding cursor) := by
  refine (ask_heard position .start binding.start cursor).bind .trans fun started => ?_
  cases binding.stop with
  | none => exact pure_heard _
  | some stop =>
    exact (ask_heard position .stop stop cursor).bind .trans fun stopped => pure_heard _

theorem survey_heard (cursor : Cursor) (known : Option (Nat × Bool)) (position : Nat)
    (bindings : List (Binding World)) : Keeps Heard (survey cursor known position bindings) := by
  induction bindings generalizing position with
  | nil => exact pure_heard _
  | cons binding rest ih =>
    have going (started : Bool) : Keeps Heard (do
        let later ← survey cursor known (position + 1) rest
        pure (if started then some (position, binding) else later)) :=
      (ih (position + 1)).bind .trans fun later => pure_heard _
    unfold survey
    split
    · exact going _
    · exact (askBoth_heard position binding cursor).bind .trans fun answers => going _

/-- Notes of some kind were added, and what was noted before stays noted. -/
def Adds (allowed : Note → Prop) (before after : Pass World) : Prop :=
  ∃ notes, after.journal = before.journal ++ notes ∧ ∀ entry ∈ notes, allowed entry

/-- What was noted stays noted. -/
def Grown (before after : Pass World) : Prop :=
  before.journal <+: after.journal

theorem Adds.refl (allowed : Note → Prop) (pass : Pass World) : Adds allowed pass pass :=
  ⟨[], (List.append_nil _).symm, by simp⟩

theorem Adds.trans {allowed : Note → Prop} (first : Adds allowed before between)
    (second : Adds allowed between after) : Adds allowed before after := by
  obtain ⟨earlier, earlierNotes, earlierFit⟩ := first
  obtain ⟨later, laterNotes, laterFit⟩ := second
  refine ⟨earlier ++ later, by rw [laterNotes, earlierNotes, List.append_assoc], ?_⟩
  intro entry member
  rcases List.mem_append.mp member with member | member
  · exact earlierFit entry member
  · exact laterFit entry member

theorem Grown.refl (pass : Pass World) : Grown pass pass :=
  List.prefix_rfl

theorem Grown.trans (first : Grown before between) (second : Grown between after) : Grown before after :=
  List.IsPrefix.trans first second

private theorem Heard.grown (heard : Heard before after) : Grown before after := by
  obtain ⟨asked, journal, -⟩ := heard.journal
  exact ⟨asked, journal.symm⟩

section
variable {allowed : Note → Prop} {bindings : List (Binding World)} {cursor : Cursor} {event : Event}

theorem grown_of_heard {α : Type} {work : Step World α} (kept : Keeps Heard work) : Keeps Grown work :=
  fun pass => (kept pass).grown

theorem note_adds {entry : Note} (fits : allowed entry) :
    Keeps (Adds allowed) (note entry : Step World Unit) :=
  fun pass => ⟨[entry], rfl, by simpa using fits⟩

theorem modify_adds {change : Pass World → Pass World}
    (same : ∀ pass, (change pass).journal = pass.journal) :
    Keeps (Adds allowed) (modify change : Step World PUnit) :=
  fun pass => ⟨[], by rw [List.append_nil]; exact same pass, by simp⟩

private theorem watch_adds {α : Type} (work : Watch World α) : Keeps (Adds allowed) (watch work) := by
  intro pass
  unfold watch
  split <;> exact .refl allowed pass

theorem atDesk_adds (script : Script World) : Keeps (Adds allowed) (atDesk script) := by
  intro pass
  unfold atDesk
  split <;> exact .refl allowed pass

theorem get_adds : Keeps (Adds allowed) (get : Step World (Pass World)) :=
  .refl allowed

private theorem ofExcept_adds {α : Type} (given : Except Fault α) :
    Keeps (Adds allowed) (ofExcept given : Step World α) := by
  intro pass
  cases given <;> exact .refl allowed pass

/-- Asking is noted with the event that it is about. -/
theorem askBoth_adds (asks : ∀ position side, allowed (.asked position side cursor.index)) (position : Nat)
    (binding : Binding World) : Keeps (Adds allowed) (askBoth position binding cursor) := by
  have asked (side : Side) (matcher : Matcher World) :
      Keeps (Adds allowed) (ask position side matcher cursor) :=
    (note_adds (asks position side)).bind .trans fun _ => watch_adds _
  refine (asked .start binding.start).bind .trans fun started => ?_
  cases binding.stop with
  | none => exact .refl allowed
  | some stop => exact (asked .stop stop).bind .trans fun stopped => .refl allowed

private theorem survey_adds (asks : ∀ position side, allowed (.asked position side cursor.index))
    (known : Option (Nat × Bool)) (position : Nat) (bindings : List (Binding World)) :
    Keeps (Adds allowed) (survey cursor known position bindings) := by
  induction bindings generalizing position with
  | nil => exact .refl allowed
  | cons binding rest ih =>
    have going (started : Bool) : Keeps (Adds allowed) (do
        let later ← survey cursor known (position + 1) rest
        pure (if started then some (position, binding) else later)) :=
      (ih (position + 1)).bind .trans fun later => .refl allowed
    unfold survey
    split
    · exact going _
    · exact (askBoth_adds asks position binding).bind .trans fun answers => going _

section
variable (others : ∀ entry, (∀ position side index, entry ≠ .asked position side index) → allowed entry)
include others

private theorem handOver_adds (active : Active World) (region : Region) :
    Keeps (Adds allowed) (handOver active region) :=
  get_adds.bind .trans fun _ => (ofExcept_adds _).bind .trans fun _ =>
    (note_adds (others _ (by simp))).bind .trans fun _ => (atDesk_adds _).bind .trans fun _ =>
      get_adds.bind .trans fun _ => (note_adds (others _ (by simp))).bind .trans fun _ =>
        modify_adds fun _ => rfl

private theorem openAt_adds (position : Nat) (binding : Binding World) (cursor : Cursor) (event : Event) :
    Keeps (Adds allowed) (openAt position binding cursor event) := by
  refine (atDesk_adds _).bind .trans fun _ => (note_adds (others _ (by simp))).bind .trans fun _ => ?_
  cases binding.stop with
  | none => exact handOver_adds others _ _
  | some stop => exact modify_adds fun _ => rfl

private theorem search_adds (asks : ∀ position side, allowed (.asked position side cursor.index))
    (bindings : List (Binding World)) (event : Event) (known : Option (Nat × Bool)) :
    Keeps (Adds allowed) (search bindings cursor event known) := by
  refine (survey_adds asks known 0 bindings).bind .trans fun chosen => ?_
  cases chosen with
  | none => exact .refl allowed
  | some pick => exact openAt_adds others _ _ _ _

/-- What is noted at an event is allowed if every question about that event is, and all but questions. -/
theorem visit_adds (asks : ∀ position side, allowed (.asked position side cursor.index))
    (bindings : List (Binding World)) (event : Event) :
    Keeps (Adds allowed) (visit bindings cursor event) := by
  refine get_adds.bind .trans fun pass => ?_
  cases pass.mode with
  | searching => exact search_adds others asks _ _ _
  | editing active =>
    refine (askBoth_adds asks active.position active.binding).bind .trans ?_
    rintro ⟨started, stopped⟩
    cases stopped with
    | true => exact (handOver_adds others _ _).bind .trans fun _ => search_adds others asks _ _ _
    | false => exact modify_adds fun _ => rfl

theorem finish_adds (policy : Policy) (source : Text) :
    Keeps (Adds allowed) (finish policy source : Step World Unit) := by
  refine get_adds.bind .trans fun pass => ?_
  cases pass.mode with
  | searching => exact atDesk_adds _
  | editing active =>
    cases policy with
    | fail => exact .refl allowed
    | handOver =>
      have listed : Keeps (Adds allowed) (modify fun pass =>
          { pass with unterminated := pass.unterminated ++ [active.unstopped source] } :
          Step World PUnit) := modify_adds fun _ => rfl
      exact (note_adds (others _ (by simp))).bind .trans fun _ => listed.bind .trans fun _ =>
        (handOver_adds others _ _).bind .trans fun _ => atDesk_adds _

end

/-- Any notes may be added. -/
private theorem grown_of_adds {α : Type} {work : Step World α} (kept : Keeps (Adds fun _ => True) work) :
    Keeps Grown work := by
  intro pass
  obtain ⟨notes, journal, -⟩ := kept pass
  exact ⟨notes, journal.symm⟩

theorem ofExcept_grown {α : Type} (given : Except Fault α) :
    Keeps Grown (ofExcept given : Step World α) :=
  grown_of_adds (ofExcept_adds given)

theorem openAt_grown (position : Nat) (binding : Binding World) (cursor : Cursor) (event : Event) :
    Keeps Grown (openAt position binding cursor event) :=
  grown_of_adds (openAt_adds (fun _ _ => trivial) position binding cursor event)

theorem visit_grown (bindings : List (Binding World)) (cursor : Cursor) (event : Event) :
    Keeps Grown (visit bindings cursor event) :=
  grown_of_adds (visit_adds (fun _ _ => trivial) (fun _ _ => trivial) bindings event)

theorem events_grown (bindings : List (Binding World)) (document : Document) (rest : List Event)
    (index : Nat) : Keeps Grown (events bindings document rest index) := by
  induction rest generalizing index with
  | nil => exact .refl
  | cons event rest ih =>
    exact (visit_grown _ _ _).bind .trans fun _ => (ofExcept_grown _).bind .trans fun _ => ih (index + 1)

theorem finish_grown (policy : Policy) (source : Text) :
    Keeps Grown (finish policy source : Step World Unit) :=
  grown_of_adds (finish_adds (fun _ _ => trivial) policy source)

end

end Pass
end Emend
