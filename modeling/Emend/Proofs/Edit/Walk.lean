import Emend.Proofs.Edit.Turns
import Emend.Proofs.Stream.Order

/-! What holds all along a pass, however the pass ends. There are only a few things that a pass does at an
event. What all of them hand on holds before every event, and what this says of the journal is true of the
journal that the pass leaves, also if a matcher or a callback fails on the way. -/
namespace Emend
variable {World : Type} {bindings : List (Binding World)} {document : Document} {index position : Nat}
  {event : Event} {active : Active World} {region : Region}

/-- What an open region becomes when it ends at an event: without a stop matcher it ends behind the event
that opened it, and otherwise at the event that stops it. -/
inductive Active.ClosesAt (document : Document) (index : Nat) (active : Active World) : Region → Prop
  | complete (single : active.binding.stop = none) :
      ClosesAt document index active (active.complete document.source)
  | stopped {stop : Event} (found : document.events[index]? = some stop) :
      ClosesAt document index active (active.stoppedAt document.source stop)

namespace Pass
variable {pass after left : Pass World} {nothing : Unit} {binding : Binding World} {rest : List Event}
  {fault : Fault} {holds : Nat → Pass World → Prop} {kept : Journal → Prop}

/-- At a turn of an open region what holds is handed on, and as soon as the region is noted to be in the
callback's hands the journal is as it should be, whatever the callback does. -/
structure Serves (holds : Nat → Pass World → Prop) (kept : Journal → Prop) (index : Nat)
    (active : Active World) (region : Region) : Prop where
  served : ∀ {pass after}, holds index pass → pass.mode = .editing active →
    handOver active region pass = .ok () after → holds index after
  entered : ∀ {pass inner}, holds index pass → pass.mode = .editing active →
    pass.writer.enter region.span.stop = .ok inner →
    kept (pass.journal ++ [.handed active.position region inner])

/-- What holds before the event at each index, with what it says of the journal. Every step at an event
hands it on. A binding without a stop matcher takes two of these steps at its event: it opens a region and
gives it away. -/
structure Walk (bindings : List (Binding World)) (document : Document)
    (holds : Nat → Pass World → Prop) (kept : Journal → Prop) : Prop where
  hears : ∀ {index pass after}, holds index pass → Heard pass after → holds index after
  skips : ∀ {index pass event}, holds index pass → pass.mode = .searching →
    document.events[index]? = some event → holds (index + 1) pass
  opens : ∀ {index pass position binding event writer}, holds index pass → pass.mode = .searching →
    bindings[position]? = some binding → document.events[index]? = some event →
    pass.writer.copyTo event.start = .ok writer →
    holds (index + 1) { pass.opened position index event.start writer with
      mode := .editing (activeAt position binding { document, index } event) }
  grows : ∀ {index pass active event}, holds index pass → pass.mode = .editing active →
    document.events[index]? = some event →
    holds (index + 1) { pass with mode := .editing { active with rest := active.rest ++ [event] } }
  closes : ∀ {index active region}, active.ClosesAt document index region →
    Serves holds kept index active region
  rests : ∀ {index pass}, holds index pass → kept pass.journal

/-- What a survey picks is one of the bindings, at its own position. -/
theorem survey_picks {cursor : Cursor} {left : List (Binding World)} {known : Option (Nat × Bool)}
    {chosen : Option (Nat × Binding World)} (there : bindings.drop position = left)
    (ran : survey cursor known position left pass = .ok chosen after) :
    ∀ pick ∈ chosen, bindings[pick.1]? = some pick.2 := by
  induction left generalizing position pass chosen with
  | nil =>
    obtain ⟨rfl, rfl⟩ := pure_eq_ok.mp ran
    simp
  | cons binding left ih =>
    obtain ⟨here, later⟩ := next_of_drop there
    obtain ⟨started, between, rest, -, goes, rfl⟩ := survey_cons_eq_ok.mp ran
    cases started with
    | false => exact ih later goes
    | true =>
      intro pick same
      cases Option.mem_some_iff.mp same
      exact here

private theorem handOver_searching (ran : handOver active region pass = .ok nothing after) :
    after.mode = .searching := by
  obtain ⟨inner, left, dropped, -, -, -, rfl⟩ := handOver_eq_ok.mp ran
  rfl

/-- To a turn it makes no difference whether the region is on record as open. -/
theorem handOver_mode {mode : Mode World} (ran : handOver active region pass = .ok nothing after) :
    handOver active region { pass with mode } = .ok nothing after := by
  obtain ⟨inner, left, dropped, entered, calledBack, fell, rfl⟩ := handOver_eq_ok.mp ran
  exact handOver_eq_ok.mpr ⟨inner, left, dropped, entered, calledBack, fell, rfl⟩

private theorem atDesk_journal {script : Script World} (failed : atDesk script pass = .error fault left) :
    left.journal = pass.journal := by
  unfold atDesk at failed
  split at failed
  · cases failed
  · cases failed
    rfl

/-- A turn fails either before the region is in the callback's hands or while it is. -/
theorem handOver_error (failed : handOver active region pass = .error fault left) :
    left.journal = pass.journal ∨ ∃ inner, pass.writer.enter region.span.stop = .ok inner ∧
      left.journal = pass.journal ++ [.handed active.position region inner] := by
  rw [handOver, bind_of_ok (get_run pass)] at failed
  cases entered : pass.writer.enter region.span.stop with
  | error refused =>
    rw [entered, ofExcept, bind_of_error (throw_run ..)] at failed
    cases failed
    exact .inl rfl
  | ok inner =>
    rw [bind_of_ok (ofExcept_eq_ok.mpr ⟨entered, rfl⟩), note, bind_of_ok (modify_run ..)] at failed
    refine .inr ⟨inner, rfl, ?_⟩
    cases worked : atDesk (.bounded region.span.stop (active.binding.callback region) .done)
        { pass with journal := pass.journal ++ [.handed active.position region inner] } with
    | ok nothing between =>
      rw [bind_of_ok worked, bind_of_ok (get_run between), note, bind_of_ok (modify_run ..),
        modify_run] at failed
      cases failed
    | error refused between =>
      rw [bind_of_error worked] at failed
      cases failed
      exact atDesk_journal worked

/-- A region that is still open when the events have run out is refused. -/
theorem finish_refuses {source : Text} (editing : pass.mode = .editing active) :
    finish .fail source pass =
      .error (.unterminated active.index active.opening.start source.length) pass := by
  rw [finish, bind_of_ok (get_run pass), editing]
  exact bind_of_error (throw_run ..)

namespace Walk

/-- Whatever is asked, and also if the answer is a fault. -/
private theorem meets_heard {α : Type} {work : Step World α} (walk : Walk bindings document holds kept)
    (keeps : Keeps Heard work) (here : holds index pass) :
    Meets work pass
      (fun answer after => work pass = .ok answer after ∧ after.mode = pass.mode ∧ holds index after)
      fun _ left => kept left.journal := by
  apply Meets.of_ok_of_error
  · intro answer after ran
    have heard := keeps.of_ok ran
    exact ⟨ran, heard.mode, walk.hears here heard⟩
  · intro fault left failed
    exact walk.rests (walk.hears here (keeps.of_error failed))

private theorem meets_handOver (walk : Walk bindings document holds kept)
    (serves : Serves holds kept index active region)
    (here : holds index { pass with mode := .editing active }) :
    Meets (handOver active region) pass
      (fun _ after => after.mode = .searching ∧ holds index after) fun _ left => kept left.journal := by
  apply Meets.of_ok_of_error
  · intro nothing after ran
    exact ⟨handOver_searching ran, serves.served here rfl (handOver_mode ran)⟩
  · intro fault left failed
    have still : kept ({ pass with mode := .editing active } : Pass World).journal := walk.rests here
    rcases handOver_error failed with same | ⟨inner, entered, journal⟩
    · rw [same]
      exact still
    · have begun : kept (({ pass with mode := .editing active } : Pass World).journal ++
          [.handed active.position region inner]) := serves.entered here rfl entered
      rw [journal]
      exact begun

private theorem meets_handOver_editing (walk : Walk bindings document holds kept)
    (serves : Serves holds kept index active region) (editing : pass.mode = .editing active)
    (here : holds index pass) :
    Meets (handOver active region) pass
      (fun _ after => after.mode = .searching ∧ holds index after) fun _ left => kept left.journal := by
  refine walk.meets_handOver serves ?_
  rw [← editing]
  exact here

private theorem meets_copying (walk : Walk bindings document holds kept) {offset : Nat}
    (here : holds index pass) :
    Meets (atDesk (.once (.copyTo offset))) pass
      (fun _ after => ∃ writer, pass.writer.copyTo offset = .ok writer ∧ { pass with writer } = after)
      fun _ left => kept left.journal := by
  apply Meets.of_ok_of_error
  · intro nothing after ran
    exact copying_eq_ok.mp ran
  · intro fault left failed
    rw [atDesk_journal failed]
    exact walk.rests here

private theorem meets_openAt (walk : Walk bindings document holds kept) (searching : pass.mode = .searching)
    (known : bindings[position]? = some binding) (found : document.events[index]? = some event)
    (here : holds index pass) :
    Meets (Pass.openAt position binding { document, index } event) pass
      (fun _ after => holds (index + 1) after) fun _ left => kept left.journal := by
  refine (walk.meets_copying here).bind ?_
  rintro - - ⟨writer, copied, rfl⟩
  have opened := walk.opens here searching known found copied
  refine .of_eq (bind_of_ok (modify_run ..)) ?_
  cases stops : binding.stop with
  | none =>
    refine (walk.meets_handOver (walk.closes (.complete stops)) opened).mono ?_ fun _ _ still => still
    rintro - after ⟨-, holdsAfter⟩
    exact holdsAfter
  | some stop => exact .of_ok (modify_run ..) opened

private theorem meets_search (walk : Walk bindings document holds kept) {known : Option (Nat × Bool)}
    (searching : pass.mode = .searching) (found : document.events[index]? = some event)
    (here : holds index pass) :
    Meets (Pass.search bindings { document, index } event known) pass
      (fun _ after => holds (index + 1) after) fun _ left => kept left.journal := by
  refine (walk.meets_heard (survey_heard { document, index } known 0 bindings) here).bind ?_
  rintro chosen between ⟨surveyed, mode, holdsBetween⟩
  have still := mode.trans searching
  cases chosen with
  | none => exact .of_ok rfl (walk.skips holdsBetween still found)
  | some pick =>
    exact walk.meets_openAt still (survey_picks List.drop_zero surveyed pick rfl) found holdsBetween

theorem meets_visit (walk : Walk bindings document holds kept) (found : document.events[index]? = some event)
    (here : holds index pass) :
    Meets (Pass.visit bindings { document, index } event) pass
      (fun _ after => holds (index + 1) after) fun _ left => kept left.journal := by
  cases mode : pass.mode with
  | searching => exact .of_eq (visit_searching mode) (walk.meets_search mode found here)
  | editing active =>
    refine .of_eq (visit_editing mode) ?_
    refine (walk.meets_heard (askBoth_heard active.position active.binding { document, index }) here).bind ?_
    rintro ⟨started, stopped⟩ between ⟨-, same, holdsBetween⟩
    have editing := same.trans mode
    cases stopped with
    | false => exact .of_ok (modify_run ..) (walk.grows holdsBetween editing found)
    | true =>
      refine (walk.meets_handOver_editing (walk.closes (.stopped found)) editing holdsBetween).bind ?_
      rintro - closed ⟨searching, holdsClosed⟩
      exact walk.meets_search searching found holdsClosed

/-- What every step at an event hands on holds after the last event. -/
theorem meets_events (walk : Walk bindings document holds kept) (there : document.events.drop index = rest)
    (here : holds index pass) :
    Meets (Pass.events bindings document rest index) pass
      (fun _ after => ∃ past, document.events.length ≤ past ∧ holds past after)
      fun _ left => kept left.journal := by
  induction rest generalizing pass index with
  | nil => exact .of_ok rfl ⟨index, List.drop_eq_nil_iff.mp there, here⟩
  | cons event rest ih =>
    obtain ⟨found, later⟩ := next_of_drop there
    refine (walk.meets_visit found here).bind ?_
    intro nothing between holdsBetween
    have checks : Meets (ofExcept (document.check (index + 1))) between
        (fun _ after => holds (index + 1) after) fun _ left => kept left.journal :=
      .ofExcept (fun _ _ => holdsBetween) fun _ _ => walk.rests holdsBetween
    exact checks.bind fun _ _ holdsAfter => ih later holdsAfter

end Walk

namespace Walk.Through
variable {policy : Policy} {memory : Memory World}

end Walk.Through
end Pass
end Emend
