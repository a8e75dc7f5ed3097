import Emend.Proofs.Matcher.Checking
import Emend.Proofs.Matcher.Stretch

/-! What a pass makes of broken promises. It asks its matchers only at events that keep their promises, as all
before them do, and as far as it comes its regions lie within the source. So where no check and no callback
fails, it ends with the fault of the first event that breaks a promise; if it comes to the end, there is no
such event. -/
namespace Emend
variable {World : Type} {bindings : List (Binding World)} {document : Document} {index : Nat}
  {policy : Policy} {memory : Memory World}

/-- Matchers were asked only at events that keep their promises, as all events before them do. -/
def Journal.Heeds (document : Document) (journal : Journal) : Prop :=
  ∀ position side index, .asked position side index ∈ journal → document.KeptFirst (index + 1)

/-- If the note tells of a question, it was put at an event that keeps its promises, as all before it do. -/
def Note.Heeds (document : Document) (entry : Note) : Prop :=
  ∀ position side index, entry = .asked position side index → document.KeptFirst (index + 1)

/-- Only questions have anything to heed. -/
theorem Note.heeds_of_ne {entry : Note} (plain : ∀ position side index, entry ≠ .asked position side index) :
    entry.Heeds document :=
  fun position side index same => absurd same (plain position side index)

namespace Pass
variable {pass : Pass World} {rest : List Event}

/-- However the events come to their end, questions are put only where they may be. -/
theorem events_heed (kept : document.KeptFirst (index + 1)) :
    Keeps (Adds (Note.Heeds document)) (events bindings document rest index) := by
  induction rest generalizing index with
  | nil => exact .refl _
  | cons event rest ih =>
    have asks (position : Nat) (side : Side) : (Note.asked position side index).Heeds document := by
      rintro _ _ _ ⟨⟩
      exact kept
    refine (visit_adds (fun _ => Note.heeds_of_ne) asks bindings event).bind .trans fun _ => ?_
    cases checked : document.check (index + 1) with
    -- The pass ends here, before the next event is asked about.
    | error fault => exact .refl _
    | ok => exact ih (kept.succ (Document.check_eq_ok_iff.mp checked))

/-- The events come to their end if all of them keep their promises, unless a callback fails. -/
theorem events_meet (quiet : ∀ binding ∈ bindings, binding.Quiet document)
    (there : document.events.drop index = rest) (kept : document.KeptFirst (index + 1))
    (upright : Upright bindings document.source pass) :
    Meets (events bindings document rest index) pass
      (fun _ after => Upright bindings document.source after ∧ document.Valid)
      fun fault failed => document.Breach 0 fault ∨ Raised bindings fault failed.journal := by
  induction rest generalizing pass index with
  | nil => exact .of_ok rfl ⟨upright, Document.valid_of_ended (List.drop_eq_nil_iff.mp there) kept⟩
  | cons event rest ih =>
    obtain ⟨found, later⟩ := next_of_drop there
    have visits := Ends.iff_meets.mp
      (visit_upright quiet (kept index (Nat.lt_succ_self index)) found upright)
    refine (visits.mono (fun _ _ still => still) fun _ _ raised => .inr raised).bind ?_
    intro _ between still
    -- The check of the next event is the first one that can fail.
    cases checked : document.check (index + 1) with
    | error fault => exact .of_error rfl (.inl (Document.breach_of_check kept checked))
    | ok => exact .of_eq rfl (ih later (kept.succ (Document.check_eq_ok_iff.mp checked)) still)

/-- A region that is still open lies within the source, so it can go to its callback. -/
theorem finish_upright {source : Text} (upright : Upright bindings source pass)
    (accepted : policy = .fail → pass.mode = .searching) :
    Ends bindings (finish policy source) pass fun _ _ => True := by
  have copies {before : Pass World} (still : Upright bindings source before) :
      Ends bindings (atDesk (.once (.copyTo source.length))) before fun _ _ => True := by
    obtain ⟨writer, copied, -⟩ := still.steady.copyTo_within (Nat.le_refl _)
    exact .of_ok_unit (copying_eq_ok.mpr ⟨writer, copied, rfl⟩) trivial
  cases mode : pass.mode with
  | searching => exact .of_eq (finish_searching mode) (copies upright)
  | editing active =>
    cases policy with
    | fail => cases mode.symm.trans (accepted rfl)
    | handOver =>
      have inside := upright.within active mode
      have ready := upright.steady.ready
      obtain ⟨noted, -⟩ : Steady bindings source (pass.unstopped active source) ∧ _ :=
        upright.steady.of_silent (.of_leftOpen active.index) rfl rfl ready.anchored ready.free
      refine .of_eq (finish_editing mode) ?_
      have closes := handOver_upright noted inside.known inside.unstopped_within
      exact closes.bind fun _ closed still => copies still

end Pass

/-- Whatever its matchers and callbacks do, a pass asks at no event that breaks a promise, and after none. -/
theorem emend_heeds (bindings : List (Binding World)) (document : Document) (policy : Policy)
    (memory : Memory World) : (emend bindings document policy memory).journal.Heeds document := by
  have heeds : Keeps (Pass.Adds (Note.Heeds document)) (Pass.all bindings document policy) := by
    cases checked : document.check 0 with
    | error fault =>
      rw [Pass.all, Document.start_of_check checked]
      exact .refl _
    | ok =>
      have kept := Document.check_eq_ok_iff.mp checked
      rw [Pass.all_of_kept kept]
      exact (Pass.events_heed (Document.keptFirst_one.mpr kept)).bind .trans fun _ =>
        (Pass.finish_adds (fun _ => Note.heeds_of_ne) _ _).bind .trans fun _ =>
          Pass.get_adds.bind .trans fun _ => .refl _
  obtain ⟨notes, journal, fit⟩ := heeds { memory, writer := { source := document.source } }
  have same : (emend bindings document policy memory).journal = notes := by
    rw [← List.nil_append notes, ← journal]
    unfold emend
    split <;> rename_i ran <;> rw [ran] <;> rfl
  intro position side index asked
  exact fit _ (same ▸ asked) position side index rfl

/-- If no check and no callback fails, a pass that comes to the end has found every promise kept. One that
fails has come to the first event that breaks a promise, unless it refuses an open region at the end. -/
theorem emend_meets (quiet : ∀ binding ∈ bindings, binding.Quiet document)
    (calm : (emend bindings document policy memory).journal.Calm bindings) :
    (∀ emended, (emend bindings document policy memory).answer = .ok emended → document.Valid) ∧
    ∀ fault, (emend bindings document policy memory).answer = .error fault → document.Breach 0 fault ∨
      policy = .fail ∧ document.Valid ∧
        ∃ index start : Nat, fault = .unterminated index start document.source.length := by
  cases checked : document.check 0 with
  | error fault =>
    have breach := Document.breach_of_check (fun _ before => absurd before (Nat.not_lt_zero _)) checked
    have failed : (emend bindings document policy memory).answer = .error fault := by
      rw [emend, Pass.all, Document.start_of_check checked]
      rfl
    rw [failed]
    refine ⟨fun emended ended => ?_, fun told ended => ?_⟩
    · cases ended
    · cases ended
      exact .inl breach
  | ok =>
    have kept := Document.check_eq_ok_iff.mp checked
    have meets := Pass.events_meet quiet List.drop_zero (Document.keptFirst_one.mpr kept)
      (.of_begun memory document)
    cases ran : Pass.events bindings document document.events 0 (Pass.begun memory document) with
    | error fault failed =>
      have same : emend bindings document policy memory = _ := Pass.emend_of_events_error kept ran
      rw [same] at calm ⊢
      refine ⟨fun emended ended => ?_, fun told ended => ?_⟩
      · cases ended
      · cases ended
        exact .inl ((meets.broken_of_error ran).resolve_right calm.not_raised)
    | ok nothing between =>
      obtain ⟨upright, valid⟩ := meets.described_of_ok ran
      refine ⟨fun _ _ => valid, fun fault ended => ?_⟩
      have same : emend bindings document policy memory = _ := Pass.emend_of_events_ok kept ran
      by_cases accepted : policy = .fail → between.mode = .searching
      · cases finished : Pass.finish policy document.source between with
        | error refusal failed =>
          rw [finished] at same
          rw [same] at calm
          have raised := (Pass.finish_upright upright accepted).raised_of_error finished
          exact absurd raised calm.not_raised
        | ok nothing after =>
          rw [finished] at same
          rw [same] at ended
          cases ended
      · obtain ⟨rfl, still⟩ := Classical.not_imp.mp accepted
        cases mode : between.mode with
        | searching => exact absurd mode still
        | editing active =>
          rw [Pass.finish_refuses mode] at same
          rw [same] at ended
          cases ended
          exact .inr ⟨rfl, valid, _, _, rfl⟩

/-- The first broken promise of a document is told, whichever scan meets it. No matcher is asked at that event
or after it. A search, an editing pass and the search for the start of a stretch tell the promise that was
broken and the place of the event in the document; the search for the end of a stretch counts from its start.
A search for all matches or a pass that comes to the end has found every promise kept. -/
theorem first_breach_told {start stop : Matcher World} (quiet : start.Quiet document)
    (quietStop : ∀ place, stop.Quiet (document.dropEvents place))
    (quietBindings : ∀ binding ∈ bindings, binding.Quiet document)
    (calm : (emend bindings document policy memory).journal.Calm bindings) :
    -- It makes no difference what a matcher would say at an event that breaks a promise, or after it.
    (∀ twin, Search.SameWhereKept document start.evaluate twin.evaluate →
      (∀ limit, Search.indices (.matcher start) document limit =
        Search.indices (.matcher twin) document limit) ∧
      Search.first (.matcher start) document = Search.first (.matcher twin) document ∧
      ∀ stopTwin, (∀ place index, document.KeptFirst (place + index + 1) →
          stop.evaluate { document := document.dropEvents place, index } =
            stopTwin.evaluate { document := document.dropEvents place, index }) →
        Search.stretch (.matcher start) (.matcher stop) document =
          Search.stretch (.matcher twin) (.matcher stopTwin) document) ∧
    (emend bindings document policy memory).journal.Heeds document ∧
    (∀ limit, Meets (Search.indices (.matcher start) document limit) memory
      (fun _ _ => limit = none → document.Valid) fun fault _ => document.Breach 0 fault) ∧
    Meets (Search.first (.matcher start) document) memory (fun _ _ => True)
      (fun fault _ => document.Breach 0 fault) ∧
    Meets (Search.stretch (.matcher start) (.matcher stop) document) memory (fun _ _ => True)
      (fun fault _ => Search.StretchBreach document start memory fault) ∧
    (∀ emended, (emend bindings document policy memory).answer = .ok emended → document.Valid) ∧
    ∀ fault, (emend bindings document policy memory).answer = .error fault → document.Breach 0 fault ∨
      policy = .fail ∧ document.Valid ∧
        ∃ index start : Nat, fault = .unterminated index start document.source.length := by
  obtain ⟨complete, failed⟩ := emend_meets quietBindings calm
  refine ⟨fun twin same => ⟨fun limit => Search.indices_congr same limit, Search.first_congr same,
      fun stopTwin sameAfter => Search.stretch_congr same sameAfter⟩,
    emend_heeds bindings document policy memory, fun limit => Search.indices_meets quiet limit memory,
    Search.first_meets quiet memory, Search.stretch_meets quiet quietStop memory, complete, failed⟩

/-- The last of three events starts before its predecessor. -/
def back : Document where
  source := ['a', 'b', 'c']
  events := [
    { kind := .rule, span := .reach 0 1 },
    { kind := .rule, span := .reach 1 2 },
    { kind := .rule, span := .reach 0 1 }]

def onSecond : Binding Unit where
  start := Search.second
  stop := none
  callback := fun _ => .done

/-- A search and an editing pass both find the second event, and both tell that the third is out of order. -/
theorem back_first_breach_told :
    (∃ after, Search.indices (.matcher Search.second) back none { world := () } =
      .error (.spanOrder 2 1 0) after) ∧
    (emend [onSecond] back .handOver { world := () }).answer = .error (.spanOrder 2 1 0) ∧
    (emend [onSecond] back .handOver { world := () }).journal.Heeds back ∧
    back.Breach 0 (.spanOrder 2 1 0) := by
  have quiet : Search.second.Quiet back := fun index _ world => ⟨_, world, rfl⟩
  have quietBindings : ∀ binding ∈ [onSecond], binding.Quiet back := by
    intro binding member
    cases List.mem_singleton.mp member
    exact ⟨quiet, nofun⟩
  have calm : (emend [onSecond] back .handOver { world := () }).journal.Calm [onSecond] := by
    intro position region writer binding world handed known
    cases List.mem_singleton.mp (List.mem_of_getElem? known)
    exact ⟨_, rfl⟩
  have stopQuiet (place : Nat) : (Matcher.heading none : Matcher Unit).Quiet (back.dropEvents place) := trivial
  obtain ⟨-, heeds, -, -, -, -, failed⟩ := first_breach_told quiet stopQuiet quietBindings calm
  have ran : ∃ after, Search.indices (.matcher Search.second) back none { world := () } =
      .error (.spanOrder 2 1 0) after := ⟨_, rfl⟩
  have answer : (emend [onSecond] back .handOver { world := () }).answer = .error (.spanOrder 2 1 0) := by
    cbv
  exact ⟨ran, answer, heeds, (failed _ answer).resolve_right (by simp)⟩

/-- From the second event on, the search for a heading tells that the event at the first place is out of
order. It is the one at the second place of those that are left, and the third of the document. -/
theorem back_stretch_miscounts : Search.second.Quiet back ∧
    (∀ place, (Matcher.heading none : Matcher Unit).Quiet (back.dropEvents place)) ∧
    (∃ after, Search.stretch (.matcher Search.second) (.matcher (.heading none)) back { world := () } =
      .error (.spanOrder 1 1 0) after) ∧
    back.Breach 0 (.spanOrder 2 1 0) ∧ ¬ back.Breach 0 (.spanOrder 1 1 0) := by
  have failed : back.check 2 = .error (.spanOrder 2 1 0) := rfl
  have kept : back.KeptFirst 2 := by
    intro index before
    apply Document.check_eq_ok_iff.mp
    interval_cases index <;> rfl
  refine ⟨fun index _ world => ⟨_, world, rfl⟩, fun _ => trivial, ⟨_, rfl⟩,
    Document.breach_of_check kept failed, ?_⟩
  generalize told : Fault.spanOrder 1 1 0 = fault
  intro breach
  cases breach with
  | outside => cases told
  | @disorder index previous event _ _ foundBefore =>
    simp only [Fault.spanOrder.injEq] at told
    obtain ⟨place, start, -⟩ := told
    obtain rfl : index = 0 := by omega
    cases foundBefore
    cases start

end Emend
