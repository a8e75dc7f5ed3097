import Emend.Proofs.Edit.Moves
import Emend.Proofs.Edit.Priority

/-! A pass meets no fault of its own. On a valid document its matchers find the line of every event, its
regions lie within the source, and its writer is never asked for an offset out of place. So where neither a
check nor a callback fails, the pass ends well, unless it has to refuse a region that was left open. -/
namespace Emend
variable {World : Type} {bindings : List (Binding World)} {document : Document} {index position : Nat}
  {event : Event} {active : Active World} {region : Region}

/-- The check fails at no event of the document, whatever the world is. -/
def Predicate.Quiet (document : Document) (check : Predicate World) : Prop :=
  ∀ index < document.events.length, ∀ world, ∃ answer after,
    check.run { document, index } world = .ok answer after

namespace Matcher
variable {matcher : Matcher World}

/-- A tree of the seven kinds of matchers whose checks do not fail. -/
def Quiet (document : Document) : Matcher World → Prop
  | always | heading _ => True
  | predicate check => check.Quiet document
  | both left right => left.Quiet document ∧ right.Quiet document
  | oneShot _ inner | fallingEdge _ inner | nextLine _ inner => inner.Quiet document
  | foreign _ => False

/-- Asking a tree gives an answer, whatever state it is in. -/
theorem observe_answers (kept : document.Kept index) (found : document.events[index]? = some event)
    (quiet : matcher.Quiet document) (memory : Memory World) :
    ∃ answer after, matcher.observe { document, index } event memory = .ok answer after := by
  induction matcher generalizing memory with
  | always | heading => exact ⟨_, memory, rfl⟩
  | foreign => exact quiet.elim
  | predicate p =>
    obtain ⟨inside, -⟩ := List.getElem?_eq_some_iff.mp found
    obtain ⟨answer, world, ran⟩ := quiet index inside memory.world
    exact ⟨answer, { memory with world }, by simp only [observe, check, ran]⟩
  | both left right ihLeft ihRight =>
    obtain ⟨first, middle, ranLeft⟩ := ihLeft quiet.1 memory
    obtain ⟨second, after, ranRight⟩ := ihRight quiet.2 middle
    exact ⟨_, after, observe_both_eq_ok.mpr ⟨first, middle, second, ranLeft, ranRight, rfl⟩⟩
  | oneShot slot inner ih =>
    cases shot : (memory.registers.get slot).shot with
    | fired => exact ⟨false, memory, observe_oneShot_fired shot⟩
    | armed =>
      obtain ⟨observed, between, ran⟩ := ih quiet memory
      exact ⟨_, _, observe_oneShot_armed shot ran⟩
  | fallingEdge slot inner ih =>
    obtain ⟨observed, between, ran⟩ := ih quiet memory
    exact ⟨_, _, observe_fallingEdge ran⟩
  | nextLine slot inner ih =>
    obtain ⟨observed, between, ran⟩ := ih quiet memory
    exact ⟨_, _, observe_nextLine_of_within (kept event found).1 ran⟩

theorem evaluate_answers (kept : document.Kept index) (quiet : matcher.Quiet document)
    (memory : Memory World) : ∃ answer after, matcher.evaluate { document, index } memory =
      .ok answer after := by
  unfold evaluate
  cases current : ({ document, index } : Cursor).current with
  | none => exact ⟨false, memory, rfl⟩
  | some event => exact observe_answers kept current quiet memory

end Matcher

/-- Neither matcher has a check that fails. -/
structure Binding.Quiet (document : Document) (binding : Binding World) : Prop where
  start : binding.start.Quiet document
  stop : ∀ stop ∈ binding.stop, stop.Quiet document

/-- No callback fails at a region that was handed to it. -/
def Journal.Calm (bindings : List (Binding World)) (journal : Journal) : Prop :=
  journal.EachTurn bindings fun _ script desk => ∃ left, script.run desk = .ok () left

theorem Journal.Calm.not_raised {journal : Journal} {fault : Fault} (calm : journal.Calm bindings) :
    ¬ Raised bindings fault journal := by
  rintro ⟨earlier, position, region, writer, binding, world, failed, rfl, known, raised⟩
  obtain ⟨left, ran⟩ := calm position region writer binding world (by simp) known
  cases raised.symm.trans ran

/-- The open region is one of a binding, and its events lie within the source. -/
structure Active.Inside (bindings : List (Binding World)) (source : Text) (active : Active World) : Prop where
  known : bindings[active.position]? = some active.binding
  reaches : furthestStop active.opening active.rest ≤ source.length

namespace Active.Inside
variable {source : Text}

private theorem start_le (inside : active.Inside bindings source) : active.opening.start ≤ source.length :=
  Nat.le_trans (start_le_furthestStop _ _) inside.reaches

private theorem stoppedAt_within (inside : active.Inside bindings source) (stop : Event) :
    (active.stoppedAt source stop).span.stop ≤ source.length :=
  Nat.max_le.mpr ⟨inside.start_le, Nat.le_trans (Nat.min_le_left _ _) inside.reaches⟩

theorem unstopped_within (inside : active.Inside bindings source) :
    (active.unstopped source).span.stop ≤ source.length :=
  Nat.max_le.mpr ⟨inside.start_le, Nat.le_refl _⟩

theorem snoc (inside : active.Inside bindings source) (within : event.stop ≤ source.length) :
    ({ active with rest := active.rest ++ [event] } : Active World).Inside bindings source := by
  refine ⟨inside.known, ?_⟩
  have reaches := inside.reaches
  simp only [furthestStop, List.foldl_append, List.foldl_cons, List.foldl_nil] at reaches ⊢
  exact Nat.max_le.mpr ⟨reaches, within⟩

end Active.Inside

namespace Pass
variable {pass : Pass World} {binding : Binding World} {rest : List Event}

private theorem ask_answers {matcher : Matcher World} (kept : document.Kept index)
    (quiet : matcher.Quiet document)
    (side : Side) (pass : Pass World) : ∃ answer after,
      ask position side matcher { document, index } pass = .ok answer after := by
  obtain ⟨answer, memory, ran⟩ := matcher.evaluate_answers kept quiet pass.memory
  exact ⟨answer, _, ask_eq_ok.mpr ⟨memory, ran, rfl⟩⟩

private theorem askBoth_answers (kept : document.Kept index) (quiet : binding.Quiet document)
    (pass : Pass World) :
    ∃ answers after, askBoth position binding { document, index } pass = .ok answers after := by
  obtain ⟨started, between, begun⟩ := ask_answers kept quiet.start .start pass
  cases stops : binding.stop with
  | none => exact ⟨(started, false), between, (askBoth_single_eq_ok stops).mpr ⟨rfl, begun⟩⟩
  | some stop =>
    obtain ⟨stopped, after, asked⟩ := ask_answers kept (quiet.stop stop stops) .stop between
    exact ⟨(started, stopped), after, (askBoth_double_eq_ok stops).mpr ⟨between, begun, asked⟩⟩

private theorem survey_answers (kept : document.Kept index)
    (quiet : ∀ binding ∈ bindings, binding.Quiet document)
    (known : Option (Nat × Bool)) (pass : Pass World) : ∃ chosen after,
      survey { document, index } known position bindings pass = .ok chosen after := by
  induction bindings generalizing position pass with
  | nil => exact ⟨none, pass, rfl⟩
  | cons binding rest ih =>
    have goes (between : Pass World) := @ih (position + 1)
      (fun other member => quiet other (List.mem_cons_of_mem _ member)) between
    cases told : known.filter (·.1 == position) with
    | some answer =>
      obtain ⟨later, after, surveyed⟩ := goes pass
      refine ⟨_, after, survey_cons_eq_ok.mpr ⟨answer.2, pass, later, ?_, surveyed, rfl⟩⟩
      rw [told]
      exact ⟨rfl, rfl⟩
    | none =>
      obtain ⟨⟨started, stopped⟩, between, asked⟩ :=
        askBoth_answers kept (quiet binding List.mem_cons_self) pass
      obtain ⟨later, after, surveyed⟩ := goes between
      refine ⟨_, after, survey_cons_eq_ok.mpr ⟨started, between, later, ?_, surveyed, rfl⟩⟩
      rw [told]
      exact ⟨stopped, asked⟩

/-- The pass is between two steps, and a region that is open lies within the source. -/
structure Upright (bindings : List (Binding World)) (source : Text) (pass : Pass World) : Prop where
  steady : Steady bindings source pass
  within : ∀ active, pass.mode = .editing active → active.Inside bindings source

theorem Upright.of_begun (memory : Memory World) (document : Document) :
    Upright bindings document.source (Pass.begun memory document) :=
  ⟨(Sound.of_begun memory document).steady, by simp [Pass.begun]⟩

private theorem Upright.of_heard {source : Text} {after : Pass World} (upright : Upright bindings source pass)
    (heard : Heard pass after) : Upright bindings source after :=
  ⟨(upright.steady.of_heard heard).1, heard.mode ▸ upright.within⟩

theorem handOver_upright {source : Text} (steady : Steady bindings source pass)
    (known : bindings[active.position]? = some active.binding) (within : region.span.stop ≤ source.length) :
    Ends bindings (handOver active region) pass fun _ after => Upright bindings source after := by
  refine (handOver_ends steady known within).mono ?_
  rintro _ after ⟨steadyAfter, searching, -, -⟩
  exact ⟨steadyAfter, fun other editing => nomatch searching.symm.trans editing⟩

section
variable (quiet : ∀ binding ∈ bindings, binding.Quiet document) (kept : document.Kept index)
  (found : document.events[index]? = some event)
include quiet kept found

private theorem search_upright {known : Option (Nat × Bool)}
    (upright : Upright bindings document.source pass) :
    Ends bindings (search bindings { document, index } event known) pass
      fun _ after => Upright bindings document.source after := by
  obtain ⟨chosen, between, surveyed⟩ := survey_answers kept quiet known pass
  have heard := (survey_heard { document, index } known 0 bindings).of_ok surveyed
  have still := upright.of_heard heard
  refine .of_eq (bind_of_ok surveyed) ?_
  cases chosen with
  | none => exact .of_ok rfl still
  | some pick =>
    have picked := survey_picks (List.drop_zero (l := bindings)) surveyed pick rfl
    have within := (kept event found).1
    refine (openAt_ends still.steady picked within).mono ?_
    rintro _ after ⟨steady, -, opened⟩
    refine ⟨steady, fun active editing => ?_⟩
    unfold Opened at opened
    split at opened
    · cases opened.1.symm.trans editing
    · cases opened.1.symm.trans editing
      exact ⟨picked, within⟩

theorem visit_upright (upright : Upright bindings document.source pass) :
    Ends bindings (visit bindings { document, index } event) pass
      fun _ after => Upright bindings document.source after := by
  cases mode : pass.mode with
  | searching => exact .of_eq (visit_searching mode) (search_upright quiet kept found upright)
  | editing active =>
    have inside := upright.within active mode
    obtain ⟨⟨started, stopped⟩, between, asked⟩ :=
      askBoth_answers kept (quiet _ (List.mem_of_getElem? inside.known)) pass
    have heard := (askBoth_heard active.position active.binding { document, index }).of_ok asked
    have still := upright.of_heard heard
    refine .of_eq ((visit_editing mode).trans (bind_of_ok asked)) ?_
    cases stopped with
    | true =>
      refine (handOver_upright still.steady inside.known (inside.stoppedAt_within event)).bind ?_
      exact fun _ closed uprightClosed => search_upright quiet kept found uprightClosed
    | false =>
      have ready := still.steady.ready
      obtain ⟨steady, -⟩ : Steady bindings document.source { between with
          mode := .editing { active with rest := active.rest ++ [event] } } ∧ _ :=
        still.steady.of_silent .nil (List.append_nil _).symm rfl ready.anchored ready.free
      refine .of_ok_unit (modify_run ..) ⟨steady, fun longer editing => ?_⟩
      cases editing
      exact inside.snoc (kept event found).1

end

variable (valid : document.Valid) (quiet : ∀ binding ∈ bindings, binding.Quiet document)
include valid

/-- On a valid document an open region of the document lies within the source. -/
theorem Sound.upright (sound : Sound bindings document pass) : Upright bindings document.source pass :=
  ⟨sound.steady, fun active editing =>
    ⟨(sound.held active editing).known, (sound.held active editing).furthestStop_within valid⟩⟩

include quiet

/-- The events come to their end by moves, unless a callback fails. -/
theorem events_ends (there : document.events.drop index = rest) (sound : Sound bindings document pass) :
    Ends bindings (events bindings document rest index) pass fun _ after =>
      Moves bindings document pass after := by
  induction rest generalizing pass index with
  | nil => exact .of_ok_unit rfl .refl
  | cons event rest ih =>
    obtain ⟨found, later⟩ := next_of_drop there
    -- What the first event leaves is sound because it was left by moves.
    refine (visit_upright quiet (valid.kept index) found (sound.upright valid)).tells_run.bind ?_
    rintro _ between visited
    have moved := visit_moves found visited
    refine .after_check valid (index + 1) ?_
    exact (ih later (moved.keeps_sound valid sound)).mono fun _ _ goes => moved.trans goes

omit quiet

/-- What is left after the events comes to its end, unless a callback fails or an open region is refused. -/
theorem finish_ends {policy : Policy} (sound : Sound bindings document pass)
    (accepted : policy = .fail → pass.mode = .searching) :
    Ends bindings (finish policy document.source) pass fun _ after =>
      ∀ found ∈ after.journal.handed, found.2.Fits document := by
  cases mode : pass.mode with
  | searching =>
    obtain ⟨writer, copied, -⟩ := sound.steady.copyTo_within (Nat.le_refl _)
    have finished := (@finish_searching_eq_ok _ _ _ () policy _ mode).mpr ⟨writer, copied, rfl⟩
    exact .of_ok_unit finished sound.handed_fits
  | editing active =>
    cases policy with
    | fail => cases mode.symm.trans (accepted rfl)
    | handOver =>
      have held := sound.held active mode
      have noted : Sound bindings document (pass.unstopped active document.source) := sound.unstopped_sound
      refine .of_eq (finish_editing mode) ?_
      refine (handOver_sound noted held.known (held.unstopped_fits valid)).bind ?_
      intro _ closed soundClosed
      obtain ⟨writer, copied, -⟩ := soundClosed.steady.copyTo_within (Nat.le_refl _)
      exact .of_ok_unit (copying_eq_ok.mpr ⟨writer, copied, rfl⟩) soundClosed.handed_fits

end Pass

variable {policy : Policy} {memory : Memory World}

/-- A pass that meets no fault of its checks or callbacks ends well, or it refuses an open region. -/
theorem emend_ends (valid : document.Valid) (quiet : ∀ binding ∈ bindings, binding.Quiet document)
    (calm : (emend bindings document policy memory).journal.Calm bindings) :
    let outcome := emend bindings document policy memory
    ((∃ emended, outcome.answer = .ok emended) ∨ policy = .fail ∧ ∃ (index : Nat) (opening : Event),
      document.events[index]? = some opening ∧
      outcome.answer = .error (.unterminated index opening.start document.source.length)) ∧
    ∀ found ∈ outcome.journal.handed, found.2.Fits document := by
  intro outcome
  have ends : Pass.Ends bindings (Pass.events bindings document document.events 0)
      (Pass.begun memory document) fun _ after => Pass.Moves bindings document _ after :=
    Pass.events_ends valid quiet List.drop_zero (.of_begun memory document)
  cases ran : Pass.events bindings document document.events 0 (Pass.begun memory document) with
  | error fault failed =>
    have same : outcome = _ := Pass.emend_of_events_error (valid.kept 0) ran
    have journal : outcome.journal = failed.journal := by rw [same]
    exact absurd (ends.raised_of_error ran) (journal ▸ calm).not_raised
  | ok nothing between =>
    have sound := (ends.described_of_ok ran).keeps_sound valid (.of_begun memory document)
    have same : outcome = _ := Pass.emend_of_events_ok (valid.kept 0) ran
    by_cases accepted : policy = .fail → between.mode = .searching
    · have finishes := Pass.finish_ends valid sound accepted
      cases finished : Pass.finish policy document.source between with
      | error fault failed =>
        rw [finished] at same
        have journal : outcome.journal = failed.journal := by rw [same]
        exact absurd (finishes.raised_of_error finished) (journal ▸ calm).not_raised
      | ok nothing after =>
        rw [finished] at same
        rw [same]
        exact ⟨.inl ⟨_, rfl⟩, finishes.described_of_ok finished⟩
    · obtain ⟨rfl, still⟩ := Classical.not_imp.mp accepted
      cases mode : between.mode with
      | searching => exact absurd mode still
      | editing active =>
        rw [Pass.finish_refuses mode] at same
        rw [same]
        have held := sound.held active mode
        exact ⟨.inr ⟨rfl, active.index, active.opening, held.opening, rfl⟩, sound.handed_fits⟩

/-- A pass over a valid document raises nothing of its own, whatever state its matchers are in. If no check
and no callback fails, it gives a text; only where the policy says so it refuses instead the one region that
is still open at the end. Every region that it hands over has events of the document and a span that can be
built from its ends, and every line that a matcher may ask for is there. -/
theorem emend_answers (valid : document.Valid) (quiet : ∀ binding ∈ bindings, binding.Quiet document)
    (calm : (emend bindings document policy memory).journal.Calm bindings) :
    let outcome := emend bindings document policy memory
    ((∃ emended, outcome.answer = .ok emended) ∨ policy = .fail ∧ ∃ (index : Nat) (opening : Event),
      document.events[index]? = some opening ∧
      outcome.answer = .error (.unterminated index opening.start document.source.length)) ∧
    (∀ found ∈ outcome.journal.handed, found.2.Fits document) ∧
    ∀ event ∈ document.events, ∀ offset ∈ [(event.start : Int), max (event.start : Int) (event.stop - 1)],
      ∃ line, document.lineAt offset = .ok line := by
  intro outcome
  obtain ⟨ended, fits⟩ := emend_ends valid quiet calm
  refine ⟨ended, fits, fun event member offset asked => ?_⟩
  have first : (0 : Int) ≤ event.start := Int.natCast_nonneg _
  have bounds : 0 ≤ offset ∧ offset ≤ max (event.start : Int) (event.stop - 1) := by
    rcases List.mem_pair.mp asked with rfl | rfl <;> omega
  exact ⟨_, Matcher.lineAt_of_within (valid.within event member) bounds.1 bounds.2⟩

def threeLines : Document where
  source := ['a', '\n', 'b', '\n', 'c']
  events := [
    { kind := .rule, span := .reach 0 1 },
    { kind := .rule, span := .reach 2 3 },
    { kind := .rule, span := .reach 4 5 }]

/-- Regions that begin on a new line. Only a heading would stop them. -/
def newline : Binding Unit where
  start := .nextLine 0 .always
  stop := some (.oneShot 1 (.heading none))
  callback := fun _ => .done

/-- The second line opens a region that nothing stops. It is a region of the document, and it goes to the
callback or is refused as the policy says. -/
theorem newline_answers :
    (∃ emended, (emend [newline] threeLines .handOver { world := () }).answer = .ok emended) ∧
    (∀ found ∈ (emend [newline] threeLines .handOver { world := () }).journal.handed,
      found.2.Fits threeLines) ∧
    ∃ opening, threeLines.events[1]? = some opening ∧
      (emend [newline] threeLines .fail { world := () }).answer =
        .error (.unterminated 1 opening.start 5) := by
  have valid : threeLines.Valid := ⟨by decide, by decide⟩
  have quiet : ∀ binding ∈ [newline], binding.Quiet threeLines := by
    intro binding member
    cases List.mem_singleton.mp member
    exact ⟨trivial, fun stop given => Option.mem_some_iff.mp given ▸ trivial⟩
  have calm (policy : Policy) :
      (emend [newline] threeLines policy { world := () }).journal.Calm [newline] := by
    intro position region writer binding world handed known
    cases List.mem_singleton.mp (List.mem_of_getElem? known)
    exact ⟨_, rfl⟩
  obtain ⟨given, fits, -⟩ := @emend_answers _ _ _ .handOver { world := () } valid quiet (calm .handOver)
  obtain ⟨refused, -, -⟩ := @emend_answers _ _ _ .fail { world := () } valid quiet (calm .fail)
  have answer : (emend [newline] threeLines .fail { world := () }).answer =
      .error (.unterminated 1 2 5) := by
    cbv
  refine ⟨given.resolve_right (by simp), fits, ?_⟩
  rcases refused with ⟨emended, accepted⟩ | ⟨-, index, opening, found, refusal⟩
  · cases answer.symm.trans accepted
  · have same := answer.symm.trans refusal
    simp only [Except.error.injEq, Fault.unterminated.injEq] at same
    obtain rfl : 1 = index := Int.ofNat_inj.mp same.1
    exact ⟨opening, found, refusal⟩

end Emend
