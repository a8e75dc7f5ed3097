import Emend.Proofs.Edit.Output
import Emend.Proofs.Edit.Progress

/-! Passes that lose nothing. A callback that copies its region to the end, and drops nothing on the way,
leaves the writer with all of the source that it has passed, once and in order. Between two turns the pass
only copies. So the whole source comes out, wherever regions overlap, end early or are left open, and apart
from it only what the callbacks added. -/
namespace Emend
variable {World : Type} {adds : Text → Prop} {bindings : List (Binding World)} {document : Document}

def Part.isCopied : Part → Bool
  | copied _ => true
  | inserted _ => false

/-- The text of an output from which all that was added is removed. -/
def copiedText (source : Text) (parts : List Part) : Text :=
  (parts.filter Part.isCopied).flatMap (·.text source)

private theorem copiedText_append (source : Text) (parts others : List Part) :
    copiedText source (parts ++ others) = copiedText source parts ++ copiedText source others := by
  simp only [copiedText, List.filter_append, List.flatMap_append]

private theorem copiedText_copied (source : Text) (span : Span) :
    copiedText source [.copied span] = span.text source :=
  List.append_nil _

/-- What was added leaves no trace if it is empty. -/
theorem copiedText_of_empty {source : Text} {parts : List Part}
    (empty : ∀ text, .inserted text ∈ parts → text = []) :
    copiedText source parts = parts.flatMap (·.text source) := by
  induction parts with
  | nil => rfl
  | cons part rest ih =>
    have others := ih fun text member => empty text (List.mem_cons_of_mem _ member)
    cases part with
    | copied span => exact congrArg ((Part.copied span).text source ++ ·) others
    | inserted text =>
      obtain rfl := empty text List.mem_cons_self
      exact others

namespace Writer
variable {writer after : Writer}

/-- The source that the writer has passed is out, once and in order, and what was added is something that
might be. -/
structure Whole (adds : Text → Prop) (writer : Writer) : Prop where
  copied : copiedText writer.source writer.parts = writer.source.take writer.reached
  inserted : ∀ text, .inserted text ∈ writer.parts → adds text

/-- A bound has nothing to do with it. -/
theorem Whole.rebound_whole (whole : writer.Whole adds) (bound : Option Nat) :
    ({ writer with bound } : Writer).Whole adds :=
  ⟨whole.copied, whole.inserted⟩

private theorem Whole.copyTo_whole {offset : Int} (whole : writer.Whole adds)
    (moved : writer.copyTo offset = .ok after) :
    after.Whole adds := by
  obtain ⟨target, -, rfl⟩ := map_eq_ok.mp moved
  by_cases behind : target ≤ writer.reached
  · rw [if_pos behind]
    exact whole
  · rw [if_neg behind]
    have ahead : writer.reached ≤ target := Nat.le_of_not_le behind
    refine ⟨?_, fun text member => whole.inserted text (by simpa using member)⟩
    have slice : (Span.reach writer.reached target).text writer.source =
        (writer.source.drop writer.reached).take (target - writer.reached) := by
      simp only [Span.text, Span.reach, Text.slice, Nat.max_eq_right ahead]
    rw [copiedText_append, copiedText_copied, whole.copied, slice, ← List.take_add,
      Nat.add_sub_cancel' ahead]

private theorem Whole.insert_whole {text : Text} (whole : writer.Whole adds) (allowed : adds text) :
    (writer.insert text).Whole adds := by
  unfold Writer.insert
  by_cases empty : text.isEmpty = true
  · rw [if_pos empty]
    exact whole
  · rw [if_neg empty]
    refine ⟨?_, fun other member => ?_⟩
    · rw [copiedText_append, whole.copied]
      exact List.append_nil _
    rcases List.mem_append.mp member with member | member
    · exact whole.inserted other member
    · cases List.mem_singleton.mp member
      exact allowed

/-- There is nothing to drop before the offset that was reached. -/
theorem dropTo_reached {stop : Int} (reached : stop ≤ writer.reached)
    (dropped : writer.dropTo stop = .ok after) : after = writer := by
  obtain ⟨target, passed, rfl⟩ := map_eq_ok.mp dropped
  have same := (check_eq_ok.mp passed).1
  have behind : max writer.reached target = writer.reached := by omega
  rw [behind]

end Writer

namespace Script

/-- Run from this desk, the script copies, adds what it may, and looks around. A part under a bound has
copied up to that bound when it ends. -/
def Copying (adds : Text → Prop) : Script World → Desk World → Prop
  | done, _ | fail _, _ => True
  | look next, desk => (next desk.writer desk.world).Copying adds desk
  | tell change next, desk => next.Copying adds { desk with world := change desk.world }
  | act (.copyTo offset) next, desk => ∀ writer, desk.writer.copyTo offset = .ok writer →
      next.Copying adds { desk with writer }
  | act (.insert text) next, desk =>
      adds text ∧ next.Copying adds { desk with writer := desk.writer.insert text }
  | act _ _, _ => False
  | bounded stop body next, desk => ∀ inner, desk.writer.enter stop = .ok inner →
      body.Copying adds { desk with writer := inner } ∧
      ∀ left, body.run { desk with writer := inner } = .ok () left → stop ≤ left.writer.reached ∧
        next.Copying adds { left with writer := { left.writer with bound := desk.writer.bound } }
  | rescue body recover next, desk => body.Copying adds desk ∧
      match body.run desk with
      | .ok () after => next.Copying adds after
      | .error fault after => (recover fault).Copying adds after ∧
          ∀ left, (recover fault).run after = .ok () left → next.Copying adds left

private theorem run_whole {script : Script World} {desk : Desk World} (copying : script.Copying adds desk)
    (whole : desk.writer.Whole adds) : (stateOf (script.run desk)).writer.Whole adds := by
  induction script generalizing desk with
  | done | fail => exact whole
  | look next ih => exact ih _ _ copying whole
  | tell change next ih => exact ih copying whole
  | act operation next ih =>
    cases operation with
    | dropTo | replace | delete => exact copying.elim
    | insert text => exact ih copying.2 (whole.insert_whole copying.1)
    | copyTo offset =>
      simp only [run, Bind.bind, EStateM.bind, onWriter, Writer.perform, Writer.perform.step]
      cases moved : desk.writer.copyTo offset with
      | error fault => exact whole
      | ok writer => exact ih (copying writer moved) (whole.copyTo_whole moved)
  | bounded stop body next ihBody ih =>
    simp only [run]
    cases entered : desk.writer.enter stop with
    | error fault => exact whole
    | ok inner =>
      obtain ⟨within, goes⟩ := copying inner entered
      have rebound : inner.Whole adds := by
        obtain ⟨_, -, -, -, rfl⟩ := Writer.enter_eq_ok.mp entered
        exact whole.rebound_whole _
      have kept := ihBody within rebound
      dsimp only
      cases ran : body.run { desk with writer := inner } with
      | error fault left =>
        rw [ran] at kept
        exact kept.rebound_whole _
      | ok nothing left =>
        rw [ran] at kept
        -- The body has come up to the stop, so that leaving the bound drops nothing.
        obtain ⟨enough, later⟩ := goes left ran
        have back := kept.rebound_whole desk.writer.bound
        have reached : stop ≤ ({ left.writer with bound := desk.writer.bound } : Writer).reached := enough
        simp only [onWriter, Writer.perform, Writer.perform.step]
        cases dropped : ({ left.writer with bound := desk.writer.bound } : Writer).dropTo stop with
        | error fault => exact back
        | ok after =>
          obtain rfl := Writer.dropTo_reached reached dropped
          exact ih later back
  | rescue body recover next ihBody ihRecover ih =>
    rw [Copying] at copying
    obtain ⟨first, goes⟩ := copying
    have kept := ihBody first whole
    simp only [run]
    cases ran : body.run desk with
    | ok nothing after =>
      rw [ran] at goes kept
      exact ih goes kept
    | error fault after =>
      rw [ran] at goes kept
      have recovered := ihRecover fault goes.1 kept
      dsimp only
      cases again : (recover fault).run after with
      | ok nothing left =>
        rw [again] at recovered
        exact ih (goes.2 left again) recovered
      | error fault left =>
        rw [again] at recovered
        exact recovered

/-- The script only copies and adds, and when it ends it has copied up to an offset. -/
def CopiesTo (adds : Text → Prop) (stop : Nat) (script : Script World) (desk : Desk World) : Prop :=
  script.Copying adds desk ∧ ∀ left, script.run desk = .ok () left → stop ≤ left.writer.reached

namespace CopiesTo
variable {stop : Nat} {desk : Desk World} {text : Text}

private theorem copyTo_copies : (once (.copyTo stop) : Script World).CopiesTo adds stop desk := by
  refine ⟨fun _ _ => trivial, fun left ran => ?_⟩
  obtain ⟨writer, copied, rfl⟩ := once_copyTo_eq_ok.mp ran
  obtain ⟨-, -, reached, -⟩ := Writer.copyTo_output copied
  exact reached ▸ Nat.le_max_right ..

private theorem insert_copies {next : Script World} (allowed : adds text)
    (copies : next.CopiesTo adds stop { desk with writer := desk.writer.insert text }) :
    (act (.insert text) next).CopiesTo adds stop desk :=
  ⟨⟨allowed, copies.1⟩, copies.2⟩

/-- A part under a bound that copies up to it may stand in the place of the copying. -/
theorem bounded_copies {body : Script World} (copies : ∀ inner, desk.writer.enter stop = .ok inner →
    body.CopiesTo adds stop { desk with writer := inner }) :
    (Script.bounded stop body done).CopiesTo adds stop desk := by
  refine ⟨fun inner entered => ⟨(copies inner entered).1, fun left ran => ?_⟩, fun after ran => ?_⟩
  · exact ⟨Int.ofNat_le.mpr ((copies inner entered).2 left ran), trivial⟩
  · obtain ⟨inner, left, dropped, entered, copied, fell, rfl⟩ := bounded_eq_ok.mp ran
    exact Nat.le_trans ((copies inner entered).2 left copied) (Writer.dropTo_advances fell).forward

end CopiesTo
end Script

/-- Every callback copies the region that it was handed to the end. -/
def Journal.Faithful (bindings : List (Binding World)) (adds : Text → Prop) (journal : Journal) : Prop :=
  journal.EachTurn bindings fun region script desk => script.CopiesTo adds region.span.stop desk

namespace Pass
variable {pass after : Pass World} {active : Active World} {region : Region} {nothing : Unit}

private theorem handOver_whole (known : bindings[active.position]? = some active.binding)
    (ran : handOver active region pass = .ok nothing after)
    (faithful : after.journal.Faithful bindings adds) (whole : pass.writer.Whole adds) :
    after.writer.Whole adds := by
  obtain ⟨inner, left, dropped, entered, calledBack, fell, rfl⟩ := handOver_eq_ok.mp ran
  obtain ⟨copying, copied⟩ := faithful active.position region inner active.binding pass.memory.world
    (by simp [served]) known
  have rebound : inner.Whole adds := by
    obtain ⟨_, -, -, -, rfl⟩ := Writer.enter_eq_ok.mp entered
    exact whole.rebound_whole _
  have kept := Script.run_whole copying rebound
  rw [calledBack] at kept
  have reached : (region.span.stop : Int) ≤
      ({ left.writer with bound := pass.writer.bound } : Writer).reached :=
    Int.ofNat_le.mpr (copied left calledBack)
  obtain rfl := Writer.dropTo_reached reached fell
  exact kept.rebound_whole _

/-- A move leaves nothing out. -/
theorem Move.writer_whole (move : Move bindings document pass after) (sound : Sound bindings document pass)
    (faithful : after.journal.Faithful bindings adds) (whole : pass.writer.Whole adds) :
    after.writer.Whole adds := by
  cases move with
  | hears heard =>
    rw [heard.writer]
    exact whole
  | opens searching known found copied => exact whole.copyTo_whole copied
  | grows => exact whole
  | hands editing closes handed => exact handOver_whole (sound.held _ editing).known handed faithful whole

private theorem Moves.writer_whole (valid : document.Valid) (moves : Moves bindings document pass after)
    (sound : Sound bindings document pass) (faithful : after.journal.Faithful bindings adds)
    (whole : pass.writer.Whole adds) : after.writer.Whole adds := by
  induction moves with
  | refl => exact whole
  | tail earlier last ih =>
    obtain ⟨notes, journal⟩ := last.journal_grows
    have before := ih (Journal.EachTurn.of_append (journal ▸ faithful))
    exact last.writer_whole (Moves.keeps_sound valid earlier sound) faithful before

/-- At the end the writer has passed the whole source and has still left nothing out. -/
theorem finish_whole {policy : Policy} (valid : document.Valid) (sound : Sound bindings document pass)
    (ran : finish policy document.source pass = .ok nothing after)
    (faithful : after.journal.Faithful bindings adds) (whole : pass.writer.Whole adds) :
    after.writer.Whole adds ∧ after.writer.source = document.source ∧
      document.source.length ≤ after.writer.reached := by
  have completes {writer left : Writer} (whole : writer.Whole adds)
      (anchored : writer.source = document.source)
      (copied : writer.copyTo document.source.length = .ok left) :
      left.Whole adds ∧ left.source = document.source ∧ document.source.length ≤ left.reached := by
    obtain ⟨source, -, reached, -⟩ := Writer.copyTo_output copied
    exact ⟨whole.copyTo_whole copied, source.trans anchored, reached ▸ Nat.le_max_right ..⟩
  cases mode : pass.mode with
  | searching =>
    obtain ⟨writer, copied, rfl⟩ := (finish_searching_eq_ok mode).mp ran
    exact completes whole sound.steady.ready.anchored copied
  | editing active =>
    obtain ⟨-, closed, writer, handed, copied, rfl⟩ := (finish_editing_eq_ok mode).mp ran
    have held := sound.held active mode
    have noted : Sound bindings document (pass.unstopped active document.source) := sound.unstopped_sound
    have soundClosed :=
      (handOver_sound noted held.known (held.unstopped_fits valid)).described_of_ok handed
    have wholeClosed := handOver_whole held.known handed faithful whole
    exact completes wholeClosed soundClosed.steady.ready.anchored copied

end Pass

variable {policy : Policy} {memory : Memory World}

/-- If the callbacks only copy and add, and each has copied its region to the end when it is done, then the
output from which all additions are removed is the source: nothing is lost and nothing comes out twice. So
the text is the source if nothing is added. And there is a text, if no check and no callback fails, also
where the last region was left open. -/
theorem emended_copies_source (valid : document.Valid)
    (faithful : (emend bindings document policy memory).journal.Faithful bindings adds) :
    let outcome := emend bindings document policy memory
    (∀ emended, outcome.answer = .ok emended → ∃ pass,
      Pass.all bindings document policy (Pass.begun memory document) = .ok emended pass ∧
      emended.text = pass.writer.parts.flatMap (·.text document.source) ∧
      copiedText document.source pass.writer.parts = document.source ∧
      (∀ text, .inserted text ∈ pass.writer.parts → adds text) ∧
      ((∀ text, adds text → text = []) → emended.text = document.source)) ∧
    (policy = .handOver → (∀ binding ∈ bindings, binding.Quiet document) → outcome.journal.Calm bindings →
      ∃ emended, outcome.answer = .ok emended) := by
  intro outcome
  refine ⟨fun emended answer => ?_, fun handsOver quiet calm => ?_⟩
  · obtain ⟨pass, all, same⟩ := Pass.emend_eq_ok.mp answer
    obtain ⟨between, -, events, finished, rfl⟩ := Pass.all_eq_ok.mp all
    have journal : outcome.journal = pass.journal := congrArg Outcome.journal same
    have faithfulPass : pass.journal.Faithful bindings adds := journal ▸ faithful
    have moves := Pass.events_moves List.drop_zero events
    have sound := moves.keeps_sound valid (.of_begun memory document)
    obtain ⟨notes, later⟩ := Pass.finish_journal finished
    have begun : (Pass.begun memory document).writer.Whole adds := ⟨rfl, by simp [Pass.begun]⟩
    have wholeBetween := moves.writer_whole valid (.of_begun memory document)
      (Journal.EachTurn.of_append (later ▸ faithfulPass)) begun
    obtain ⟨whole, source, reached⟩ := Pass.finish_whole valid sound finished faithfulPass wholeBetween
    have copied := whole.copied
    rw [source, List.take_of_length_le reached] at copied
    have text : pass.writer.output = pass.writer.parts.flatMap (·.text document.source) := by
      rw [Writer.output, source]
    refine ⟨pass, all, text, copied, whole.inserted, fun nothing => ?_⟩
    rw [text, ← copiedText_of_empty fun added member => nothing added (whole.inserted added member), copied]
  · exact (emend_ends valid quiet calm).1.resolve_right (by simp [handsOver])

/-- A mark before the first event, and all that follows as it is. -/
def marked : List (Binding Unit) := [
  { start := .oneShot 0 .always
    stop := none
    callback := fun region => .act (.insert ['|'])
      (.bounded region.span.stop (.once (.copyTo region.span.stop)) .done) },
  { start := .always
    stop := some (.oneShot 1 (.heading none))
    callback := fun region => .once (.copyTo region.span.stop) }]

/-- The second event lies in the source of the first, which is out by then. Its region is left open and
copies what is left. -/
theorem marked_copies_source : ∃ pass region,
    Pass.all marked nested .handOver (Pass.begun { world := () } nested) = .ok {
      text := ['|', 'a', 'b', 'c', 'd', 'e', 'f'], regions := 2, unterminated := [region] } pass ∧
    copiedText nested.source pass.writer.parts = nested.source ∧
    ∀ text, .inserted text ∈ pass.writer.parts → text = ['|'] := by
  have valid : nested.Valid := ⟨by decide, by decide⟩
  have faithful : (emend marked nested .handOver { world := () }).journal.Faithful marked (· = ['|']) := by
    intro position region writer binding world handed known
    rcases List.mem_pair.mp (List.mem_of_getElem? known) with rfl | rfl
    · exact .insert_copies rfl (.bounded_copies fun _ _ => .copyTo_copies)
    · exact .copyTo_copies
  let region : Region := {
    source := nested.source
    opening := nested.events[1]
    rest := nested.events.drop 2
    span := .reach 1 6
    firstIndex := 1
    terminated := false }
  have ran : (emend marked nested .handOver { world := () }).answer = .ok {
      text := ['|', 'a', 'b', 'c', 'd', 'e', 'f'], regions := 2, unterminated := [region] } := by
    cbv
  obtain ⟨pass, all, -, copied, added, -⟩ := (emended_copies_source valid faithful).1 _ ran
  exact ⟨pass, region, all, copied, added⟩

end Emend
