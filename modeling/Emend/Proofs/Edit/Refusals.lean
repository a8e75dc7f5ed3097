import Emend.Proofs.Edit.Accounting

/-! What a refused operation leaves behind. A writer checks an offset before it moves there, so an operation
that moves to one offset only, and the entry of a block, have done nothing if they are refused. An operation
on a span has two offsets to move to. If it may move to the start of its span but not to the end, it has put
out what comes before the end by the time it is refused, and that stays. -/
namespace Emend
variable {World : Type}

namespace Operation

/-- The offsets that the operation moves to, in order. -/
def targets : Operation → List Int
  | copyTo offset | dropTo offset => [offset]
  | insert _ => []
  | replace span _ | delete span => [span.start, span.stop]

/-- The span that the operation is about, if it is about one, and the text that takes its place. -/
def patch : Operation → Option (Span × Text)
  | replace span text => some (span, text)
  | delete span => some (span, [])
  | copyTo _ | dropTo _ | insert _ => none

end Operation

namespace Writer
variable {writer copied after left : Writer} {offset : Int} {span : Span} {text : Text} {fault : Fault}

/-- The writer may move to the offset: it lies in the source and not past the limit. -/
def Allows (writer : Writer) (offset : Int) : Prop :=
  0 ≤ offset ∧ offset ≤ writer.source.length ∧ offset ≤ writer.limit

/-- The fault of an offset that the writer may not move to. -/
def refusal (writer : Writer) (offset : Int) : Fault :=
  if 0 ≤ offset ∧ offset ≤ writer.source.length then .pastRegion offset writer.limit
  else .outsideSource "offset" offset offset writer.source.length

theorem check_allowed (allowed : writer.Allows offset) : writer.check offset = .ok offset.toNat := by
  obtain ⟨first, within, limited⟩ := allowed
  refine check_eq_ok.mpr ⟨(Int.toNat_of_nonneg first).symm, ?_, ?_⟩ <;> omega

theorem check_refused (refused : ¬ writer.Allows offset) :
    writer.check offset = .error (writer.refusal offset) := by
  unfold Allows limit at refused
  unfold check refusal limit
  by_cases outside : offset < 0 ∨ writer.source.length < offset
  · rw [if_pos outside, if_neg (by omega)]
  rw [if_neg outside, if_pos (by omega)]
  cases held : writer.bound with
  | none =>
    rw [held, Option.getD_none] at refused
    exact absurd ⟨by omega, by omega, by omega⟩ refused
  | some bound =>
    rw [held, Option.getD_some] at refused
    exact if_pos (by omega)

/-- Where a writer may move to is a matter of its source and its bound. -/
private theorem check_congr (source : after.source = writer.source) (bound : after.bound = writer.bound) :
    after.check = writer.check := by
  funext offset
  simp only [check, source, bound]

private theorem step_ok {move : Writer → Except Fault Writer} (moves : move writer = .ok after) :
    perform.step move writer = .ok () after := by
  simp only [perform.step, moves]

private theorem step_error {move : Writer → Except Fault Writer} (refused : move writer = .error fault) :
    perform.step move writer = .error fault writer := by
  simp only [perform.step, refused]

/-- The writer may move to the start of the operation's span but not to its end. -/
structure CutsShort (writer : Writer) (operation : Operation) (span : Span) (text : Text) : Prop where
  patch : operation.patch = some (span, text)
  begins : writer.Allows span.start
  ends : ¬ writer.Allows span.stop

/-- How an operation that was refused with a fault leaves the writer. It is cut short only if it is about a
span, and only then, and if there was something to put out before the span's end, the writer has changed. -/
structure Leaves (writer : Writer) (operation : Operation) (fault : Fault) (left : Writer) : Prop where
  cause : ∃ offset ∈ operation.targets, ¬ writer.Allows offset ∧ fault = writer.refusal offset
  source : left.source = writer.source
  bound : left.bound = writer.bound
  limit : left.limit = writer.limit
  untouched : left = writer ↔ ∀ span text, writer.CutsShort operation span text →
    span.start ≤ writer.reached ∧ text = []
  halfDone : ∀ span text, writer.CutsShort operation span text →
    left.reached = max writer.reached span.start ∧
    left.output = writer.output ++ writer.source.slice writer.reached span.start ++ text

/-- An operation that is refused before it did anything, and that is not cut short, leaves the writer as
it was. -/
theorem Leaves.of_refused_at_once {operation : Operation} (member : offset ∈ operation.targets)
    (refused : ¬ writer.Allows offset)
    (atOnce : ∀ span text, ¬ writer.CutsShort operation span text) :
    writer.Leaves operation (writer.refusal offset) writer where
  cause := ⟨offset, member, refused, rfl⟩
  source := rfl
  bound := rfl
  limit := rfl
  untouched := iff_of_true rfl fun span text cut => (atOnce span text cut).elim
  halfDone := fun span text cut => (atOnce span text cut).elim

/-- An operation of one step is taken or refused, and refused it leaves the writer as it was. -/
theorem step_told {move : Writer → Except Fault Writer} {operation : Operation} {change : Nat → Writer}
    (moves : move writer = (writer.check offset).map change) (target : operation.targets = [offset])
    (plain : operation.patch = none) :
    Meets (perform.step move) writer (fun _ _ => ∀ offset ∈ operation.targets, writer.Allows offset)
      fun fault left => writer.Leaves operation fault left := by
  by_cases allowed : writer.Allows offset
  · rw [check_allowed allowed] at moves
    refine .of_ok (step_ok moves) ?_
    rw [target]
    exact fun other member => List.mem_singleton.mp member ▸ allowed
  · rw [check_refused allowed] at moves
    refine .of_error (step_error moves) (.of_refused_at_once (target ▸ List.mem_singleton_self offset) allowed ?_)
    intro span text cut
    cases plain.symm.trans cut.patch

private theorem insert_reached (writer : Writer) (text : Text) :
    (writer.insert text).reached = writer.reached := by
  unfold insert
  split <;> rfl

theorem insert_eq_self_iff : writer.insert text = writer ↔ text = [] := by
  refine ⟨fun same => ?_, fun empty => by rw [empty]; rfl⟩
  have output := congrArg Writer.output same
  exact List.append_right_eq_self.mp (insert_output writer text ▸ output)

/-- What comes before the end of a span changes nothing exactly if the start of the span was reached before
and there is no text to put in its place. -/
theorem insert_copied_eq_iff (copies : writer.copyTo span.start = .ok copied) :
    copied.insert text = writer ↔ span.start ≤ writer.reached ∧ text = [] := by
  obtain ⟨-, -, reached, -⟩ := copyTo_output copies
  by_cases behind : span.start ≤ writer.reached
  · have same : copied = writer := by
      obtain ⟨target, passed, rfl⟩ := map_eq_ok.mp copies
      exact if_pos (Int.ofNat_inj.mp (check_eq_ok.mp passed).1 ▸ behind)
    rw [same, insert_eq_self_iff, and_iff_right behind]
  · refine iff_of_false (fun same => ?_) fun both => behind both.1
    have stays := congrArg Writer.reached same
    rw [insert_reached, reached] at stays
    omega

/-- Replacing is refused before it did anything, or cut short, or carried out. -/
theorem replace_told (writer : Writer) {operation : Operation}
    (targets : operation.targets = [(span.start : Int), (span.stop : Int)])
    (patch : operation.patch = some (span, text)) :
    Meets (perform (.replace span text)) writer
      (fun _ _ => ∀ offset ∈ operation.targets, writer.Allows offset)
      fun fault left => writer.Leaves operation fault left := by
  by_cases begins : writer.Allows span.start
  · have copies : ∃ copied, writer.copyTo span.start = .ok copied :=
      ⟨_, by rw [copyTo, check_allowed begins]; rfl⟩
    obtain ⟨copied, copies⟩ := copies
    obtain ⟨source, bound, reached, output⟩ := copyTo_output copies
    have inserted := copied.insert_advances text
    have same := check_congr (inserted.source.trans source) (inserted.bound.trans bound)
    refine .of_eq ((bind_of_ok (step_ok copies)).trans (bind_of_ok (modify_run ..))) ?_
    by_cases ends : writer.Allows span.stop
    · refine .of_ok (step_ok (by rw [dropTo, same, check_allowed ends]; rfl)) ?_
      rw [targets]
      intro offset member
      rcases List.mem_cons.mp member with rfl | member
      · exact begins
      · exact List.mem_singleton.mp member ▸ ends
    · refine .of_error (step_error (by rw [dropTo, same, check_refused ends]; rfl)) ?_
      -- The copy and the text are out by now.
      refine ⟨⟨span.stop, by simp [targets], ends, rfl⟩, inserted.source.trans source,
        inserted.bound.trans bound, ?_, ?_, ?_⟩
      · simp only [limit, inserted.bound.trans bound, inserted.source.trans source]
      · rw [insert_copied_eq_iff copies]
        constructor
        · intro nothing other given cut
          cases patch.symm.trans cut.patch
          exact nothing
        · exact fun nothing => nothing span text ⟨patch, begins, ends⟩
      · intro other given cut
        cases patch.symm.trans cut.patch
        refine ⟨(insert_reached ..).trans reached, ?_⟩
        rw [insert_output, output, Part.text, Span.text, Span.reach, Text.slice_max]
  · have refused : writer.copyTo span.start = .error (writer.refusal span.start) := by
      rw [copyTo, check_refused begins]
      rfl
    refine .of_error (bind_of_error (step_error refused)) ?_
    refine .of_refused_at_once (by simp [targets]) begins fun other given cut => ?_
    cases patch.symm.trans cut.patch
    exact begins cut.begins

/-- Deleting is replacing by nothing. -/
theorem perform_delete (span : Span) : perform (.delete span) = perform (.replace span []) :=
  rfl

/-- An operation is carried out only if the writer may move to all its offsets, and otherwise refused. -/
theorem perform_told (operation : Operation) (writer : Writer) :
    Meets (perform operation) writer (fun _ _ => ∀ offset ∈ operation.targets, writer.Allows offset)
      fun fault left => writer.Leaves operation fault left := by
  cases operation with
  | copyTo offset => exact step_told rfl rfl rfl
  | dropTo offset => exact step_told rfl rfl rfl
  | insert text => exact .of_ok (modify_run ..) fun offset member => nomatch member
  | replace span text => exact replace_told writer rfl rfl
  | delete span =>
    rw [perform_delete]
    exact replace_told writer rfl rfl

end Writer

namespace Script

/-- A single operation does at the desk what it does to the writer. -/
theorem once_run (operation : Operation) (desk : Desk World) : (once operation).run desk =
    match Writer.perform operation desk.writer with
    | .ok () writer => .ok () { desk with writer }
    | .error fault writer => .error fault { desk with writer } := by
  simp only [once, run, onWriter, bind, EStateM.bind]
  cases Writer.perform operation desk.writer <;> rfl

/-- An operation is carried out if the writer may move to all its offsets. Otherwise it is refused, with the
fault of an offset that it may not move to, and it leaves the source, the bound and the limit as they were.
The writer is what it was, parts and all, unless the operation is about a span to whose start the writer may
move: then what comes before the end of the span is out. A block is entered if its end may be moved to, and
otherwise the refusal changes nothing. -/
theorem refusals_told (writer : Writer) (world : World) :
    (∀ operation, match (once operation).run { writer, world } with
      | .ok () _ => ∀ offset ∈ operation.targets, writer.Allows offset
      | .error fault left => left.world = world ∧ writer.Leaves operation fault left.writer) ∧
    ∀ stop, match writer.enter stop with
      | .ok _ => writer.Allows stop
      | .error fault => ¬ writer.Allows stop ∧ fault = writer.refusal stop ∧
          ∀ body next, (bounded stop body next).run { writer, world } = .error fault { writer, world } := by
  constructor
  · intro operation
    have told := writer.perform_told operation
    rw [once_run]
    unfold Meets at told
    cases ran : Writer.perform operation writer with
    | ok nothing moved =>
      rw [ran] at told
      exact told
    | error fault left =>
      rw [ran] at told
      exact ⟨rfl, told⟩
  · intro stop
    by_cases allowed : writer.Allows stop
    · rw [Writer.enter, Writer.check_allowed allowed]
      exact allowed
    · have refused : writer.enter stop = .error (writer.refusal stop) := by
        rw [Writer.enter, Writer.check_refused allowed]
        rfl
      rw [refused]
      refine ⟨allowed, rfl, fun body next => ?_⟩
      simp only [run, refused]

/-- In a block up to offset 3 a span from 1 to 5 is cut short. It is refused, with the source before it and
the new text out. -/
theorem overhanging_replace_changes : ∃ inner left,
    ({ source := ['a', 'b', 'c', 'd', 'e', 'f'] } : Writer).enter 3 = .ok inner ∧
    Writer.perform (.replace (.reach 1 5) ['X']) inner = .error (.pastRegion 5 3) left ∧
    (inner.reached, inner.output) = (0, []) ∧ (left.reached, left.output) = (1, ['a', 'X']) :=
  ⟨_, _, rfl, rfl, rfl, rfl⟩

end Script
end Emend
