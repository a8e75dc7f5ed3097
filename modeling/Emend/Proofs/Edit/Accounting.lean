import Emend.Edit.Script
import Emend.Proofs.Computation

/-! What becomes of the source under a writer. Whatever a script does, and however it ends, the writer
only moves forward, past neither the end of the source nor its bound, and what it copies on the way are
slices that follow one another. So no character of the source comes out twice. -/
namespace Emend

/-- The copied parts are slices of the source between two offsets. None is empty, and each starts where
the one before it ended or later. -/
def Ascending (low high : Nat) : List Part → Prop
  | [] => True
  | .inserted _ :: rest => Ascending low high rest
  | .copied span :: rest =>
    low ≤ span.start ∧ span.start < span.stop ∧ span.stop ≤ high ∧ Ascending span.stop high rest

namespace Ascending
variable {low high middle : Nat} {parts others : List Part}

theorem mono_bounds {wider higher : Nat} (ascending : Ascending low high parts) (lower : wider ≤ low)
    (raised : high ≤ higher) : Ascending wider higher parts := by
  induction parts generalizing low wider with
  | nil => trivial
  | cons part rest ih =>
    cases part with
    | inserted text => exact ih ascending lower
    | copied span =>
      obtain ⟨begins, nonempty, ends, later⟩ := ascending
      exact ⟨by omega, nonempty, by omega, ih later (Nat.le_refl _)⟩

theorem append (first : Ascending low middle parts) (second : Ascending middle high others)
    (lower : low ≤ middle) (upper : middle ≤ high) : Ascending low high (parts ++ others) := by
  induction parts generalizing low with
  | nil => exact second.mono_bounds lower (Nat.le_refl _)
  | cons part rest ih =>
    cases part with
    | inserted text => exact ih first lower
    | copied span =>
      obtain ⟨begins, nonempty, ends, later⟩ := first
      exact ⟨begins, nonempty, by omega, ih later ends⟩

/-- Where the lower offset is past the upper one there is nothing to copy, so the upper one may be taken
for the further of both. -/
theorem of_le_max {bottom further : Nat} (ascending : Ascending low further parts)
    (capped : further ≤ max bottom high) (above : bottom ≤ low) : Ascending low high parts := by
  induction parts generalizing low with
  | nil => trivial
  | cons part rest ih =>
    cases part with
    | inserted text => exact ih ascending above
    | copied span =>
      obtain ⟨begins, nonempty, ends, later⟩ := ascending
      exact ⟨begins, nonempty, by omega, ih later (by omega)⟩

end Ascending

namespace Writer
variable {writer before after between : Writer} {offset stop : Int} {target : Nat} {text : Text}

/-- A writer that has moved on: its source and its bound are what they were, it has passed no offset
that it was not allowed to, and what it added to the output copies only what it passed. -/
structure Advances (before after : Writer) : Prop where
  source : after.source = before.source
  bound : after.bound = before.bound
  forward : before.reached ≤ after.reached
  limited : after.reached ≤ max before.reached before.limit
  inside : after.reached ≤ max before.reached before.source.length
  added : ∃ added, after.parts = before.parts ++ added ∧
    Ascending before.reached after.reached added

namespace Advances

theorem refl (writer : Writer) : writer.Advances writer :=
  ⟨rfl, rfl, Nat.le_refl _, Nat.le_max_left .., Nat.le_max_left .., [], by simp, trivial⟩

theorem trans (first : before.Advances between) (second : between.Advances after) :
    before.Advances after := by
  have sameLimit : between.limit = before.limit := by
    simp only [limit, first.bound, first.source]
  have limited := second.limited
  have inside := second.inside
  rw [sameLimit] at limited
  rw [first.source] at inside
  obtain ⟨earlier, earlierParts, earlierRuns⟩ := first.added
  obtain ⟨later, laterParts, laterRuns⟩ := second.added
  refine ⟨second.source.trans first.source, second.bound.trans first.bound,
    Nat.le_trans first.forward second.forward, ?_, ?_, earlier ++ later, ?_, ?_⟩
  · have := first.limited
    omega
  · have := first.inside
    omega
  · rw [laterParts, earlierParts, List.append_assoc]
  · exact earlierRuns.append laterRuns first.forward second.forward

end Advances

/-- An offset passes the check exactly when it lies in the source and within the bound. -/
theorem check_eq_ok : writer.check offset = .ok target ↔
    offset = target ∧ target ≤ writer.source.length ∧ target ≤ writer.limit := by
  unfold check limit
  by_cases outside : offset < 0 ∨ writer.source.length < offset
  · simp only [outside, ↓reduceIte, reduceCtorEq, false_iff]
    omega
  rw [if_neg outside]
  cases held : writer.bound with
  | none =>
    simp only [Option.getD_none, Except.ok.injEq]
    omega
  | some bound =>
    simp only [Option.getD_some]
    by_cases past : bound < offset
    · simp only [past, ↓reduceIte, reduceCtorEq, false_iff]
      omega
    · simp only [past, ↓reduceIte, Except.ok.injEq]
      omega

private theorem copyTo_advances (moved : writer.copyTo offset = .ok after) : writer.Advances after := by
  obtain ⟨target, passed, rfl⟩ := map_eq_ok.mp moved
  obtain ⟨rfl, inSource, inBound⟩ := check_eq_ok.mp passed
  by_cases behind : target ≤ writer.reached
  · rw [if_pos behind]
    exact .refl writer
  · rw [if_neg behind]
    have ahead : writer.reached < target := Nat.lt_of_not_le behind
    exact ⟨rfl, rfl, Nat.le_of_lt ahead, Nat.le_trans inBound (Nat.le_max_right ..),
      Nat.le_trans inSource (Nat.le_max_right ..), _, rfl, Nat.le_refl _,
      Nat.lt_of_lt_of_le ahead (Nat.le_max_right ..), Nat.max_le.mpr ⟨Nat.le_of_lt ahead, Nat.le_refl _⟩,
      trivial⟩

theorem dropTo_advances (moved : writer.dropTo offset = .ok after) : writer.Advances after := by
  obtain ⟨target, passed, rfl⟩ := map_eq_ok.mp moved
  obtain ⟨rfl, inSource, inBound⟩ := check_eq_ok.mp passed
  exact ⟨rfl, rfl, Nat.le_max_left .., by simp only; omega, by simp only; omega, [], by simp, trivial⟩

theorem insert_advances (writer : Writer) (text : Text) : writer.Advances (writer.insert text) := by
  unfold insert
  by_cases empty : text.isEmpty = true
  · rw [if_pos empty]
    exact .refl writer
  · rw [if_neg empty]
    exact ⟨rfl, rfl, Nat.le_refl _, Nat.le_max_left .., Nat.le_max_left .., _, rfl, trivial⟩

private theorem step_keeps {move : Writer → Except Fault Writer}
    (advances : ∀ writer after, move writer = .ok after → writer.Advances after) :
    Keeps Advances (perform.step move) := by
  intro writer
  unfold perform.step
  split
  · rename_i moved ran
    exact advances writer moved ran
  · exact .refl writer

/-- No operation moves the writer back, also one that is refused in the middle. -/
theorem perform_keeps (operation : Operation) : Keeps Advances (perform operation) := by
  have copying (offset : Int) : Keeps Advances (perform.step (·.copyTo offset)) :=
    step_keeps fun _ _ => copyTo_advances
  have dropping (offset : Int) : Keeps Advances (perform.step (·.dropTo offset)) :=
    step_keeps fun _ _ => dropTo_advances
  have inserting (text : Text) :
      Keeps Advances (modify (·.insert text) : EStateM Fault Writer Unit) :=
    fun writer => insert_advances writer text
  cases operation with
  | copyTo offset => exact copying offset
  | dropTo offset => exact dropping offset
  | insert text => exact inserting text
  | replace span text =>
    exact (copying span.start).bind .trans fun _ => (inserting text).bind .trans fun _ =>
      dropping span.stop
  | delete span => exact (copying span.start).bind .trans fun _ => dropping span.stop

theorem enter_eq_ok : writer.enter stop = .ok after ↔ ∃ target : Nat, stop = target ∧
    target ≤ writer.source.length ∧ target ≤ writer.limit ∧
      { writer with bound := some target } = after := by
  simp only [enter, map_eq_ok, check_eq_ok, and_assoc]

/-- What was done under a tighter bound counts as done once that bound is taken back. -/
theorem Advances.of_enter {inner : Writer} (entered : writer.enter stop = .ok inner)
    (advanced : inner.Advances after) : writer.Advances { after with bound := writer.bound } := by
  obtain ⟨target, rfl, inSource, inBound, rfl⟩ := enter_eq_ok.mp entered
  refine ⟨advanced.source, rfl, advanced.forward, ?_, advanced.inside, advanced.added⟩
  have limited := advanced.limited
  simp only [limit, Option.getD_some] at limited
  exact Nat.le_trans limited (by omega)

end Writer

namespace Script
variable {World : Type}

theorem onWriter_keeps {work : EStateM Fault Writer Unit} (kept : Keeps Writer.Advances work) :
    Keeps (fun before after : Desk World => before.writer.Advances after.writer) (onWriter work) := by
  intro desk
  have moved := kept desk.writer
  unfold onWriter
  split <;> (rename_i ran; rw [ran] at moved; exact moved)

theorem once_copyTo_eq_ok {desk after : Desk World} {offset : Int} :
    (once (.copyTo offset)).run desk = .ok () after ↔
      ∃ writer, desk.writer.copyTo offset = .ok writer ∧ { desk with writer } = after := by
  simp only [once, run, bind_eq_ok, pure_eq_ok, true_and, exists_eq_right]
  simp only [onWriter, Writer.perform, Writer.perform.step]
  cases desk.writer.copyTo offset <;> simp

/-- A bounded part that ends well has entered its bound, run, and dropped what was left of it. -/
theorem bounded_eq_ok {desk after : Desk World} {stop : Int} {body : Script World} :
    (bounded stop body done).run desk = .ok () after ↔ ∃ inner left dropped,
      desk.writer.enter stop = .ok inner ∧ body.run { desk with writer := inner } = .ok () left ∧
      { left.writer with bound := desk.writer.bound }.dropTo stop = .ok dropped ∧
      { left with writer := dropped } = after := by
  simp only [run, onWriter, Writer.perform, Writer.perform.step]
  cases desk.writer.enter stop with
  | error fault => simp
  | ok inner =>
    dsimp only
    cases ran : body.run { desk with writer := inner } with
    | error fault left => simp [ran]
    | ok nothing left =>
      dsimp only
      cases fell : { left.writer with bound := desk.writer.bound }.dropTo stop with
      | error fault => simp [ran, fell]
      | ok dropped => simp [ran, fell, pure, EStateM.pure]

/-- A script only moves its writer forward, whatever it looks at, wherever it fails and whatever it
recovers from. -/
theorem run_keeps (script : Script World) :
    Keeps (fun before after : Desk World => before.writer.Advances after.writer) script.run := by
  induction script with
  | done | fail => exact fun desk => .refl desk.writer
  | look next ih => exact fun desk => ih desk.writer desk.world desk
  | tell change next ih => exact fun desk => ih { desk with world := change desk.world }
  | act operation next ih =>
    exact (onWriter_keeps (Writer.perform_keeps operation)).bind .trans fun _ => ih
  | bounded stop body next bodyKept nextKept =>
    intro desk
    simp only [run]
    split
    · exact .refl desk.writer
    · rename_i inner entered
      have moved := bodyKept { desk with writer := inner }
      split <;> rename_i left bodyRan <;> rw [bodyRan] at moved
      · exact moved.of_enter entered
      · have released := moved.of_enter entered
        have dropped := onWriter_keeps (Writer.perform_keeps (.dropTo stop))
          { left with writer := { left.writer with bound := desk.writer.bound } }
        split <;> rename_i after dropRan <;> rw [dropRan] at dropped
        · exact released.trans dropped
        · exact (released.trans dropped).trans (nextKept after)
  | rescue body recover next bodyKept recoverKept nextKept =>
    intro desk
    have moved := bodyKept desk
    simp only [run]
    split <;> rename_i after bodyRan <;> rw [bodyRan] at moved
    · exact moved.trans (nextKept after)
    · rename_i fault
      have recovered := recoverKept fault after
      split <;> rename_i later recoverRan <;> rw [recoverRan] at recovered
      · exact (moved.trans recovered).trans (nextKept later)
      · exact moved.trans recovered

end Script

/-- A slice that ends before it starts is empty, as is the one up to its start. -/
theorem Text.slice_max (text : Text) (low high : Nat) : text.slice low (max low high) = text.slice low high := by
  simp only [slice]
  congr 1
  omega

namespace Writer
variable {World : Type} {writer before inner dropped after : Writer} {stop offset : Nat}

theorem dropTo_eq_ok (fell : before.dropTo offset = .ok after) :
    { before with reached := max before.reached offset } = after := by
  obtain ⟨target, passed, rfl⟩ := map_eq_ok.mp fell
  rw [Int.ofNat_inj.mp (check_eq_ok.mp passed).1]

theorem insert_output (writer : Writer) (text : Text) :
    (writer.insert text).output = writer.output ++ text := by
  unfold insert
  split
  · rename_i empty
    rw [List.isEmpty_iff.mp empty, List.append_nil]
  · simp [output, Part.text]

/-- Copying up to an offset adds the source from what was reached, or nothing if that is further. -/
theorem copyTo_output (copied : writer.copyTo offset = .ok after) :
    after.source = writer.source ∧ after.bound = writer.bound ∧ after.reached = max writer.reached offset ∧
      after.output = writer.output ++ (Part.copied (.reach writer.reached offset)).text writer.source := by
  obtain ⟨target, passed, rfl⟩ := map_eq_ok.mp copied
  have same := Int.ofNat_inj.mp (check_eq_ok.mp passed).1
  subst same
  by_cases behind : offset ≤ writer.reached
  · rw [if_pos behind]
    refine ⟨rfl, rfl, by omega, ?_⟩
    simp [Part.text, Span.reach, Span.text, Text.slice, behind]
  · rw [if_neg behind]
    refine ⟨rfl, rfl, by simp only; omega, ?_⟩
    simp [output, List.flatMap_append]

/-- What a turn up to an offset does to the writer: a callback finds it as it was but for the bound, and
when the turn is over the bound is the former one and nothing before the offset is left. All that was
copied meanwhile lies before the offset and past what had been reached. -/
structure Turned (before inner dropped : Writer) (stop : Nat) : Prop where
  entered : { before with bound := some stop } = inner
  within : stop ≤ before.source.length
  source : dropped.source = before.source
  bound : dropped.bound = before.bound
  reached : dropped.reached = max before.reached stop
  added : ∃ added, dropped.parts = inner.parts ++ added ∧ Ascending before.reached stop added

theorem turned_of_run {script : Script World} {world : World} {left : Desk World}
    (entered : before.enter stop = .ok inner)
    (ran : script.run { writer := inner, world } = .ok () left)
    (fell : { left.writer with bound := before.bound }.dropTo stop = .ok dropped) :
    before.Turned inner dropped stop := by
  have moved : inner.Advances left.writer := script.run_keeps.of_ok ran
  have released := moved.of_enter entered
  obtain ⟨target, same, inSource, inBound, rfl⟩ := enter_eq_ok.mp entered
  cases Int.ofNat_inj.mp same
  obtain rfl := dropTo_eq_ok fell
  obtain ⟨added, parts, ascending⟩ := moved.added
  have limited := moved.limited
  have forward := moved.forward
  simp only [limit, Option.getD_some] at limited forward ascending parts
  exact ⟨rfl, inSource, moved.source, rfl, by simp only; omega, added, parts,
    ascending.of_le_max limited (Nat.le_refl _)⟩

end Writer
end Emend
