import Emend.Proofs.Edit.Turns
import Emend.Proofs.Stream.Order

/-! How a pass can fail. On a document whose promises hold, a pass in which every region lies within the
source meets no fault but those of its callbacks. So a step is described by what it leaves when it ends
well, under the proviso that no callback fails on the way. -/
namespace Emend
variable {World : Type}

/-- A callback failed with this fault at the region that it was handed last. -/
def Raised (bindings : List (Binding World)) (fault : Fault) (journal : Journal) : Prop :=
  ∃ earlier position region writer binding world left,
    journal = earlier ++ [.handed position region writer] ∧ bindings[position]? = some binding ∧
    (binding.callback region).run { writer, world } = .error fault left

/-- The pass ended because a callback failed. -/
def Outcome.CallbackFailed (bindings : List (Binding World)) (outcome : Outcome World) : Prop :=
  ∃ fault, outcome.answer = .error fault ∧ Raised bindings fault outcome.journal

/-- The turn is one run of the binding's own callback, and what it left of its region was dropped. -/
def Turn.Served (bindings : List (Binding World)) (turn : Turn) : Prop :=
  ∃ binding world left, bindings[turn.position]? = some binding ∧
    (binding.callback turn.region).run { writer := turn.before, world } = .ok () left ∧
    { left.writer with bound := none }.dropTo turn.region.span.stop = .ok turn.after

namespace Writer
variable {writer : Writer} {target : Nat}

/-- A writer without a bound may go to any place in the source. -/
private theorem check_free (free : writer.bound = none) (within : target ≤ writer.source.length) :
    writer.check target = .ok target := by
  apply check_eq_ok.mpr
  refine ⟨rfl, within, ?_⟩
  simpa only [limit, free, Option.getD_none] using within

theorem copyTo_free (free : writer.bound = none) (within : target ≤ writer.source.length) :
    ∃ moved, writer.copyTo target = .ok moved :=
  ⟨_, by rw [copyTo, check_free free within]; rfl⟩

theorem dropTo_free (free : writer.bound = none) (within : target ≤ writer.source.length) :
    ∃ dropped, writer.dropTo target = .ok dropped :=
  ⟨_, by rw [dropTo, check_free free within]; rfl⟩

private theorem enter_free (free : writer.bound = none) (within : target ≤ writer.source.length) :
    ∃ inner, writer.enter target = .ok inner :=
  ⟨_, by rw [enter, check_free free within]; rfl⟩

end Writer

namespace Pass
variable {α β : Type} {bindings : List (Binding World)} {pass after : Pass World} {source : Text}
  {position : Nat} {binding : Binding World} {cursor : Cursor} {event : Event} {active : Active World}
  {region : Region}

/-- The computation ends well and as described, unless a callback fails. -/
def Ends (bindings : List (Binding World)) (work : Step World α) (pass : Pass World)
    (described : α → Pass World → Prop) : Prop :=
  match work pass with
  | .ok answer after => described answer after
  | .error fault failed => Raised bindings fault failed.journal

namespace Ends
variable {work : Step World α} {described : α → Pass World → Prop}

theorem iff_meets : Ends bindings work pass described ↔
    Meets work pass described fun fault failed => Raised bindings fault failed.journal := by
  unfold Ends Meets
  cases work pass <;> exact Iff.rfl

theorem of_ok {answer : α} (ran : work pass = .ok answer after) (holds : described answer after) :
    Ends bindings work pass described :=
  iff_meets.mpr (.of_ok ran holds)

theorem of_ok_unit {step : Step World Unit} {described : Unit → Pass World → Prop}
    (ran : step pass = .ok () after) (holds : described () after) : Ends bindings step pass described :=
  of_ok ran holds

theorem bind {next : α → Step World β} {goal : β → Pass World → Prop}
    (begun : Ends bindings work pass described)
    (goes : ∀ answer between, described answer between → Ends bindings (next answer) between goal) :
    Ends bindings (work >>= next) pass goal :=
  iff_meets.mpr ((iff_meets.mp begun).bind fun answer between holds => iff_meets.mp (goes answer between holds))

theorem of_eq {other : Step World α} {start : Pass World} (same : work pass = other start)
    (ends : Ends bindings other start described) : Ends bindings work pass described :=
  iff_meets.mpr (.of_eq same (iff_meets.mp ends))

theorem mono {goal : α → Pass World → Prop} (ends : Ends bindings work pass described)
    (implies : ∀ answer after, described answer after → goal answer after) :
    Ends bindings work pass goal :=
  iff_meets.mpr ((iff_meets.mp ends).mono implies fun _ _ raised => raised)

/-- A step that ends well leaves what is described. -/
theorem described_of_ok {answer : α} (ends : Ends bindings work pass described)
    (ran : work pass = .ok answer after) : described answer after :=
  (iff_meets.mp ends).described_of_ok ran

/-- A step fails only if a callback does. -/
theorem raised_of_error {fault : Fault} (ends : Ends bindings work pass described)
    (failed : work pass = .error fault after) : Raised bindings fault after.journal :=
  (iff_meets.mp ends).broken_of_error failed

/-- The best description of what a step leaves is the step itself. -/
theorem tells_run (ends : Ends bindings work pass described) :
    Ends bindings work pass fun answer after => work pass = .ok answer after :=
  iff_meets.mpr (iff_meets.mp ends).tells_run

/-- In a valid document the check of an event is nothing that a pass could fail at. -/
theorem after_check {document : Document} (valid : document.Valid) (index : Nat)
    (ends : Ends bindings work pass described) : Ends bindings (do
      ofExcept (document.check index)
      work) pass described :=
  .of_eq (bind_of_ok (ofExcept_eq_ok.mpr ⟨valid.check_eq_ok index, rfl⟩)) ends

end Ends

/-- The pass is between two steps, and every turn so far was served and counted. -/
structure Steady (bindings : List (Binding World)) (source : Text) (pass : Pass World) : Prop where
  ready : pass.Ready source
  counted : pass.regions = pass.journal.turns.length
  served : ∀ turn ∈ pass.journal.turns, turn.Served bindings

/-- The pass went on to one more turn, in which a binding's callback was handed this region. -/
def Handed (before after : Pass World) (position : Nat) (region : Region) : Prop :=
  ∃ inner left, after.journal.turns = before.journal.turns ++ [⟨position, region, inner, left⟩]

namespace Steady

theorem of_silent {notes : Journal} (steady : Steady bindings source pass) (silent : Silent notes)
    (journal : after.journal = pass.journal ++ notes) (regions : after.regions = pass.regions)
    (anchored : after.writer.source = source) (free : after.writer.bound = none) :
    Steady bindings source after ∧ after.journal.turns = pass.journal.turns := by
  obtain ⟨ready, turns⟩ := steady.ready.of_silent silent journal anchored free
  refine ⟨⟨ready, ?_, ?_⟩, turns⟩
  · rw [regions, turns]
    exact steady.counted
  · rw [turns]
    exact steady.served

theorem of_heard (steady : Steady bindings source pass) (heard : Heard pass after) :
    Steady bindings source after ∧ after.journal.turns = pass.journal.turns := by
  obtain ⟨notes, silent, journal⟩ := heard.silent_notes
  exact steady.of_silent silent journal heard.regions (by rw [heard.writer, steady.ready.anchored])
    (by rw [heard.writer, steady.ready.free])

/-- A turn that the binding's callback served is one turn more, and is counted. -/
theorem served_handed {inner dropped : Writer} {world : World} (steady : Steady bindings source pass)
    (anchored : dropped.source = source) (free : dropped.bound = none)
    (turn : Turn.Served bindings ⟨position, region, inner, dropped⟩) :
    Steady bindings source (pass.served position region inner dropped world) ∧
    Handed pass (pass.served position region inner dropped world) position region := by
  obtain ⟨ready, turns⟩ :
      (pass.served position region inner dropped world).Ready source ∧
      (pass.served position region inner dropped world).journal.turns =
        pass.journal.turns ++ [⟨position, region, inner, dropped⟩] :=
    steady.ready.served_turns anchored free
  refine ⟨⟨ready, ?_, ?_⟩, inner, dropped, turns⟩
  · rw [turns, List.length_append, ← steady.counted]
    rfl
  · intro other member
    rw [turns] at member
    rcases List.mem_append.mp member with member | member
    · exact steady.served other member
    · cases List.mem_singleton.mp member
      exact turn

/-- Copying the source up to any place in it goes well. -/
theorem copyTo_within {target : Nat} (steady : Steady bindings source pass)
    (within : target ≤ source.length) : ∃ writer, pass.writer.copyTo target = .ok writer ∧
      writer.source = source ∧ writer.bound = none := by
  have inside : target ≤ pass.writer.source.length := by
    rw [steady.ready.anchored]
    exact within
  obtain ⟨writer, copied⟩ := Writer.copyTo_free steady.ready.free inside
  obtain ⟨same, bound, -⟩ := Writer.copyTo_output copied
  exact ⟨writer, copied, same.trans steady.ready.anchored, bound.trans steady.ready.free⟩

end Steady

/-- A callback that fails ends the pass. -/
private theorem handOver_raises {inner : Writer} {fault : Fault} {left : Desk World}
    (entered : pass.writer.enter region.span.stop = .ok inner)
    (failed : (active.binding.callback region).run { writer := inner, world := pass.memory.world } =
      .error fault left) : ∃ reached, handOver active region pass = .error fault reached ∧
      reached.journal = pass.journal ++ [.handed active.position region inner] := by
  have raised : ∃ reached, atDesk (.bounded region.span.stop (active.binding.callback region) .done)
      { pass with journal := pass.journal ++ [.handed active.position region inner] } =
        .error fault reached ∧
      reached.journal = pass.journal ++ [.handed active.position region inner] := by
    simp only [atDesk, Script.run, entered, failed]
    exact ⟨_, rfl, rfl⟩
  obtain ⟨reached, raised, journal⟩ := raised
  refine ⟨reached, ?_, journal⟩
  rw [handOver, bind_of_ok (get_run pass), bind_of_ok (ofExcept_eq_ok.mpr ⟨entered, rfl⟩),
    note, bind_of_ok (modify_run ..), bind_of_error raised]

/-- A region within the source is handed over without a fault of the pass itself: it fails exactly when
the callback does. -/
theorem handOver_ends (steady : Steady bindings source pass)
    (known : bindings[active.position]? = some active.binding)
    (within : region.span.stop ≤ source.length) :
    Ends bindings (handOver active region) pass fun _ after =>
      Steady bindings source after ∧ after.mode = .searching ∧
      after.memory.registers = pass.memory.registers ∧ Handed pass after active.position region := by
  have inside : region.span.stop ≤ pass.writer.source.length := by
    rw [steady.ready.anchored]
    exact within
  obtain ⟨inner, entered⟩ := Writer.enter_free steady.ready.free inside
  have innerSource : inner.source = source := by
    obtain ⟨_, -, -, -, rfl⟩ := Writer.enter_eq_ok.mp entered
    exact steady.ready.anchored
  cases ran : (active.binding.callback region).run { writer := inner, world := pass.memory.world } with
  | ok nothing left =>
    have kept : inner.Advances left.writer := (active.binding.callback region).run_keeps.of_ok ran
    have anchored : left.writer.source = source := kept.source.trans innerSource
    have stop : region.span.stop ≤ ({ left.writer with bound := none } : Writer).source.length := by
      rw [anchored]
      exact within
    obtain ⟨dropped, fell⟩ := Writer.dropTo_free rfl stop
    have advanced := Writer.dropTo_advances fell
    have handed : handOver active region pass =
        .ok () (pass.served active.position region inner dropped left.world) :=
      handOver_eq_ok.mpr
        ⟨inner, left, dropped, entered, ran, by rw [steady.ready.free]; exact fell, rfl⟩
    obtain ⟨steadyAfter, handedAfter⟩ := steady.served_handed (advanced.source.trans anchored) advanced.bound
      ⟨active.binding, pass.memory.world, left, known, ran, fell⟩
    exact .of_ok_unit handed ⟨steadyAfter, rfl, rfl, handedAfter⟩
  | error fault left =>
    obtain ⟨reached, raised, journal⟩ := handOver_raises entered ran
    unfold Ends
    rw [raised]
    exact ⟨pass.journal, active.position, region, inner, active.binding, pass.memory.world, left,
      journal, known, ran⟩

/-- What a pass looks like once a binding has opened a region at an event. -/
def Opened (before after : Pass World) (position : Nat) (binding : Binding World) (cursor : Cursor)
    (event : Event) : Prop :=
  match binding.stop with
  | none => after.mode = .searching ∧
      Handed before after position ((activeAt position binding cursor event).complete
        cursor.document.source)
  | some _ => after.mode = .editing (activeAt position binding cursor event) ∧
      after.journal.turns = before.journal.turns

theorem openAt_ends (steady : Steady bindings cursor.document.source pass)
    (known : bindings[position]? = some binding) (within : event.stop ≤ cursor.document.source.length) :
    Ends bindings (openAt position binding cursor event) pass fun _ after =>
      Steady bindings cursor.document.source after ∧
      after.memory.registers = pass.memory.registers ∧
      Opened pass after position binding cursor event := by
  obtain ⟨writer, copied, anchored, free⟩ :=
    steady.copyTo_within (Nat.le_trans event.span.ordered within)
  have opens : (pass.opened position cursor.index event.start writer).journal =
      pass.journal ++ [.opened position cursor.index event.start] := rfl
  obtain ⟨begun, turns⟩ :=
    steady.of_silent (Silent.of_opened position cursor.index event.start) opens rfl anchored free
  have copies : Ends bindings (atDesk (.once (.copyTo event.start))) pass
      fun _ between => { pass with writer } = between :=
    .of_ok_unit (copying_eq_ok.mpr ⟨writer, copied, rfl⟩) rfl
  have notes : Ends bindings (note (.opened position cursor.index event.start)) { pass with writer }
      fun _ between => pass.opened position cursor.index event.start writer = between :=
    .of_ok_unit (note_eq_ok.mpr rfl) rfl
  refine copies.bind ?_
  rintro _ _ rfl
  refine notes.bind ?_
  rintro _ _ rfl
  unfold Opened
  cases stops : binding.stop with
  | none =>
    have inside : ((activeAt position binding cursor event).complete
        cursor.document.source).span.stop ≤ cursor.document.source.length :=
      Nat.max_le.mpr ⟨Nat.le_trans event.span.ordered within, within⟩
    have handed : Ends bindings (handOver (activeAt position binding cursor event) _) _ _ :=
      handOver_ends begun known inside
    apply handed.mono
    rintro _ after ⟨steadyAfter, searching, registers, inner, left, handed⟩
    rw [turns] at handed
    exact ⟨steadyAfter, registers, searching, inner, left, handed⟩
  | some stop =>
    obtain ⟨still, -⟩ : Steady bindings cursor.document.source
        { pass.opened position cursor.index event.start writer with
          mode := .editing (activeAt position binding cursor event) } ∧ _ :=
      begun.of_silent .nil (List.append_nil _).symm rfl anchored free
    exact .of_ok_unit (modify_eq_ok.mpr rfl) ⟨still, rfl, rfl, turns⟩

end Pass
end Emend
