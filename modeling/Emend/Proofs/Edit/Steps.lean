import Emend.Edit.Pass
import Emend.Proofs.Edit.Accounting

/-! What each step of a pass does when it ends well. Every statement about a pass is drawn from these
equations and from nothing else about the steps. -/
namespace Emend.Pass
variable {World : Type} {pass after : Pass World} {nothing : Unit} {position : Nat}
  {binding : Binding World} {bindings : List (Binding World)} {cursor : Cursor} {event : Event}
  {active : Active World} {region : Region} {policy : Policy} {source : Text}

/-- The pass once a region is open at an event, with the writer that has come up to it. -/
def opened (pass : Pass World) (position index offset : Nat) (writer : Writer) : Pass World :=
  { pass with writer, journal := pass.journal ++ [.opened position index offset] }

/-- The pass after a callback's turn at a region, with the writer before and after that turn. -/
def served (pass : Pass World) (position : Nat) (region : Region) (inner dropped : Writer)
    (world : World) : Pass World :=
  { pass with
    memory := { pass.memory with world }
    writer := dropped
    mode := .searching
    regions := pass.regions + 1
    journal := pass.journal ++ [.handed position region inner, .closed position region dropped] }

theorem note_eq_ok {entry : Note} : note entry pass = .ok nothing after ↔
    { pass with journal := pass.journal ++ [entry] } = after := by
  simp only [note, modify_eq_ok]

theorem atDesk_eq_ok {script : Script World} : atDesk script pass = .ok nothing after ↔ ∃ desk,
    script.run { writer := pass.writer, world := pass.memory.world } = .ok () desk ∧
    { pass with writer := desk.writer, memory := { pass.memory with world := desk.world } } = after := by
  unfold atDesk
  split <;> rename_i desk ran <;> simp [ran]

theorem copying_eq_ok {offset : Int} :
    atDesk (.once (.copyTo offset)) pass = .ok nothing after ↔
      ∃ writer, pass.writer.copyTo offset = .ok writer ∧ { pass with writer } = after := by
  simp only [atDesk_eq_ok, Script.once_copyTo_eq_ok]
  constructor
  · rintro ⟨_, ⟨writer, copied, rfl⟩, rfl⟩
    exact ⟨writer, copied, rfl⟩
  · rintro ⟨writer, copied, rfl⟩
    exact ⟨_, ⟨writer, copied, rfl⟩, rfl⟩

theorem handOver_eq_ok : handOver active region pass = .ok nothing after ↔ ∃ inner left dropped,
    pass.writer.enter region.span.stop = .ok inner ∧
    (active.binding.callback region).run { writer := inner, world := pass.memory.world } = .ok () left ∧
    { left.writer with bound := pass.writer.bound }.dropTo region.span.stop = .ok dropped ∧
    pass.served active.position region inner dropped left.world = after := by
  simp only [handOver, bind_eq_ok, get_eq_ok, ofExcept_eq_ok, note_eq_ok, atDesk_eq_ok, modify_eq_ok,
    Script.bounded_eq_ok]
  constructor
  · rintro ⟨_, _, ⟨rfl, rfl⟩, inner, _, ⟨entered, rfl⟩, _, _, rfl, _, _,
      ⟨_, ⟨entry, left, dropped, again, ran, fell, rfl⟩, rfl⟩, _, _, ⟨rfl, rfl⟩, _, _, rfl, rfl⟩
    cases entered.symm.trans again
    exact ⟨inner, left, dropped, entered, ran, fell, by simp [served]⟩
  · rintro ⟨inner, left, dropped, entered, ran, fell, rfl⟩
    exact ⟨_, _, ⟨rfl, rfl⟩, inner, _, ⟨entered, rfl⟩, (), _, rfl, (), _,
      ⟨_, ⟨inner, left, dropped, entered, ran, fell, rfl⟩, rfl⟩, _, _, ⟨rfl, rfl⟩, (), _, rfl,
      by simp [served]⟩

/-- The region that a binding opens at the cursor's event. -/
def activeAt (position : Nat) (binding : Binding World) (cursor : Cursor) (event : Event) :
    Active World :=
  { position, binding, index := cursor.index, opening := event }

theorem openAt_eq_ok : openAt position binding cursor event pass = .ok nothing after ↔ ∃ writer,
    pass.writer.copyTo event.start = .ok writer ∧
    match binding.stop with
    | none =>
      handOver (activeAt position binding cursor event)
        ((activeAt position binding cursor event).complete cursor.document.source)
        (pass.opened position cursor.index event.start writer) = .ok () after
    | some _ =>
      { pass.opened position cursor.index event.start writer with
        mode := .editing (activeAt position binding cursor event) } = after := by
  simp only [openAt, opened, activeAt, bind_eq_ok, note_eq_ok, copying_eq_ok]
  constructor
  · rintro ⟨_, _, ⟨writer, copied, rfl⟩, _, _, rfl, ran⟩
    refine ⟨writer, copied, ?_⟩
    cases stops : binding.stop with
    | none => simpa only [stops] using ran
    | some stop => simpa only [stops, modify_eq_ok] using ran
  · rintro ⟨writer, copied, ran⟩
    refine ⟨(), _, ⟨writer, copied, rfl⟩, (), _, rfl, ?_⟩
    cases stops : binding.stop with
    | none => simpa only [stops] using ran
    | some stop => simpa only [stops, modify_eq_ok] using ran

theorem ask_eq_ok {side : Side} {matcher : Matcher World} {answer : Bool} :
    ask position side matcher cursor pass = .ok answer after ↔ ∃ memory,
      matcher.evaluate cursor pass.memory = .ok answer memory ∧
      { pass with memory, journal := pass.journal ++ [.asked position side cursor.index] } = after := by
  simp only [ask, bind_eq_ok, note_eq_ok]
  constructor
  · rintro ⟨_, _, rfl, ran⟩
    unfold watch at ran
    split at ran
    · rename_i given memory evaluated
      cases ran
      exact ⟨memory, evaluated, rfl⟩
    · cases ran
  · rintro ⟨memory, evaluated, rfl⟩
    refine ⟨(), _, rfl, ?_⟩
    simp only [watch, evaluated]

theorem askBoth_single_eq_ok {started stopped : Bool} (single : binding.stop = none) :
    askBoth position binding cursor pass = .ok (started, stopped) after ↔ stopped = false ∧
      ask position .start binding.start cursor pass = .ok started after := by
  simp only [askBoth, single, bind_eq_ok, pure_eq_ok, Prod.mk.injEq]
  constructor
  · rintro ⟨_, _, asked, ⟨rfl, rfl⟩, rfl⟩
    exact ⟨rfl, asked⟩
  · rintro ⟨rfl, asked⟩
    exact ⟨started, after, asked, ⟨rfl, rfl⟩, rfl⟩

theorem askBoth_double_eq_ok {started stopped : Bool} {stop : Matcher World}
    (double : binding.stop = some stop) :
    askBoth position binding cursor pass = .ok (started, stopped) after ↔ ∃ between,
      ask position .start binding.start cursor pass = .ok started between ∧
      ask position .stop stop cursor between = .ok stopped after := by
  simp only [askBoth, double, bind_eq_ok, pure_eq_ok, Prod.mk.injEq]
  constructor
  · rintro ⟨_, between, asked, _, _, askedStop, ⟨rfl, rfl⟩, rfl⟩
    exact ⟨between, asked, askedStop⟩
  · rintro ⟨between, asked, askedStop⟩
    exact ⟨started, between, asked, stopped, after, askedStop, ⟨rfl, rfl⟩, rfl⟩

theorem survey_cons_eq_ok {known : Option (Nat × Bool)} {chosen : Option (Nat × Binding World)} :
    survey cursor known position (binding :: bindings) pass = .ok chosen after ↔
      ∃ started between later,
        (match known.filter (·.1 == position) with
        | some (_, answer) => answer = started ∧ pass = between
        | none => ∃ stopped, askBoth position binding cursor pass = .ok (started, stopped) between) ∧
        survey cursor known (position + 1) bindings between = .ok later after ∧
        (if started then some (position, binding) else later) = chosen := by
  rw [survey]
  cases known.filter (·.1 == position) with
  | none =>
    simp only [bind_eq_ok, pure_eq_ok]
    constructor
    · rintro ⟨⟨started, stopped⟩, between, asked, _, _, ⟨rfl, rfl⟩, later, _, surveyed, rfl, rfl⟩
      exact ⟨started, between, later, ⟨stopped, asked⟩, surveyed, rfl⟩
    · rintro ⟨started, between, later, ⟨stopped, asked⟩, surveyed, rfl⟩
      exact ⟨(started, stopped), between, asked, _, _, ⟨rfl, rfl⟩, later, after, surveyed, rfl, rfl⟩
  | some told =>
    simp only [bind_eq_ok, pure_eq_ok]
    constructor
    · rintro ⟨_, _, ⟨rfl, rfl⟩, later, _, surveyed, rfl, rfl⟩
      exact ⟨told.2, pass, later, ⟨rfl, rfl⟩, surveyed, rfl⟩
    · rintro ⟨_, _, later, ⟨rfl, rfl⟩, surveyed, rfl⟩
      exact ⟨told.2, pass, ⟨rfl, rfl⟩, later, after, surveyed, rfl, rfl⟩

theorem search_eq_ok {known : Option (Nat × Bool)} :
    search bindings cursor event known pass = .ok nothing after ↔ ∃ chosen between,
      survey cursor known 0 bindings pass = .ok chosen between ∧
      match chosen with
      | none => between = after
      | some (position, binding) => openAt position binding cursor event between = .ok () after := by
  simp only [search, bind_eq_ok]
  refine exists_congr fun chosen => exists_congr fun between => and_congr_right fun _ => ?_
  cases chosen with
  | none => simp only [pure_eq_ok, true_and]
  | some found => exact Iff.rfl

theorem visit_searching (searching : pass.mode = .searching) :
    visit bindings cursor event pass = search bindings cursor event none pass := by
  rw [visit, bind_of_ok (get_run pass), searching]

theorem visit_editing (editing : pass.mode = .editing active) :
    visit bindings cursor event pass = (do
      let (started, stopped) ← askBoth active.position active.binding cursor
      if stopped then
        handOver active (active.stoppedAt cursor.document.source event)
        search bindings cursor event (some (active.position, started))
      else
        modify fun pass =>
          { pass with mode := .editing { active with rest := active.rest ++ [event] } } :
      Step World Unit) pass := by
  rw [visit, bind_of_ok (get_run pass), editing]

theorem visit_editing_eq_ok (editing : pass.mode = .editing active) :
    visit bindings cursor event pass = .ok nothing after ↔ ∃ started stopped between,
      askBoth active.position active.binding cursor pass = .ok (started, stopped) between ∧
      match stopped with
      | false =>
        { between with mode := .editing { active with rest := active.rest ++ [event] } } = after
      | true => ∃ closed,
        handOver active (active.stoppedAt cursor.document.source event) between = .ok () closed ∧
        search bindings cursor event (some (active.position, started)) closed = .ok () after := by
  rw [visit_editing editing]
  simp only [bind_eq_ok]
  constructor
  · rintro ⟨⟨started, stopped⟩, between, asked, ran⟩
    refine ⟨started, stopped, between, asked, ?_⟩
    cases stopped with
    | false => simpa only [Bool.false_eq_true, ↓reduceIte, modify_eq_ok] using ran
    | true =>
      simp only [↓reduceIte, bind_eq_ok] at ran
      obtain ⟨_, closed, handed, ran⟩ := ran
      exact ⟨closed, handed, ran⟩
  · rintro ⟨started, stopped, between, asked, ran⟩
    refine ⟨(started, stopped), between, asked, ?_⟩
    cases stopped with
    | false => simpa only [Bool.false_eq_true, ↓reduceIte, modify_eq_ok] using ran
    | true =>
      obtain ⟨closed, handed, ran⟩ := ran
      simp only [↓reduceIte, bind_eq_ok]
      exact ⟨(), closed, handed, ran⟩

theorem events_cons_eq_ok {document : Document} {rest : List Event} {index : Nat} :
    events bindings document (event :: rest) index pass = .ok nothing after ↔ ∃ between,
      visit bindings { document, index } event pass = .ok () between ∧
      document.check (index + 1) = .ok () ∧
      events bindings document rest (index + 1) between = .ok () after := by
  simp only [events, bind_eq_ok, ofExcept_eq_ok]
  constructor
  · rintro ⟨_, between, visited, _, _, ⟨checked, rfl⟩, ran⟩
    exact ⟨between, visited, checked, ran⟩
  · rintro ⟨between, visited, checked, ran⟩
    exact ⟨(), between, visited, (), between, ⟨checked, rfl⟩, ran⟩

theorem finish_searching (searching : pass.mode = .searching) :
    finish policy source pass = atDesk (.once (.copyTo source.length)) pass := by
  rw [finish, bind_of_ok (get_run pass), searching]

theorem finish_searching_eq_ok (searching : pass.mode = .searching) :
    finish policy source pass = .ok nothing after ↔ ∃ writer,
      pass.writer.copyTo source.length = .ok writer ∧ { pass with writer } = after := by
  rw [finish_searching searching, copying_eq_ok]

/-- The pass once it is noted that the region which an event opened was left open. -/
def unstopped (pass : Pass World) (active : Active World) (source : Text) : Pass World :=
  { pass with
    journal := pass.journal ++ [.leftOpen active.index]
    unterminated := pass.unterminated ++ [active.unstopped source] }

theorem finish_editing (editing : pass.mode = .editing active) :
    finish .handOver source pass = (do
      handOver active (active.unstopped source)
      atDesk (.once (.copyTo source.length))) (pass.unstopped active source) := by
  rw [finish, bind_of_ok (get_run pass), editing]
  rfl

theorem finish_editing_eq_ok (editing : pass.mode = .editing active) :
    finish policy source pass = .ok nothing after ↔ policy = .handOver ∧ ∃ closed writer,
      handOver active (active.unstopped source) (pass.unstopped active source) = .ok () closed ∧
      closed.writer.copyTo source.length = .ok writer ∧ { closed with writer } = after := by
  cases policy with
  | fail =>
    simp only [reduceCtorEq, false_and, iff_false]
    intro ran
    rw [finish, bind_of_ok (get_run pass), editing] at ran
    dsimp only at ran
    rw [bind_of_error (throw_run ..)] at ran
    cases ran
  | handOver =>
    rw [finish_editing editing]
    simp only [bind_eq_ok, copying_eq_ok, true_and]
    constructor
    · rintro ⟨_, closed, handed, writer, copied, finished⟩
      exact ⟨closed, writer, handed, copied, finished⟩
    · rintro ⟨closed, writer, handed, copied, finished⟩
      exact ⟨(), closed, handed, writer, copied, finished⟩

/-- What a whole pass gives is read off the state that its last step leaves. -/
theorem all_eq_ok {document : Document} {emended : Emended} :
    all bindings document policy pass = .ok emended after ↔ ∃ between,
      document.check 0 = .ok () ∧
      events bindings document document.events 0 pass = .ok () between ∧
      finish policy document.source between = .ok () after ∧
      { text := after.writer.output, regions := after.regions,
        unterminated := after.unterminated } = emended := by
  have begun {cursor : Cursor} : Cursor.start document = .ok cursor ↔
      document.check 0 = .ok () ∧ ({ document } : Cursor) = cursor := by
    unfold Cursor.start
    cases document.check 0 <;> simp
  simp only [all, bind_eq_ok, get_eq_ok, ofExcept_eq_ok, pure_eq_ok, begun]
  constructor
  · rintro ⟨_, _, ⟨⟨checked, rfl⟩, rfl⟩, _, between, ran, _, _, finished, _, _, ⟨rfl, rfl⟩, rfl, rfl⟩
    exact ⟨between, checked, ran, finished, rfl⟩
  · rintro ⟨between, checked, ran, finished, rfl⟩
    exact ⟨_, _, ⟨⟨checked, rfl⟩, rfl⟩, (), between, ran, (), after, finished, _, _, ⟨rfl, rfl⟩, rfl, rfl⟩

/-- How a pass ended is how its last step ended. -/
theorem emend_eq_ok {document : Document} {memory : Memory World} {emended : Emended} :
    (emend bindings document policy memory).answer = .ok emended ↔ ∃ pass,
      Pass.all bindings document policy { memory, writer := { source := document.source } } =
        .ok emended pass ∧
      emend bindings document policy memory = ⟨.ok emended, pass.memory, pass.journal⟩ := by
  unfold emend
  cases Pass.all bindings document policy { memory, writer := { source := document.source } } with
  | error fault pass => simp
  | ok given pass =>
    constructor
    · intro same
      cases same
      exact ⟨pass, rfl, rfl⟩
    · rintro ⟨_, same, -⟩
      cases same
      rfl

end Emend.Pass
