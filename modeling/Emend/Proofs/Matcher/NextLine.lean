import Mathlib
import Emend.Proofs.Matcher.Meaning
import Emend.Proofs.Source.LineOrder

/-! The next-line pattern told from its history. The state keeps one line and forgets it whenever it
answers true, and yet nothing is lost: a match that comes later lies on a later line than all that was
forgotten. So the answer at a step is a matter of the last match before it and of the furthest line that
any match has reached, however often the pattern has answered in between. -/
namespace Emend

/-- One event as the pattern takes it in: whether the inner matcher accepted it, and the lines that it
starts on and ends on. -/
structure Sighting where
  observed : Bool
  first : Int
  last : Int
deriving DecidableEq, Repr

namespace NextLineState

def see (state : NextLineState) (sighting : Sighting) : NextLineState × Bool :=
  state.step sighting.observed sighting.first sighting.last

/-- The state after these events, when there was none before them. -/
def after (sightings : List Sighting) : NextLineState :=
  sightings.foldl (fun state sighting => (state.see sighting).1) {}

variable {state : NextLineState} {sighting : Sighting} {line : Int}

theorem see_answer (state : NextLineState) (sighting : Sighting) :
    (state.see sighting).2 = (state.phase == .armed && state.line < sighting.first) := by
  unfold see step
  cases sighting.observed <;> cases state.phase == .armed && state.line < sighting.first <;> rfl

theorem see_observed (observed : sighting.observed = true) :
    (state.see sighting).1 = ⟨.armed, max state.line sighting.last⟩ := by
  simp only [see, step, observed, if_true]

theorem see_waiting (unobserved : sighting.observed = false) :
    (({} : NextLineState).see sighting).1 = {} := by
  simp [see, step, unobserved]

theorem see_passed (unobserved : sighting.observed = false) (past : line < sighting.first) :
    ((⟨.armed, line⟩ : NextLineState).see sighting).1 = {} := by
  simp [see, step, unobserved, past]

theorem see_unpassed (unobserved : sighting.observed = false) (within : sighting.first ≤ line) :
    ((⟨.armed, line⟩ : NextLineState).see sighting).1 = ⟨.armed, line⟩ := by
  simp [see, step, unobserved, not_lt.mpr within]

end NextLineState

namespace Sighting

/-- No event ends on a line before its first, and none starts on a line before its predecessor's. -/
structure InLines (sightings : List Sighting) : Prop where
  forward : ∀ sighting ∈ sightings, 0 ≤ sighting.first ∧ sighting.first ≤ sighting.last
  ordered : sightings.Pairwise fun earlier later => earlier.first ≤ later.first

/-- Of the steps before `index` the one at `latest` was the last observed, `line` is the furthest that any
observed one had reached by then, and no event since has started past it. -/
structure Pending (sightings : List Sighting) (index : Nat) (latest : Fin sightings.length) (line : Int) :
    Prop where
  before : latest < index
  observed : sightings[latest].observed = true
  last : ∀ step : Fin sightings.length, latest < step → step < index → sightings[step].observed = false
  furthest : IsGreatest
    {reached | ∃ step ≤ latest, sightings[step].observed = true ∧ sightings[step].last = reached} line
  unpassed : ∀ step : Fin sightings.length, latest < step → step < index → sightings[step].first ≤ line

/-- The state before the step at `index`: it waits where every observed event was passed by a later one,
and otherwise it watches the line that is pending. -/
inductive Summary (sightings : List Sighting) (index : Nat) : NextLineState → Prop
  | waiting (passed : ∀ step : Fin sightings.length, step < index → sightings[step].observed = true →
      ∃ later : Fin sightings.length, step < later ∧ later < index ∧
        sightings[step].last < sightings[later].first) : Summary sightings index {}
  | armed {latest : Fin sightings.length} {line : Int} (pending : Pending sightings index latest line) :
      Summary sightings index ⟨.armed, line⟩

variable {sightings : List Sighting} {state : NextLineState} {now : Fin sightings.length}

private theorem InLines.first_le (inLines : InLines sightings) {step later : Fin sightings.length}
    (before : step ≤ later) : sightings[step].first ≤ sightings[later].first := by
  rcases before.lt_or_eq with before | rfl
  · exact List.pairwise_iff_getElem.mp inLines.ordered _ _ step.isLt later.isLt before
  · exact Int.le_refl _

private theorem InLines.first_le_last (inLines : InLines sightings) (step : Fin sightings.length) :
    0 ≤ sightings[step].first ∧ sightings[step].first ≤ sightings[step].last :=
  inLines.forward _ (List.getElem_mem step.isLt)

private theorem after_succ (now : Fin sightings.length) : NextLineState.after (sightings.take (now + 1)) =
    ((NextLineState.after (sightings.take now)).see sightings[now]).1 := by
  rw [NextLineState.after, ← List.take_append_getElem now.isLt, List.foldl_append]
  rfl

namespace Pending
variable {index : Nat} {latest other : Fin sightings.length} {line further : Int}

/-- Every observed event up to now is the latest one or comes before it. -/
theorem le_latest (pending : Pending sightings index latest line) {step : Fin sightings.length}
    (before : step < index) (observed : sightings[step].observed = true) : step ≤ latest := by
  by_contra later
  have unobserved := pending.last step (not_le.mp later) before
  rw [observed] at unobserved
  cases unobserved

/-- There is no more than one line to watch. -/
theorem line_unique (pending : Pending sightings index latest line)
    (again : Pending sightings index other further) : line = further := by
  have same : latest = other := le_antisymm (again.le_latest pending.before pending.observed)
    (pending.le_latest again.before again.observed)
  subst same
  exact pending.furthest.unique again.furthest

/-- An observed event is the latest one from then on, and may reach further than all before it. -/
theorem renew_observed (pending : Pending sightings now latest line)
    (observed : sightings[now].observed = true) :
    Pending sightings (now + 1) now (max line sightings[now].last) := by
  refine ⟨Nat.lt_succ_self now, observed, fun step after before => by omega, ⟨?_, ?_⟩,
    fun step after before => by omega⟩
  · rcases le_total line sightings[now].last with less | more
    · rw [max_eq_right less]
      exact ⟨now, le_refl now, observed, rfl⟩
    · rw [max_eq_left more]
      obtain ⟨step, upTo, seen, reached⟩ := pending.furthest.1
      exact ⟨step, upTo.trans (Fin.le_def.mpr (Nat.le_of_lt pending.before)), seen, reached⟩
  · rintro _ ⟨step, upTo, seen, rfl⟩
    rcases upTo.lt_or_eq with before | rfl
    · have reached := pending.furthest.2 ⟨step, pending.le_latest before seen, seen, rfl⟩
      exact le_max_of_le_left reached
    · exact le_max_right ..

/-- An event that is not observed and does not start past the line changes nothing. -/
theorem extend_unobserved (pending : Pending sightings now latest line)
    (unobserved : sightings[now].observed = false)
    (within : sightings[now].first ≤ line) : Pending sightings (now + 1) latest line := by
  refine ⟨Nat.lt_succ_of_lt pending.before, pending.observed, fun step after before => ?_,
    pending.furthest, fun step after before => ?_⟩
  · rcases Nat.lt_succ_iff_lt_or_eq.mp before with before | same
    · exact pending.last step after before
    · rwa [Fin.ext same]
  · rcases Nat.lt_succ_iff_lt_or_eq.mp before with before | same
    · exact pending.unpassed step after before
    · rwa [Fin.ext same]

end Pending

namespace Summary

/-- Where every observed event was passed, an observed one reaches further than all before it. -/
theorem begin_pending (inLines : InLines sightings) (observed : sightings[now].observed = true)
    (passed : ∀ step : Fin sightings.length, step < now → sightings[step].observed = true →
      ∃ later : Fin sightings.length, step < later ∧ later < now ∧
        sightings[step].last < sightings[later].first) :
    Pending sightings (now + 1) now sightings[now].last := by
  refine ⟨Nat.lt_succ_self now, observed, fun step after before => by omega,
    ⟨⟨now, le_refl now, observed, rfl⟩, ?_⟩, fun step after before => by omega⟩
  rintro _ ⟨step, upTo, seen, rfl⟩
  rcases upTo.lt_or_eq with before | rfl
  · obtain ⟨later, -, earlier, beyond⟩ := passed step before seen
    have rising := inLines.first_le (le_of_lt earlier)
    have forward := (inLines.first_le_last now).2
    omega
  · exact le_refl _

/-- What one step keeps. -/
theorem see_next (inLines : InLines sightings) (summary : Summary sightings now state) :
    Summary sightings (now + 1) (state.see sightings[now]).1 := by
  have forward := inLines.first_le_last now
  cases summary with
  | waiting passed =>
    cases observed : sightings[now].observed with
    | true =>
      have further : max (-1) sightings[now].last = sightings[now].last := max_eq_right (by omega)
      rw [NextLineState.see_observed observed, further]
      exact .armed (begin_pending inLines observed passed)
    | false =>
      rw [NextLineState.see_waiting observed]
      refine .waiting fun step before seen => ?_
      rcases Nat.lt_succ_iff_lt_or_eq.mp before with before | same
      · obtain ⟨later, after, earlier, beyond⟩ := passed step before seen
        exact ⟨later, after, Nat.lt_succ_of_lt earlier, beyond⟩
      · rw [Fin.ext same, observed] at seen
        cases seen
  | @armed latest line pending =>
    cases observed : sightings[now].observed with
    | true =>
      rw [NextLineState.see_observed observed]
      exact .armed (pending.renew_observed observed)
    | false =>
      by_cases past : line < sightings[now].first
      · rw [NextLineState.see_passed observed past]
        refine .waiting fun step before seen => ?_
        rcases Nat.lt_succ_iff_lt_or_eq.mp before with before | same
        · have reached := pending.furthest.2 ⟨step, pending.le_latest before seen, seen, rfl⟩
          exact ⟨now, before, Nat.lt_succ_self now, lt_of_le_of_lt reached past⟩
        · rw [Fin.ext same, observed] at seen
          cases seen
      · rw [NextLineState.see_unpassed observed (not_lt.mp past)]
        exact .armed (pending.extend_unobserved observed (not_lt.mp past))

/-- What a whole run of steps comes to. -/
theorem of_after (inLines : InLines sightings) {index : Nat} (inside : index ≤ sightings.length) :
    Summary sightings index (NextLineState.after (sightings.take index)) := by
  induction index with
  | zero => exact .waiting fun step before => absurd before (Nat.not_lt_zero _)
  | succ index ih =>
    let now : Fin sightings.length := ⟨index, inside⟩
    have before : Summary sightings now (NextLineState.after (sightings.take now)) :=
      ih (Nat.le_of_succ_le inside)
    rw [after_succ now]
    exact before.see_next inLines

/-- The answer at a step. -/
theorem answer_iff (inLines : InLines sightings) (summary : Summary sightings now state) :
    (state.see sightings[now]).2 = true ↔
      ∃ latest line, Pending sightings now latest line ∧ line < sightings[now].first := by
  rw [NextLineState.see_answer]
  cases summary with
  | @armed latest line pending =>
    constructor
    · intro fired
      exact ⟨latest, line, pending, by simpa using fired⟩
    · rintro ⟨other, further, again, past⟩
      rw [pending.line_unique again]
      simpa using past
  | waiting passed =>
    constructor
    · intro fired
      cases fired
    · rintro ⟨latest, line, pending, -⟩
      -- The event that reached furthest was passed: after the latest one, against what is pending, or
      -- before it, and then the latest one reaches further.
      obtain ⟨furthest, upTo, seen, reached⟩ := pending.furthest.1
      have bound := pending.furthest.2 ⟨latest, le_refl latest, pending.observed, rfl⟩
      have forward := (inLines.first_le_last latest).2
      obtain ⟨later, after, before, beyond⟩ :=
        passed furthest (lt_of_le_of_lt (Fin.le_def.mp upTo) pending.before) seen
      rcases le_or_gt later latest with early | late
      · have rising := inLines.first_le early
        omega
      · have within := pending.unpassed later late before
        omega

end Summary
end Sighting

/-- What the pattern takes in at an event at which its inner matcher gives this answer. -/
def Document.sighting (document : Document) (event : Event) (observed : Bool) : Sighting where
  observed
  first := (document.extent event).1
  last := (document.extent event).2

variable {World : Type} {document : Document} {event : Event}

private theorem Document.sighting_forward (document : Document) (event : Event) (observed : Bool) :
    0 ≤ (document.sighting event observed).first ∧
      (document.sighting event observed).first ≤ (document.sighting event observed).last :=
  ⟨Int.natCast_nonneg _, Int.ofNat_le.mpr (Lines.line_mono (Nat.le_max_left ..))⟩

def Document.eventsAt (document : Document) (places : List Nat) : List Event :=
  places.filterMap (document.events[·]?)

private theorem Document.Valid.eventsAt_ordered (valid : document.Valid) {places : List Nat}
    (inOrder : places.Pairwise (· ≤ ·)) :
    (document.eventsAt places).Pairwise fun earlier later => earlier.start ≤ later.start := by
  refine List.pairwise_filterMap.mpr (inOrder.imp ?_)
  intro place other before event found later foundLater
  obtain ⟨inside, rfl⟩ := List.getElem?_eq_some_iff.mp found
  obtain ⟨insideLater, rfl⟩ := List.getElem?_eq_some_iff.mp foundLater
  rcases before.lt_or_eq with before | rfl
  · exact List.pairwise_iff_getElem.mp valid.ordered place other inside insideLater before
  · exact Nat.le_refl _

/-- Whichever events of a valid document are asked about, one or several times each, as long as nobody goes
back they come in the order of their lines. -/
theorem Document.Valid.sightings_inLines (valid : document.Valid) {places : List Nat}
    (inOrder : places.Pairwise (· ≤ ·)) (answers : List Bool) :
    Sighting.InLines (List.zipWith document.sighting (document.eventsAt places) answers) := by
  have ordered := valid.eventsAt_ordered inOrder
  generalize document.eventsAt places = asked at ordered
  induction asked generalizing answers with
  | nil => exact ⟨by simp, .nil⟩
  | cons event asked ih =>
    cases answers with
    | nil => exact ⟨by simp, .nil⟩
    | cons observed answers =>
      obtain ⟨rising, ordered⟩ := List.pairwise_cons.mp ordered
      obtain ⟨forward, later⟩ := ih answers ordered
      rw [List.zipWith_cons_cons]
      refine ⟨?_, .cons ?_ later⟩
      · intro sighting member
        rcases List.mem_cons.mp member with rfl | member
        · exact document.sighting_forward event observed
        · exact forward sighting member
      · intro sighting member
        rw [← List.map_uncurry_zip_eq_zipWith] at member
        obtain ⟨⟨other, answer⟩, pair, rfl⟩ := List.mem_map.mp member
        exact Int.ofNat_le.mpr (Lines.line_mono (rising other (List.of_mem_zip pair).1))

/-- At an event of a valid document the pattern makes one step, with what its inner matcher answers there
and the lines of the event. -/
theorem Matcher.evaluate_nextLine (valid : document.Valid) {index : Nat}
    (found : document.events[index]? = some event) {inner : Matcher World} {slot : Slot}
    {memory between : Memory World} {observed : Bool}
    (asked : inner.evaluate { document, index } memory = .ok observed between) :
    (nextLine slot inner).evaluate { document, index } memory =
      let stepped := (memory.registers.get slot).line.see (document.sighting event observed)
      .ok stepped.2 { between with
        registers := between.registers.set slot { memory.registers.get slot with line := stepped.1 } } := by
  have current : ({ document, index } : Cursor).current = some event := found
  simp only [evaluate, current] at asked ⊢
  exact observe_nextLine_of_within (valid.within _ (List.mem_of_getElem? found)) asked

/-- The closed form of the next-line pattern: started with nothing to watch and led over events in the order
of their lines, it answers true at a step exactly when there was an observed event before, the step starts on
a line past the furthest that any observed event had reached by the latest of them, and no step in between
did. Asking a matcher on a valid document, at as many or as few events as one likes but never going back,
leads the pattern over just such events. -/
theorem nextLine_fires_iff {sightings : List Sighting} (inLines : Sighting.InLines sightings) :
    (∀ now : Fin sightings.length,
      ((NextLineState.after (sightings.take now)).see sightings[now]).2 = true ↔
        ∃ latest line, Sighting.Pending sightings now latest line ∧ line < sightings[now].first) ∧
    ∀ document : Document, document.Valid →
      (∀ places : List Nat, places.Pairwise (· ≤ ·) → ∀ answers : List Bool,
        Sighting.InLines (List.zipWith document.sighting (document.eventsAt places) answers)) ∧
      ∀ (inner : Matcher World) (slot : Slot) (index : Nat) (event : Event) (memory between : Memory World)
        (observed : Bool), document.events[index]? = some event →
        inner.evaluate { document, index } memory = .ok observed between →
        (Matcher.nextLine slot inner).evaluate { document, index } memory =
          let stepped := (memory.registers.get slot).line.see (document.sighting event observed)
          .ok stepped.2 { between with
            registers := between.registers.set slot { memory.registers.get slot with
              line := stepped.1 } } := by
  refine ⟨fun now => ?_, fun document valid => ⟨?_, ?_⟩⟩
  · exact (Sighting.Summary.of_after inLines (Nat.le_of_lt now.isLt)).answer_iff inLines
  · intro places inOrder answers
    exact valid.sightings_inLines inOrder answers
  · intro inner slot index event memory between observed found answered
    exact Matcher.evaluate_nextLine valid found answered

/-- A match over three lines, one within them, and two lines on which there is none. -/
def overtaken : List Sighting := [
  ⟨true, 0, 2⟩, ⟨false, 1, 1⟩, ⟨true, 1, 1⟩, ⟨false, 3, 3⟩, ⟨false, 4, 4⟩]

/-- The short match is the latest, but the line to get past is the last one of the long match. It is passed
at step 3, so nothing is pending at step 4 any more. A heading arms the pattern in the same way. -/
theorem overtaken_fires_iff :
    (∃ latest line, Sighting.Pending overtaken 3 latest line ∧ line < 3) ∧
    (¬ ∃ latest line, Sighting.Pending overtaken 4 latest line ∧ line < 4) ∧
    ∃ after, (Matcher.afterHeading 2).evaluate { document := Matcher.twoHeadings } { world := () } = .ok false after ∧
      (after.registers.get 2).line = ⟨.armed, 0⟩ := by
  have inLines : Sighting.InLines overtaken := ⟨by decide, by decide⟩
  obtain ⟨answers, led⟩ := @nextLine_fires_iff Unit overtaken inLines
  refine ⟨(answers (3 : Fin 5)).mp rfl, fun pending => ?_, ?_⟩
  · have fired := (answers (4 : Fin 5)).mpr pending
    cases fired
  · have valid : Matcher.twoHeadings.Valid := ⟨by decide, by decide⟩
    obtain ⟨-, asked⟩ := led Matcher.twoHeadings valid
    exact ⟨_, asked (.heading none) 2 0 _ { world := () } { world := () } true rfl rfl, rfl⟩

end Emend
