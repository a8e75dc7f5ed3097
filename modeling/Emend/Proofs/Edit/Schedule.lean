import Emend.Proofs.Edit.Priority
import Emend.Proofs.Edit.Walk

/-! Which matchers a pass asks at which event, and in which order. While no region is open every binding
is asked, in order; while one is open only its own, until it stops, and then the others after it. So the
regions of a pass tell all the questions that it asked, whatever the answers were. -/
namespace Emend
variable {World : Type}

/-- The questions of a pass, in order: the position of the binding, which of its matchers was asked, and
the event. -/
def Journal.asked (journal : Journal) : List (Nat × Side × Nat) :=
  journal.filterMap fun
    | .asked position side index => some (position, side, index)
    | _ => none

/-- The events of a region that went to the binding at a position. -/
def Region.stretch (region : Region) (position : Nat) : Stretch where
  position
  first := region.firstIndex
  past := region.firstIndex + region.events.length
  terminated := region.terminated

def Journal.stretches (journal : Journal) : List Stretch :=
  journal.handed.map fun (position, region) => region.stretch position

def Active.stretch (active : Active World) : Stretch where
  position := active.position
  first := active.index
  past := active.index + (active.rest.length + 1)

private theorem Active.index_lt_past (active : Active World) : active.index < active.stretch.past :=
  Nat.lt_add_of_pos_right (Nat.zero_lt_succ _)

/-- The events of the regions so far, the one that is open included. -/
def Pass.stretches (pass : Pass World) : List Stretch :=
  pass.journal.stretches ++
    match pass.mode with
    | .searching => []
    | .editing active => [active.stretch]

/-- What a binding is asked at an event: its start matcher, and then the stop matcher if there is one. -/
def Binding.questions (binding : Binding World) (position index : Nat) : List (Nat × Side × Nat) :=
  (position, .start, index) :: if binding.stop.isSome then [(position, .stop, index)] else []

def questions (bindings : List (Binding World)) (index position : Nat) : List (Nat × Side × Nat) :=
  (bindings[position]?.map (·.questions position index)).getD []

/-- Whether the region is open when the event comes: it began at an earlier one, and nothing before the
event has stopped it. -/
def Stretch.pending (bindings : List (Binding World)) (index : Nat) (stretch : Stretch) : Bool :=
  bindings[stretch.position]?.any (·.stop.isSome) && stretch.first < index && index ≤ stretch.past

/-- The bindings that are asked at an event, in order, when the regions are these. The binding of an open
region comes first, and the others come only after it has stopped. -/
def schedule (bindings : List (Binding World)) (stretches : List Stretch) (index : Nat) : List Nat :=
  match stretches.find? (·.pending bindings index) with
  | none => List.range bindings.length
  | some stretch => stretch.position ::
      if index = stretch.past then (List.range bindings.length).filter (stretch.position != ·) else []

/-- All questions at the events before `index`. -/
def timetable (bindings : List (Binding World)) (stretches : List Stretch) (index : Nat) :
    List (Nat × Side × Nat) :=
  (List.range index).flatMap fun event =>
    (schedule bindings stretches event).flatMap (questions bindings event)

variable {bindings : List (Binding World)} {index position : Nat} {stretch last longer : Stretch}
  {stretches earlier : List Stretch}

theorem pending_iff : stretch.pending bindings index = true ↔
    (∃ binding, bindings[stretch.position]? = some binding ∧ binding.stop.isSome = true) ∧
      stretch.first < index ∧ index ≤ stretch.past := by
  simp only [Stretch.pending, Bool.and_eq_true, decide_eq_true_eq, Option.any_eq_true, and_assoc]

/-- A region that begins at the event or after it is not open there yet. -/
private theorem pending_early (early : index ≤ stretch.first) : stretch.pending bindings index = false := by
  rw [Bool.eq_false_iff]
  intro pending
  have bounds := pending_iff.mp pending
  omega

/-- A region that has ended before the event is not open there any more. -/
private theorem pending_late (late : stretch.past < index) : stretch.pending bindings index = false := by
  rw [Bool.eq_false_iff]
  intro pending
  have bounds := pending_iff.mp pending
  omega

theorem gone_after (ended : ∀ stretch ∈ stretches, stretch.past ≤ index) : ∀ stretch ∈ stretches,
    stretch.past ≤ index + 1 ∧ stretch.pending bindings (index + 1) = false := by
  intro stretch member
  have past := ended stretch member
  exact ⟨Nat.le_succ_of_le past, pending_late (Nat.lt_succ_of_le past)⟩

private theorem schedule_of_none (quiet : ∀ stretch ∈ stretches, stretch.pending bindings index = false) :
    schedule bindings stretches index = List.range bindings.length := by
  have missed : stretches.find? (·.pending bindings index) = none := by
    simpa [List.find?_eq_none] using quiet
  rw [schedule, missed]

private theorem schedule_of_last (quiet : ∀ stretch ∈ earlier, stretch.pending bindings index = false)
    (pending : last.pending bindings index = true) :
    schedule bindings (earlier ++ [last]) index = last.position ::
      if index = last.past then (List.range bindings.length).filter (last.position != ·) else [] := by
  have missed : earlier.find? (·.pending bindings index) = none := by
    simpa [List.find?_eq_none] using quiet
  have found : (earlier ++ [last]).find? (·.pending bindings index) = some last := by
    rw [List.find?_append, missed, Option.none_or, List.find?_singleton, pending]
    rfl
  rw [schedule, found]

/-- A region that is not open yet changes nothing. -/
theorem schedule_snoc (early : index ≤ last.first) :
    schedule bindings (stretches ++ [last]) index = schedule bindings stretches index := by
  have found : (stretches ++ [last]).find? (·.pending bindings index) =
      stretches.find? (·.pending bindings index) := by
    rw [List.find?_append, List.find?_singleton, pending_early early]
    simp
  rw [schedule, found, schedule]

/-- Inside a region it does not matter where the region ends. -/
theorem schedule_longer (position : longer.position = last.position) (first : longer.first = last.first)
    (inside : index < last.past) (still : index < longer.past) :
    schedule bindings (earlier ++ [longer]) index = schedule bindings (earlier ++ [last]) index := by
  have same : longer.pending bindings index = last.pending bindings index := by
    simp [Stretch.pending, position, first, Nat.le_of_lt inside, Nat.le_of_lt still]
  have notLast : index ≠ last.past := Nat.ne_of_lt inside
  have notLonger : index ≠ longer.past := Nat.ne_of_lt still
  simp only [schedule, List.find?_append, List.find?_singleton, same]
  cases earlier.find? (·.pending bindings index) with
  | some stretch => rfl
  | none =>
    cases last.pending bindings index with
    | false => rfl
    | true => simp [position, notLast, notLonger]

private theorem timetable_succ :
    timetable bindings stretches (index + 1) = timetable bindings stretches index ++
    (schedule bindings stretches index).flatMap (questions bindings index) := by
  simp [timetable, List.range_succ]

private theorem timetable_congr {others : List Stretch}
    (same : ∀ event, event < index → schedule bindings stretches event = schedule bindings others event) :
    timetable bindings stretches index = timetable bindings others index := by
  unfold timetable
  apply List.flatMap_congr
  intro event member
  rw [same event (List.mem_range.mp member)]

/-- Regions that lie one after the other, each of a binding that there is, and of one event if the binding
has no stop matcher. -/
structure Laid (bindings : List (Binding World)) (stretches : List Stretch) : Prop where
  inOrder : stretches.Pairwise fun earlier later => earlier.past ≤ later.first
  shaped : ∀ stretch ∈ stretches, stretch.first < stretch.past ∧
    ∃ binding, bindings[stretch.position]? = some binding ∧
      (binding.stop = none → stretch.past = stretch.first + 1)

namespace Laid

/-- One more region, after all the others. -/
theorem snoc (laid : Laid bindings stretches) (after : ∀ stretch ∈ stretches, stretch.past ≤ last.first)
    (shaped : last.first < last.past ∧ ∃ binding, bindings[last.position]? = some binding ∧
      (binding.stop = none → last.past = last.first + 1)) : Laid bindings (stretches ++ [last]) := by
  refine ⟨?_, ?_⟩
  · refine List.pairwise_append.mpr ⟨laid.inOrder, List.pairwise_singleton .., ?_⟩
    intro stretch member other single
    cases List.mem_singleton.mp single
    exact after stretch member
  · intro stretch member
    rcases List.mem_append.mp member with member | member
    · exact laid.shaped stretch member
    · cases List.mem_singleton.mp member
      exact shaped

/-- The last region may turn out to be longer, if its binding has a stop matcher. -/
theorem extend_last {binding : Binding World} (laid : Laid bindings (earlier ++ [last]))
    (position : longer.position = last.position) (first : longer.first = last.first)
    (past : last.past ≤ longer.past) (known : bindings[last.position]? = some binding)
    (stops : binding.stop.isSome = true) : Laid bindings (earlier ++ [longer]) := by
  obtain ⟨before, -, across⟩ := List.pairwise_append.mp laid.inOrder
  obtain ⟨filled, -⟩ := laid.shaped last (by simp)
  refine snoc ⟨before, fun stretch member => laid.shaped stretch (by simp [member])⟩ ?_ ?_
  · intro stretch member
    rw [first]
    exact across stretch member last (by simp)
  · rw [position, first]
    exact ⟨Nat.lt_of_lt_of_le filled past, binding, known, fun none => by simp [none] at stops⟩

end Laid

namespace Pass
variable {pass between after : Pass World} {binding : Binding World} {cursor : Cursor} {event : Event}
  {active : Active World} {region : Region} {first second : List (Nat × Side × Nat)}

/-- From one state to the other these questions were asked and nothing was handed over. -/
structure Asks (asked : List (Nat × Side × Nat)) (before after : Pass World) : Prop where
  asked : after.journal.asked = before.journal.asked ++ asked
  stretches : after.journal.stretches = before.journal.stretches
  mode : after.mode = before.mode

theorem Asks.trans (begun : Asks first pass between) (goes : Asks second between after) :
    Asks (first ++ second) pass after := by
  refine ⟨?_, goes.stretches.trans begun.stretches, goes.mode.trans begun.mode⟩
  rw [goes.asked, begun.asked, List.append_assoc]

private theorem ask_asks {side : Side} {matcher : Matcher World} {answer : Bool}
    (ran : ask position side matcher cursor pass = .ok answer after) :
    Asks [(position, side, cursor.index)] pass after := by
  obtain ⟨memory, -, rfl⟩ := ask_eq_ok.mp ran
  refine ⟨?_, ?_, rfl⟩
  · simp [Journal.asked]
  · simp [Journal.stretches, Journal.handed]

theorem askBoth_asks {started stopped : Bool}
    (ran : askBoth position binding cursor pass = .ok (started, stopped) after) :
    Asks (binding.questions position cursor.index) pass after := by
  unfold Binding.questions
  cases stop : binding.stop with
  | none =>
    obtain ⟨-, ran⟩ := (askBoth_single_eq_ok stop).mp ran
    exact ask_asks ran
  | some matcher =>
    obtain ⟨between, begun, ran⟩ := (askBoth_double_eq_ok stop).mp ran
    exact (ask_asks begun).trans (ask_asks ran)

/-- A survey asks the bindings from a position on, in order, except the one whose answer is known. -/
theorem survey_asks {left : List (Binding World)} {known : Option (Nat × Bool)}
    {chosen : Option (Nat × Binding World)} (there : bindings.drop position = left)
    (ran : survey cursor known position left pass = .ok chosen after) :
    Asks (((List.range' position left.length).filter fun other => !known.any (·.1 == other)).flatMap
      (questions bindings cursor.index)) pass after := by
  induction left generalizing position pass chosen with
  | nil =>
    obtain ⟨rfl, rfl⟩ := pure_eq_ok.mp ran
    exact ⟨by simp, rfl, rfl⟩
  | cons binding left ih =>
    obtain ⟨here, later⟩ := next_of_drop there
    obtain ⟨started, between, rest, answered, goes, rfl⟩ := survey_cons_eq_ok.mp ran
    have asked : Asks (if known.any (·.1 == position) then [] else questions bindings cursor.index position)
        pass between := by
      cases told : known.filter (·.1 == position) with
      | none =>
        rw [told] at answered
        obtain ⟨stopped, both⟩ := answered
        have unknown : known.any (·.1 == position) = false := by
          cases known with
          | none => rfl
          | some answer => simpa using told
        simp only [unknown, Bool.false_eq_true, ↓reduceIte, questions, here, Option.map_some,
          Option.getD_some]
        exact askBoth_asks both
      | some answer =>
        rw [told] at answered
        obtain ⟨-, rfl⟩ := answered
        obtain ⟨same, holds⟩ := Option.filter_eq_some_iff.mp told
        simp only [same, Option.any_some, holds, ↓reduceIte]
        exact ⟨(List.append_nil _).symm, rfl, rfl⟩
    have all := asked.trans (ih later goes)
    rw [List.length_cons, List.range'_succ, List.filter_cons]
    cases unknown : known.any (·.1 == position) with
    | true => simpa [unknown] using all
    | false => simpa [unknown] using all

theorem stretches_searching (searching : pass.mode = .searching) :
    pass.stretches = pass.journal.stretches := by
  rw [stretches, searching, List.append_nil]

theorem stretches_editing (editing : pass.mode = .editing active) :
    pass.stretches = pass.journal.stretches ++ [active.stretch] := by
  rw [stretches, editing]

theorem handOver_stretches {nothing : Unit} (ran : handOver active region pass = .ok nothing after) :
    after.journal.asked = pass.journal.asked ∧
    after.journal.stretches = pass.journal.stretches ++ [region.stretch active.position] ∧
    after.mode = .searching := by
  obtain ⟨inner, left, dropped, -, -, -, rfl⟩ := handOver_eq_ok.mp ran
  refine ⟨?_, ?_, rfl⟩
  · simp [served, Journal.asked]
  · simp [served, Journal.stretches, Journal.handed]

/-- A pass that stands before the event at `index` has asked what the timetable of its regions says. -/
structure Scheduled (bindings : List (Binding World)) (index : Nat) (pass : Pass World) : Prop where
  asked : pass.journal.asked = timetable bindings pass.stretches index
  laid : Laid bindings pass.stretches
  gone : ∀ stretch ∈ pass.journal.stretches,
    stretch.past ≤ index ∧ stretch.pending bindings index = false
  editing : ∀ active, pass.mode = .editing active → bindings[active.position]? = some active.binding ∧
    active.binding.stop.isSome = true ∧ active.stretch.past = index

/-- A pass that has done nothing yet stands before the first event. -/
theorem Scheduled.of_nothing (nothing : pass.journal = []) (searching : pass.mode = .searching) :
    Scheduled bindings 0 pass := by
  have none : pass.journal.stretches = [] := by rw [nothing, Journal.stretches, Journal.handed]; rfl
  refine ⟨?_, ?_, ?_, ?_⟩
  · rw [nothing]
    rfl
  · rw [stretches_searching searching, none]
    exact ⟨.nil, by simp⟩
  · simp [none]
  · intro active editing
    rw [searching] at editing
    cases editing

private theorem openAt_scheduled {nothing : Unit} (known : bindings[position]? = some binding)
    (laid : Laid bindings pass.journal.stretches)
    (ended : ∀ stretch ∈ pass.journal.stretches, stretch.past ≤ cursor.index)
    (asked : pass.journal.asked = timetable bindings pass.journal.stretches (cursor.index + 1))
    (ran : openAt position binding cursor event pass = .ok nothing after) :
    Scheduled bindings (cursor.index + 1) after := by
  let one : Stretch := { position, first := cursor.index, past := cursor.index + 1 }
  have more : Laid bindings (pass.journal.stretches ++ [one]) :=
    laid.snoc ended ⟨Nat.lt_succ_self _, binding, known, fun _ => rfl⟩
  have same : timetable bindings (pass.journal.stretches ++ [one]) (cursor.index + 1) =
      timetable bindings pass.journal.stretches (cursor.index + 1) :=
    timetable_congr fun event before => schedule_snoc (Nat.le_of_lt_succ before)
  obtain ⟨writer, -, ran⟩ := openAt_eq_ok.mp ran
  have opens : (pass.opened position cursor.index event.start writer).journal.asked =
      pass.journal.asked := by
    simp [opened, Journal.asked]
  have keeps : (pass.opened position cursor.index event.start writer).journal.stretches =
      pass.journal.stretches := by
    simp [opened, Journal.stretches, Journal.handed]
  cases stop : binding.stop with
  | none =>
    rw [stop] at ran
    obtain ⟨askedAfter, stretches, searching⟩ := handOver_stretches ran
    have all : after.journal.stretches = pass.journal.stretches ++ [one] := by
      rw [stretches, keeps]
      rfl
    have whole : after.stretches = pass.journal.stretches ++ [one] := by
      rw [stretches_searching searching, all]
    refine ⟨?_, ?_, ?_, ?_⟩
    · rw [askedAfter, opens, asked, whole, same]
    · rw [whole]
      exact more
    · rw [all]
      intro stretch member
      rcases List.mem_append.mp member with member | member
      · exact gone_after ended stretch member
      · cases List.mem_singleton.mp member
        refine ⟨Nat.le_refl _, ?_⟩
        simp [Stretch.pending, one, known, stop]
    · intro active editing
      rw [searching] at editing
      cases editing
  | some matcher =>
    rw [stop] at ran
    cases ran
    have whole : ({ pass.opened position cursor.index event.start writer with
        mode := .editing (activeAt position binding cursor event) } : Pass World).stretches =
        pass.journal.stretches ++ [one] := by
      rw [stretches_editing rfl, keeps]
      rfl
    refine ⟨?_, ?_, ?_, ?_⟩
    · rw [whole, same, ← asked]
      exact opens
    · rw [whole]
      exact more
    · rw [keeps]
      exact gone_after ended
    · intro active editing
      cases editing
      exact ⟨known, by simp [activeAt, stop], rfl⟩

/-- A search asks the bindings that were not asked yet, and may open a region at its event. -/
theorem search_scheduled {nothing : Unit} {known : Option (Nat × Bool)}
    (searching : pass.mode = .searching) (laid : Laid bindings pass.journal.stretches)
    (ended : ∀ stretch ∈ pass.journal.stretches, stretch.past ≤ cursor.index)
    (asked : pass.journal.asked ++
      ((List.range bindings.length).filter fun other => !known.any (·.1 == other)).flatMap
        (questions bindings cursor.index) =
      timetable bindings pass.journal.stretches (cursor.index + 1))
    (ran : search bindings cursor event known pass = .ok nothing after) :
    Scheduled bindings (cursor.index + 1) after := by
  obtain ⟨chosen, between, surveyed, ran⟩ := search_eq_ok.mp ran
  have asks := survey_asks List.drop_zero surveyed
  have found := survey_picks List.drop_zero surveyed
  rw [← List.range_eq_range'] at asks
  have askedBetween : between.journal.asked =
      timetable bindings between.journal.stretches (cursor.index + 1) := by
    rw [asks.asked, asked, asks.stretches]
  rw [← asks.stretches] at laid ended
  cases chosen with
  | none =>
    cases ran
    have still : after.mode = .searching := asks.mode.trans searching
    have whole : after.stretches = after.journal.stretches := stretches_searching still
    refine ⟨?_, ?_, ?_, ?_⟩
    · rw [whole]
      exact askedBetween
    · rw [whole]
      exact laid
    · exact gone_after ended
    · intro active editing
      rw [still] at editing
      cases editing
  | some pick =>
    exact openAt_scheduled (found pick rfl) laid ended askedBetween ran

/-- An event that does not stop the open region is asked about by the region's own binding only. -/
private theorem continue_scheduled (scheduled : Scheduled bindings index pass)
    (mode : pass.mode = .editing active)
    (asks : Asks (questions bindings index active.position) pass between) :
    Scheduled bindings (index + 1)
      { between with mode := .editing { active with rest := active.rest ++ [event] } } := by
  obtain ⟨asked, laid, gone, editing⟩ := scheduled
  obtain ⟨known, stops, past⟩ := editing active mode
  rw [stretches_editing mode] at asked laid
  let longer : Active World := { active with rest := active.rest ++ [event] }
  have begun : longer.stretch.first = active.stretch.first := rfl
  have further : longer.stretch.past = index + 1 := by
    simp only [Active.stretch, longer, List.length_append, List.length_singleton] at past ⊢
    omega
  have inside : active.index < index := past ▸ active.index_lt_past
  have whole : ({ between with mode := .editing longer } : Pass World).stretches =
      pass.journal.stretches ++ [longer.stretch] := by
    rw [stretches_editing rfl, asks.stretches]
  refine ⟨?_, ?_, ?_, ?_⟩
  · have quiet : ∀ stretch ∈ pass.journal.stretches, stretch.pending bindings index = false :=
      fun stretch member => (gone stretch member).2
    have pending : longer.stretch.pending bindings index = true :=
      pending_iff.mpr ⟨⟨active.binding, known, stops⟩, inside, by omega⟩
    have same : timetable bindings (pass.journal.stretches ++ [longer.stretch]) index =
        timetable bindings (pass.journal.stretches ++ [active.stretch]) index :=
      timetable_congr fun event before => schedule_longer rfl rfl (by omega) (by omega)
    rw [whole, timetable_succ, schedule_of_last quiet pending, if_neg (by omega), same,
      List.flatMap_singleton, ← asked]
    exact asks.asked
  · rw [whole]
    exact laid.extend_last rfl rfl (by omega) known stops
  · rw [asks.stretches]
    exact gone_after fun stretch member => (gone stretch member).1
  · rintro _ ⟨⟩
    exact ⟨known, stops, further⟩

/-- At the event that stops the open region the other bindings are asked after the region's own. -/
private theorem stop_scheduled {nothing : Unit} {document : Document} {started : Bool} {closed : Pass World}
    (scheduled : Scheduled bindings index pass) (mode : pass.mode = .editing active)
    (asks : Asks (questions bindings index active.position) pass between)
    (handed : handOver active (active.stoppedAt document.source event) between = .ok () closed)
    (ran : search bindings { document, index } event (some (active.position, started)) closed =
      .ok nothing after) : Scheduled bindings (index + 1) after := by
  obtain ⟨asked, laid, gone, editing⟩ := scheduled
  obtain ⟨known, stops, past⟩ := editing active mode
  rw [stretches_editing mode] at asked laid
  obtain ⟨askedClosed, stretches, searching⟩ := handOver_stretches handed
  have whole : closed.journal.stretches = pass.journal.stretches ++ [active.stretch] := by
    rw [stretches, asks.stretches]
    rfl
  rw [← whole] at asked laid
  refine search_scheduled searching laid ?_ ?_ ran
  · rw [whole]
    intro stretch member
    rcases List.mem_append.mp member with member | member
    · exact (gone stretch member).1
    · cases List.mem_singleton.mp member
      exact Nat.le_of_eq past
  · have quiet : ∀ stretch ∈ pass.journal.stretches, stretch.pending bindings index = false :=
      fun stretch member => (gone stretch member).2
    have inside : active.index < index := past ▸ active.index_lt_past
    have pending : active.stretch.pending bindings index = true :=
      pending_iff.mpr ⟨⟨active.binding, known, stops⟩, inside, Nat.le_of_eq past.symm⟩
    -- Of all regions only the one that stops at this event is still open when the event comes.
    have due : schedule bindings closed.journal.stretches index =
        active.position :: (List.range bindings.length).filter (active.position != ·) := by
      rw [whole, schedule_of_last quiet pending, if_pos past.symm]
      rfl
    rw [timetable_succ, due, List.flatMap_cons, ← asked, askedClosed, asks.asked, List.append_assoc]
    rfl

/-- Every event is asked about as scheduled. -/
theorem visit_scheduled {nothing : Unit} {document : Document} (scheduled : Scheduled bindings index pass)
    (ran : visit bindings { document, index } event pass = .ok nothing after) :
    Scheduled bindings (index + 1) after := by
  cases mode : pass.mode with
  | searching =>
    obtain ⟨asked, laid, gone, -⟩ := scheduled
    rw [stretches_searching mode] at asked laid
    rw [visit_searching mode] at ran
    refine search_scheduled mode laid (fun stretch member => (gone stretch member).1) ?_ ran
    rw [timetable_succ, schedule_of_none fun stretch member => (gone stretch member).2, asked]
    simp
  | editing active =>
    obtain ⟨known, -, -⟩ := scheduled.editing active mode
    obtain ⟨started, stopped, between, both, ran⟩ := (visit_editing_eq_ok mode).mp ran
    have asks : Asks (questions bindings index active.position) pass between := by
      have own : questions bindings index active.position =
          active.binding.questions active.position index := by
        simp [questions, known]
      rw [own]
      exact askBoth_asks both
    cases stopped with
    | false =>
      cases ran
      exact continue_scheduled scheduled mode asks
    | true =>
      obtain ⟨closed, handed, ran⟩ := ran
      exact stop_scheduled scheduled mode asks handed ran

/-- All events, from `index` on. -/
theorem events_scheduled {nothing : Unit} {document : Document} {left : List Event}
    (scheduled : Scheduled bindings index pass)
    (ran : events bindings document left index pass = .ok nothing after) :
    Scheduled bindings (index + left.length) after := by
  induction left generalizing index pass with
  | nil =>
    cases ran
    exact scheduled
  | cons event left ih =>
    obtain ⟨between, visited, -, ran⟩ := events_cons_eq_ok.mp ran
    have later := ih (visit_scheduled scheduled visited) ran
    rwa [Nat.add_right_comm, Nat.add_assoc] at later

/-- A region that is still open is handed over without another question. -/
theorem finish_scheduled {nothing : Unit} {policy : Policy} {source : Text}
    (scheduled : Scheduled bindings index pass) (ran : finish policy source pass = .ok nothing after) :
    after.journal.asked = timetable bindings after.journal.stretches index ∧
    Laid bindings after.journal.stretches := by
  obtain ⟨asked, laid, gone, editing⟩ := scheduled
  cases mode : pass.mode with
  | searching =>
    obtain ⟨writer, -, rfl⟩ := (finish_searching_eq_ok mode).mp ran
    rw [stretches_searching mode] at asked laid
    exact ⟨asked, laid⟩
  | editing active =>
    rw [stretches_editing mode] at asked laid
    obtain ⟨known, stops, past⟩ := editing active mode
    obtain ⟨-, closed, writer, handed, -, rfl⟩ := (finish_editing_eq_ok mode).mp ran
    obtain ⟨askedClosed, stretches, -⟩ := handOver_stretches handed
    have opens : (pass.unstopped active source).journal.asked = pass.journal.asked := by
      simp [unstopped, Journal.asked]
    have keeps : (pass.unstopped active source).journal.stretches = pass.journal.stretches := by
      simp [unstopped, Journal.stretches, Journal.handed]
    rw [keeps] at stretches
    refine ⟨?_, ?_⟩
    · have same : timetable bindings (pass.journal.stretches ++
          [(active.unstopped source).stretch active.position]) index =
          timetable bindings (pass.journal.stretches ++ [active.stretch]) index := by
        refine timetable_congr fun event before => schedule_longer rfl rfl ?_ ?_
        · exact Nat.lt_of_lt_of_eq before past.symm
        · exact Nat.lt_of_lt_of_eq before past.symm
      rw [askedClosed, opens, asked, stretches]
      exact same.symm
    · rw [stretches]
      exact laid.extend_last rfl rfl (Nat.le_refl _) known stops

end Pass

/-- At most one region has begun before an event and goes on up to it. -/
theorem Laid.eq_of_around {other : Stretch} (laid : Laid bindings stretches) (member : stretch ∈ stretches)
    (begun : stretch.first < index) (reaches : index ≤ stretch.past) (memberOther : other ∈ stretches)
    (begunOther : other.first < index) (inside : index < other.past) : other = stretch := by
  obtain ⟨place, within, rfl⟩ := List.getElem_of_mem member
  obtain ⟨otherPlace, otherWithin, rfl⟩ := List.getElem_of_mem memberOther
  rcases Nat.lt_trichotomy place otherPlace with before | same | after
  · have apart := List.pairwise_iff_getElem.mp laid.inOrder place otherPlace within otherWithin before
    omega
  · simp only [same]
  · have apart := List.pairwise_iff_getElem.mp laid.inOrder otherPlace place otherWithin within after
    omega

/-- A binding is asked at an event exactly when the event is inside no region of another binding. -/
theorem mem_schedule (laid : Laid bindings stretches) : position ∈ schedule bindings stretches index ↔
    position < bindings.length ∧ ∀ stretch ∈ stretches, stretch.position ≠ position →
      ¬ (stretch.first < index ∧ index < stretch.past) := by
  unfold schedule
  cases found : stretches.find? (·.pending bindings index) with
  | none =>
    rw [List.mem_range]
    refine (and_iff_left ?_).symm
    rintro stretch member - ⟨begun, inside⟩
    -- A region that goes on after its first event has a stop matcher, so it would be found open here.
    obtain ⟨-, binding, known, single⟩ := laid.shaped stretch member
    have stops : binding.stop.isSome = true := by
      rw [Option.isSome_iff_ne_none]
      intro none
      have one := single none
      omega
    have pending : stretch.pending bindings index = true :=
      pending_iff.mpr ⟨⟨binding, known, stops⟩, begun, Nat.le_of_lt inside⟩
    exact List.find?_eq_none.mp found stretch member pending
  | some stretch =>
    have member := List.mem_of_find?_eq_some found
    obtain ⟨⟨binding, known, -⟩, begun, reaches⟩ := pending_iff.mp (List.find?_some found)
    obtain ⟨within, -⟩ := List.getElem?_eq_some_iff.mp known
    have only {other : Stretch} (memberOther : other ∈ stretches)
        (around : other.first < index ∧ index < other.past) : other = stretch :=
      laid.eq_of_around member begun reaches memberOther around.1 around.2
    by_cases last : index = stretch.past
    · have free : ∀ other ∈ stretches, other.position ≠ position →
          ¬ (other.first < index ∧ index < other.past) := by
        intro other memberOther _ around
        have inside := around.2
        rw [only memberOther around] at inside
        omega
      simp only [if_pos last, List.mem_cons, List.mem_filter, List.mem_range, bne_iff_ne]
      constructor
      · rintro (rfl | ⟨inRange, -⟩)
        · exact ⟨within, free⟩
        · exact ⟨inRange, free⟩
      · rintro ⟨inRange, -⟩
        by_cases own : position = stretch.position
        · exact .inl own
        · exact .inr ⟨inRange, Ne.symm own⟩
    · simp only [if_neg last, List.mem_singleton]
      constructor
      · rintro rfl
        refine ⟨within, ?_⟩
        intro other memberOther different around
        exact different (congrArg Stretch.position (only memberOther around))
      · rintro ⟨-, free⟩
        apply Classical.byContradiction
        intro different
        exact free stretch member (Ne.symm different) ⟨begun, by omega⟩

private theorem schedule_nodup : (schedule bindings stretches index).Nodup := by
  unfold schedule
  split
  · exact List.nodup_range
  · rename_i stretch found
    split
    · refine List.nodup_cons.mpr ⟨?_, List.nodup_range.filter _⟩
      simp
    · exact List.nodup_singleton _

private theorem mem_questions {question : Nat × Side × Nat} :
    question ∈ questions bindings index position ↔ question.1 = position ∧ question.2.2 = index ∧
      ∃ binding, bindings[position]? = some binding ∧
        (question.2.1 = .stop → binding.stop.isSome = true) := by
  obtain ⟨asked, side, event⟩ := question
  unfold questions
  cases known : bindings[position]? with
  | none => simp
  | some binding =>
    cases stop : binding.stop <;> cases side <;> simp [Binding.questions, stop]

private theorem questions_nodup : (questions bindings index position).Nodup := by
  unfold questions
  cases bindings[position]? with
  | none => exact List.nodup_nil
  | some binding => cases stop : binding.stop <;> simp [Binding.questions, stop]

/-- No question comes twice. -/
theorem timetable_nodup : (timetable bindings stretches index).Nodup := by
  have apart {event position other place : Nat} {question : Nat × Side × Nat}
      (first : question ∈ questions bindings event position)
      (second : question ∈ questions bindings other place) : event = other ∧ position = place := by
    obtain ⟨rfl, rfl, -⟩ := mem_questions.mp first
    obtain ⟨rfl, rfl, -⟩ := mem_questions.mp second
    exact ⟨rfl, rfl⟩
  refine List.nodup_flatMap.mpr ⟨?_, ?_⟩
  · intro event _
    refine List.nodup_flatMap.mpr ⟨fun position _ => questions_nodup, ?_⟩
    refine schedule_nodup.imp ?_
    intro position other different question first second
    exact different (apart first second).2
  · refine List.nodup_range.imp ?_
    intro event other different question first second
    obtain ⟨position, -, first⟩ := List.mem_flatMap.mp first
    obtain ⟨place, -, second⟩ := List.mem_flatMap.mp second
    exact different (apart first second).1

private theorem mem_timetable {side : Side} {event : Nat} (laid : Laid bindings stretches) :
    (position, side, event) ∈ timetable bindings stretches index ↔ event < index ∧
      (∃ binding, bindings[position]? = some binding ∧ (side = .stop → binding.stop.isSome = true)) ∧
      ∀ stretch ∈ stretches, stretch.position ≠ position →
        ¬ (stretch.first < event ∧ event < stretch.past) := by
  simp only [timetable, List.mem_flatMap, List.mem_range, mem_questions, mem_schedule laid]
  constructor
  · rintro ⟨event, before, position, ⟨-, free⟩, rfl, rfl, asked⟩
    exact ⟨before, asked, free⟩
  · rintro ⟨before, ⟨binding, known, stops⟩, free⟩
    obtain ⟨within, -⟩ := List.getElem?_eq_some_iff.mp known
    exact ⟨event, before, position, ⟨within, free⟩, rfl, rfl, binding, known, stops⟩

/-- A pass that ends well has asked all that the timetable of its regions says, in that order. So a matcher
is asked at an event exactly when the event is inside no region of another binding, and never twice. -/
theorem emend_asks {document : Document} {policy : Policy} {memory : Memory World} {emended : Emended}
    (ended : (emend bindings document policy memory).answer = .ok emended) :
    let journal := (emend bindings document policy memory).journal
    journal.asked = timetable bindings journal.stretches document.events.length ∧
    (∀ position side event, (position, side, event) ∈ journal.asked ↔
      event < document.events.length ∧
      (∃ binding, bindings[position]? = some binding ∧ (side = .stop → binding.stop.isSome = true)) ∧
      ∀ other region, (other, region) ∈ journal.handed → other ≠ position →
        ¬ (region.firstIndex < event ∧ event < region.firstIndex + region.events.length)) ∧
    journal.asked.Nodup := by
  obtain ⟨pass, ran, outcome⟩ := Pass.emend_eq_ok.mp ended
  rw [outcome]
  obtain ⟨walked, -, ran, finished, -⟩ := Pass.all_eq_ok.mp ran
  have begun : Pass.Scheduled bindings 0
      ({ memory, writer := { source := document.source } } : Pass World) := .of_nothing rfl rfl
  have scheduled := Pass.events_scheduled begun ran
  rw [Nat.zero_add] at scheduled
  obtain ⟨asked, laid⟩ := Pass.finish_scheduled scheduled finished
  refine ⟨asked, ?_, ?_⟩
  · intro position side event
    dsimp only
    rw [asked, mem_timetable laid]
    refine and_congr_right fun _ => and_congr_right fun _ => ?_
    simp only [Journal.stretches, List.mem_map, Prod.exists, forall_exists_index, and_imp]
    constructor
    · intro free other region handed different
      exact free _ other region handed rfl different
    · rintro free _ other region handed rfl different
      exact free other region handed different
  · dsimp only
    rw [asked]
    exact timetable_nodup

end Emend
