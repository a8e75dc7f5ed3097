import Emend.Proofs.Edit.Schedule

/-! A pass done again from its journal. Every note of a question stands for one evaluation of that matcher,
and every note of a region that was handed over for one run of the callback. Done again in their order from
the memory that the pass began with, the notes lead to the memory that it left, so nothing was evaluated that
the journal does not tell. And the answers are the ones that drove the pass: by the greedy rule they give the
regions that were handed over. -/
namespace Emend
variable {World : Type} {bindings : List (Binding World)} {document : Document}

/-- A question of a pass, and what the matcher answered. -/
abbrev Answer := (Nat × Side × Nat) × Bool

def Binding.matcher (binding : Binding World) : Side → Option (Matcher World)
  | .start => some binding.start
  | .stop => binding.stop

/-- Does again what a note stands for. There is nothing to do for a note that only says where a region
opened or ended. -/
def Note.replay (bindings : List (Binding World)) (document : Document) (memory : Memory World) :
    Note → Option (List Answer × Memory World)
  | .asked position side index =>
    match bindings[position]?.bind (·.matcher side) with
    | none => none
    | some matcher =>
      match matcher.evaluate { document, index } memory with
      | .ok answer after => some ([((position, side, index), answer)], after)
      | .error .. => none
  | .handed position region writer =>
    match bindings[position]? with
    | none => none
    | some binding =>
      match (binding.callback region).run { writer, world := memory.world } with
      | .ok () left => some ([], { memory with world := left.world })
      | .error .. => none
  | .opened .. | .leftOpen .. | .closed .. => some ([], memory)

/-- Does again all that a journal tells, note by note, and collects the answers. -/
def Journal.replay (bindings : List (Binding World)) (document : Document) :
    Journal → Memory World → Option (List Answer × Memory World)
  | [], memory => some ([], memory)
  | note :: notes, memory => do
    let (answers, between) ← note.replay bindings document memory
    let (later, after) ← replay bindings document notes between
    return (answers ++ later, after)

/-- What a binding answers at each event, read off a table of answers. -/
def Binding.answering (binding : Binding World) (table : Nat × Side × Nat → Bool) (position : Nat) :
    Rule where
  starts index := table (position, .start, index)
  stops := binding.stop.map fun _ index => table (position, .stop, index)

def answering (bindings : List (Binding World)) (table : Nat × Side × Nat → Bool) : List Rule :=
  bindings.mapIdx fun position binding => binding.answering table position

def Agrees (table : Nat × Side × Nat → Bool) (answers : List Answer) : Prop :=
  ∀ given ∈ answers, table given.1 = given.2

namespace Journal
variable {notes more : Journal} {memory between after : Memory World} {answers later : List Answer}

theorem replay_cons_eq_some {note : Note} :
    replay bindings document (note :: notes) memory = some (answers, after) ↔ ∃ here between rest,
      note.replay bindings document memory = some (here, between) ∧
      replay bindings document notes between = some (rest, after) ∧ here ++ rest = answers := by
  simp only [replay, Option.bind_eq_bind, Option.bind_eq_some_iff, Option.pure_def, Option.some.injEq,
    Prod.exists, Prod.mk.injEq]
  constructor
  · rintro ⟨here, between, begun, rest, _, goes, rfl, rfl⟩
    exact ⟨here, between, rest, begun, goes, rfl⟩
  · rintro ⟨here, between, rest, begun, goes, rfl⟩
    exact ⟨here, between, begun, rest, after, goes, rfl, rfl⟩

/-- What was done again up to a note goes on from there. -/
theorem replay_append (begun : replay bindings document notes memory = some (answers, between))
    (goes : replay bindings document more between = some (later, after)) :
    replay bindings document (notes ++ more) memory = some (answers ++ later, after) := by
  induction notes generalizing memory answers with
  | nil =>
    cases begun
    exact goes
  | cons note notes ih =>
    obtain ⟨here, reached, rest, first, upToHere, rfl⟩ := replay_cons_eq_some.mp begun
    rw [List.cons_append, List.append_assoc]
    exact replay_cons_eq_some.mpr ⟨here, reached, _, first, ih upToHere, rfl⟩

private theorem asked_cons (note : Note) (notes : Journal) :
    asked (note :: notes) = asked [note] ++ asked notes :=
  List.filterMap_append (l := [note])

private theorem replay_note {note : Note}
    (done : note.replay bindings document memory = some (answers, after)) :
    answers.map Prod.fst = asked [note] := by
  cases note with
  | asked position side index =>
    simp only [Note.replay] at done
    split at done
    · cases done
    · split at done <;> cases done
      rfl
  | handed position region writer =>
    simp only [Note.replay] at done
    split at done
    · cases done
    · split at done <;> cases done
      rfl
  | opened | leftOpen | closed =>
    cases done
    rfl

/-- There is one answer for each question, in order. -/
theorem replay_asked (done : replay bindings document notes memory = some (answers, after)) :
    answers.map Prod.fst = notes.asked := by
  induction notes generalizing memory answers with
  | nil =>
    cases done
    rfl
  | cons note notes ih =>
    obtain ⟨here, reached, rest, first, goes, rfl⟩ := replay_cons_eq_some.mp done
    rw [asked_cons, List.map_append, replay_note first, ih goes]

end Journal

namespace Pass
variable {pass between after : Pass World} {answers later : List Answer} {index position : Nat}
  {binding : Binding World} {event : Event} {active : Active World} {region : Region} {count : Nat}
  {table : Nat × Side × Nat → Bool}

/-- From one state to the other the journal has grown by notes that, done again, answer like this and lead
from the one memory to the other. -/
def Replayed (bindings : List (Binding World)) (document : Document) (answers : List Answer)
    (before after : Pass World) : Prop :=
  ∃ notes, after.journal = before.journal ++ notes ∧
    Journal.replay bindings document notes before.memory = some (answers, after.memory)

theorem Replayed.trans (begun : Replayed bindings document answers pass between)
    (goes : Replayed bindings document later between after) :
    Replayed bindings document (answers ++ later) pass after := by
  obtain ⟨notes, journal, replayed⟩ := begun
  obtain ⟨more, further, goes⟩ := goes
  refine ⟨notes ++ more, ?_, Journal.replay_append replayed goes⟩
  rw [further, journal, List.append_assoc]

theorem Replayed.refl : Replayed bindings document [] pass pass :=
  ⟨[], (List.append_nil _).symm, rfl⟩

/-- A step whose notes can be done again, and what follows of it for every table with their answers. -/
def Drives (bindings : List (Binding World)) (document : Document) (before after : Pass World)
    (follows : (Nat × Side × Nat → Bool) → Prop) : Prop :=
  ∃ answers, Replayed bindings document answers before after ∧
    ∀ table, Agrees table answers → follows table

namespace Drives
variable {first second both : (Nat × Side × Nat → Bool) → Prop}

theorem mono (drives : Drives bindings document pass after first)
    (weaker : ∀ table, first table → second table) : Drives bindings document pass after second := by
  obtain ⟨answers, replayed, told⟩ := drives
  exact ⟨answers, replayed, fun table agrees => weaker table (told table agrees)⟩

theorem trans (begun : Drives bindings document pass between first)
    (goes : Drives bindings document between after second)
    (join : ∀ table, first table → second table → both table) :
    Drives bindings document pass after both := by
  obtain ⟨answers, replayed, told⟩ := begun
  obtain ⟨later, further, toldLater⟩ := goes
  refine ⟨answers ++ later, replayed.trans further, ?_⟩
  intro table agrees
  have agreesFirst : Agrees table answers := fun given member =>
    agrees given (List.mem_append_left _ member)
  have agreesLater : Agrees table later := fun given member =>
    agrees given (List.mem_append_right _ member)
  exact join table (told table agreesFirst) (toldLater table agreesLater)

/-- Where nothing is asked, no table has a say. -/
theorem of_unasked (replayed : Replayed bindings document [] pass after)
    (holds : ∀ table, first table) : Drives bindings document pass after first :=
  ⟨[], replayed, fun table _ => holds table⟩

private theorem then_unasked (drives : Drives bindings document pass between first)
    (quiet : Replayed bindings document [] between after) :
    Drives bindings document pass after first := by
  obtain ⟨answers, replayed, told⟩ := drives
  refine ⟨answers, ?_, told⟩
  rw [← List.append_nil answers]
  exact replayed.trans quiet

end Drives

private theorem ask_drives {side : Side} {matcher : Matcher World} {answer : Bool}
    (known : bindings[position]?.bind (·.matcher side) = some matcher)
    (ran : ask position side matcher { document, index } pass = .ok answer after) :
    Drives bindings document pass after fun table => table (position, side, index) = answer := by
  obtain ⟨memory, evaluated, rfl⟩ := ask_eq_ok.mp ran
  refine ⟨[((position, side, index), answer)], ⟨[.asked position side index], rfl, ?_⟩, ?_⟩
  · simp [Journal.replay, Note.replay, known, evaluated]
  · intro table agrees
    exact agrees _ (List.mem_singleton_self _)

private theorem askBoth_drives {started stopped : Bool} (known : bindings[position]? = some binding)
    (ran : askBoth position binding { document, index } pass = .ok (started, stopped) after) :
    Drives bindings document pass after fun table =>
      table (position, .start, index) = started ∧
      (binding.stop.isSome = true → table (position, .stop, index) = stopped) := by
  have starts : bindings[position]?.bind (·.matcher .start) = some binding.start := by
    rw [known]
    rfl
  cases stop : binding.stop with
  | none =>
    obtain ⟨-, ran⟩ := (askBoth_single_eq_ok stop).mp ran
    exact (ask_drives starts ran).mono fun table same => ⟨same, by simp⟩
  | some matcher =>
    have stops : bindings[position]?.bind (·.matcher .stop) = some matcher := by
      rw [known, Option.bind_some, Binding.matcher, stop]
    obtain ⟨between, begun, ran⟩ := (askBoth_double_eq_ok stop).mp ran
    exact (ask_drives starts begun).trans (ask_drives stops ran) fun table first second =>
      ⟨first, fun _ => second⟩

/-- What is chosen from a position on, by a table of the answers. -/
def Picks (bindings : List (Binding World)) (index position : Nat) (table : Nat × Side × Nat → Bool) :
    Option (Nat × Binding World) → Prop
  | none => ∀ other, position ≤ other → other < bindings.length → table (other, .start, index) = false
  | some (place, binding) => bindings[place]? = some binding ∧ table (place, .start, index) = true ∧
      ∀ other, position ≤ other → other < place → table (other, .start, index) = false

private theorem Picks.of_later {chosen : Option (Nat × Binding World)}
    (picks : Picks bindings index (position + 1) table chosen)
    (goes : table (position, .start, index) = false) : Picks bindings index position table chosen := by
  cases chosen with
  | none =>
    intro other lower upper
    rcases Nat.eq_or_lt_of_le lower with rfl | further
    · exact goes
    · exact picks other further upper
  | some pick =>
    obtain ⟨found, starts, before⟩ := picks
    refine ⟨found, starts, ?_⟩
    intro other lower upper
    rcases Nat.eq_or_lt_of_le lower with rfl | further
    · exact goes
    · exact before other further upper

/-- A survey chooses the first binding that starts by the answers it got, and by the one that it knew. -/
theorem survey_drives {left : List (Binding World)} {known : Option (Nat × Bool)}
    {chosen : Option (Nat × Binding World)} (there : bindings.drop position = left)
    (ran : survey { document, index } known position left pass = .ok chosen after) :
    Drives bindings document pass after fun table =>
      (∀ found ∈ known, table (found.1, .start, index) = found.2) →
        Picks bindings index position table chosen := by
  induction left generalizing position pass chosen with
  | nil =>
    obtain ⟨rfl, rfl⟩ := pure_eq_ok.mp ran
    have past : bindings.length ≤ position := List.drop_eq_nil_iff.mp there
    refine .of_unasked .refl ?_
    intro table told other lower upper
    omega
  | cons binding left ih =>
    obtain ⟨here, later⟩ := next_of_drop there
    obtain ⟨started, between, rest, answered, goes, rfl⟩ := survey_cons_eq_ok.mp ran
    have first : Drives bindings document pass between fun table =>
        (∀ found ∈ known, table (found.1, .start, index) = found.2) →
          table (position, .start, index) = started := by
      cases told : known.filter (·.1 == position) with
      | none =>
        rw [told] at answered
        obtain ⟨stopped, both⟩ := answered
        exact (askBoth_drives here both).mono fun table asked _ => asked.1
      | some answer =>
        rw [told] at answered
        obtain ⟨rfl, rfl⟩ := answered
        obtain ⟨same, holds⟩ := Option.filter_eq_some_iff.mp told
        refine .of_unasked .refl ?_
        intro table told
        rw [← beq_iff_eq.mp holds]
        exact told answer same
    refine first.trans (ih later goes) ?_
    intro table answered picks told
    have answer := answered told
    have onward := picks told
    cases started with
    | true => exact ⟨here, answer, fun other lower upper => by omega⟩
    | false => exact onward.of_later answer

/-- What is still to come at an event by the greedy rule: all that opens from there on, or the end of the
region that is open and what comes after it. -/
def due (rules : List Rule) (count index : Nat) : Mode World → List Stretch
  | .searching => greedy rules count index
  | .editing active =>
    match rules[active.position]?.bind Rule.stops with
    | none => []
    | some stops => ending rules count active.position active.index stops index

/-- The regions handed over so far, and those to come by a table of the answers. -/
def outlook (bindings : List (Binding World)) (document : Document) (index : Nat) (pass : Pass World)
    (table : Nat × Side × Nat → Bool) : List Stretch :=
  pass.journal.stretches ++ due (answering bindings table) document.events.length index pass.mode

private theorem getElem?_answering (known : bindings[position]? = some binding) :
    (answering bindings table)[position]? = some (binding.answering table position) := by
  rw [answering, List.getElem?_mapIdx, known, Option.map_some]

theorem due_editing (known : bindings[active.position]? = some active.binding)
    (stops : active.binding.stop.isSome = true) :
    due (answering bindings table) count index (.editing active) =
      ending (answering bindings table) count active.position active.index
        (fun event => table (active.position, .stop, event)) index := by
  obtain ⟨matcher, stop⟩ := Option.isSome_iff_exists.mp stops
  simp only [due, getElem?_answering known, Binding.answering, stop, Option.bind_some, Option.map_some]

/-- The region goes on where its stop matcher answers false. -/
private theorem due_goes (known : bindings[active.position]? = some active.binding)
    (stops : active.binding.stop.isSome = true) (goes : table (active.position, .stop, index) = false) :
    due (answering bindings table) count index (.editing active) =
      due (answering bindings table) count (index + 1)
        (.editing { active with rest := active.rest ++ [event] }) := by
  have longer : due (answering bindings table) count (index + 1)
      (.editing { active with rest := active.rest ++ [event] }) = _ := due_editing known stops
  rw [due_editing known stops, longer]
  exact ending_skip goes

private theorem due_closes (known : bindings[active.position]? = some active.binding)
    (stops : active.binding.stop.isSome = true) (inside : index < count)
    (closes : table (active.position, .stop, index) = true) :
    due (answering bindings table) count index (.editing active) =
      { position := active.position, first := active.index, past := index } ::
        greedy (answering bindings table) count index := by
  rw [due_editing known stops]
  exact ending_here inside closes

private theorem due_ends (known : bindings[active.position]? = some active.binding)
    (stops : active.binding.stop.isSome = true) :
    due (answering bindings table) count count (.editing active) =
      [{ position := active.position, first := active.index, past := count, terminated := false }] := by
  rw [due_editing known stops]
  exact ending_end (Nat.le_refl _)

/-- Where the table has no start, nothing opens by the greedy rule. -/
theorem Picks.starts_none (picks : Picks bindings index 0 table none) :
    (answering bindings table).any (·.starts index) = false := by
  rw [List.any_eq_false]
  intro rule member
  obtain ⟨place, within, rfl⟩ := List.mem_mapIdx.mp member
  have answer := picks place (Nat.zero_le _) within
  simp [Binding.answering, answer]

/-- The binding that was chosen is the one of the greedy rule. -/
theorem Picks.starts_first (picks : Picks bindings index 0 table (some (position, binding))) :
    (answering bindings table).findIdx (·.starts index) = position ∧
    (answering bindings table).find? (·.starts index) = some (binding.answering table position) := by
  obtain ⟨known, starts, before⟩ := picks
  have there : (answering bindings table)[position]? = some (binding.answering table position) :=
    getElem?_answering known
  obtain ⟨within, rule⟩ := List.getElem?_eq_some_iff.mp there
  have earlier : ∀ other (_ : other < position) (inside : other < (answering bindings table).length),
      (answering bindings table)[other].starts index = false := by
    intro other lower inside
    simp [answering, Binding.answering, before other (Nat.zero_le _) lower]
  refine ⟨(List.findIdx_eq within).mpr ⟨?_, fun other lower => earlier other lower _⟩, ?_⟩
  · rw [rule]
    exact starts
  · refine List.find?_eq_some_iff_getElem.mpr ⟨starts, position, within, rule, ?_⟩
    intro other lower
    rw [earlier other lower]
    rfl

/-- The callback of the region's own binding is the one that runs. -/
theorem handOver_replayed {nothing : Unit} (known : bindings[active.position]? = some active.binding)
    (ran : handOver active region pass = .ok nothing after) :
    Replayed bindings document [] pass after := by
  obtain ⟨inner, left, dropped, -, calledBack, -, rfl⟩ := handOver_eq_ok.mp ran
  refine ⟨_, rfl, ?_⟩
  simp [Journal.replay, Note.replay, known, calledBack, served]

/-- The region that is opened is the next one of the greedy rule. -/
theorem openAt_drives {nothing : Unit} (inside : index < document.events.length)
    (known : bindings[position]? = some binding)
    (ran : openAt position binding { document, index } event pass = .ok nothing after) :
    Drives bindings document pass after fun table =>
      Picks bindings index 0 table (some (position, binding)) →
        after.outlook bindings document (index + 1) table =
          pass.journal.stretches ++ greedy (answering bindings table) document.events.length index := by
  obtain ⟨writer, -, ran⟩ := openAt_eq_ok.mp ran
  have notes : Replayed bindings document [] pass (pass.opened position index event.start writer) :=
    ⟨_, rfl, rfl⟩
  have keeps : (pass.opened position index event.start writer).journal.stretches =
      pass.journal.stretches := by
    simp [opened, Journal.stretches, Journal.handed]
  cases stop : binding.stop with
  | none =>
    rw [stop] at ran
    obtain ⟨-, stretches, searching⟩ := handOver_stretches ran
    refine .of_unasked (notes.trans (handOver_replayed known ran)) fun table picks => ?_
    obtain ⟨first, found⟩ := picks.starts_first
    have single : (binding.answering table position).stops = none := by
      rw [Binding.answering, stop, Option.map_none]
    rw [greedy_single inside found single, first, outlook, stretches, keeps, searching, due,
      List.append_assoc]
    rfl
  | some matcher =>
    rw [stop] at ran
    cases ran
    refine .of_unasked notes fun table picks => ?_
    obtain ⟨first, found⟩ := picks.starts_first
    have stopping : (binding.answering table position).stops =
        some fun event => table (position, .stop, event) := by
      rw [Binding.answering, stop, Option.map_some]
    have begins : due (answering bindings table) document.events.length (index + 1)
        (.editing (activeAt position binding { document, index } event)) = _ :=
      due_editing known (Option.isSome_of_eq_some stop)
    rw [greedy_open inside found stopping, first, outlook, keeps, begins]
    rfl

/-- A search for the next region finds the one of the greedy rule. -/
theorem search_drives {nothing : Unit} {known : Option (Nat × Bool)}
    (inside : index < document.events.length) (searching : pass.mode = .searching)
    (ran : search bindings { document, index } event known pass = .ok nothing after) :
    Drives bindings document pass after fun table =>
      (∀ found ∈ known, table (found.1, .start, index) = found.2) →
        after.outlook bindings document (index + 1) table =
          pass.journal.stretches ++ greedy (answering bindings table) document.events.length index := by
  obtain ⟨chosen, between, surveyed, ran⟩ := search_eq_ok.mp ran
  have asks := survey_asks List.drop_zero surveyed
  have found := survey_picks List.drop_zero surveyed
  have picks := survey_drives List.drop_zero surveyed
  cases chosen with
  | none =>
    cases ran
    refine picks.mono fun table chosen told => ?_
    rw [outlook, asks.stretches, asks.mode, searching, due, greedy_skip (chosen told).starts_none]
  | some pick =>
    refine picks.trans (openAt_drives inside (found pick rfl) ran) fun table chosen opens told => ?_
    rw [opens (chosen told), asks.stretches]

/-- What is to come does not change at an event, but a part of it may have come by then. -/
theorem visit_drives {nothing : Unit} (scheduled : Scheduled bindings index pass)
    (inside : index < document.events.length)
    (ran : visit bindings { document, index } event pass = .ok nothing after) :
    Drives bindings document pass after fun table =>
      after.outlook bindings document (index + 1) table = pass.outlook bindings document index table := by
  cases mode : pass.mode with
  | searching =>
    rw [visit_searching mode] at ran
    refine (search_drives inside mode ran).mono fun table goes => ?_
    rw [goes (by simp), outlook, mode, due]
  | editing active =>
    obtain ⟨known, stops, past⟩ := scheduled.editing active mode
    obtain ⟨started, stopped, between, both, ran⟩ := (visit_editing_eq_ok mode).mp ran
    have asks := askBoth_asks both
    have answers := askBoth_drives known both
    cases stopped with
    | false =>
      cases ran
      have grows : Replayed bindings document [] between
          { between with mode := .editing { active with rest := active.rest ++ [event] } } := .refl
      refine (answers.then_unasked grows).mono ?_
      rintro table ⟨-, stopped⟩
      rw [outlook, outlook, mode, asks.stretches, due_goes known stops (stopped stops)]
    | true =>
      obtain ⟨closed, handed, ran⟩ := ran
      obtain ⟨-, stretches, searching⟩ := handOver_stretches handed
      have own : Drives bindings document pass closed _ :=
        answers.then_unasked (handOver_replayed known handed)
      refine own.trans (search_drives inside searching ran) ?_
      rintro table ⟨starts, stopped⟩ goes
      have told : ∀ found ∈ some (active.position, started),
          table (found.1, .start, index) = found.2 := by
        intro found given
        cases Option.mem_some_iff.mp given
        exact starts
      have region : (active.stoppedAt document.source event).stretch active.position =
          { position := active.position, first := active.index, past := index } := by
        rw [← past]
        rfl
      rw [goes told, stretches, asks.stretches, region, outlook, mode,
        due_closes known stops inside (stopped stops), List.append_assoc]
      rfl

/-- All events, from `index` on. -/
theorem events_drives {nothing : Unit} {left : List Event} (scheduled : Scheduled bindings index pass)
    (there : document.events.drop index = left)
    (ran : events bindings document left index pass = .ok nothing after) :
    Drives bindings document pass after fun table =>
      after.outlook bindings document (index + left.length) table =
        pass.outlook bindings document index table := by
  induction left generalizing index pass with
  | nil =>
    cases ran
    exact .of_unasked .refl fun _ => rfl
  | cons event left ih =>
    obtain ⟨found, later⟩ := next_of_drop there
    obtain ⟨inside, -⟩ := List.getElem?_eq_some_iff.mp found
    obtain ⟨between, visited, -, ran⟩ := events_cons_eq_ok.mp ran
    have here := visit_drives scheduled inside visited
    refine here.trans (ih (visit_scheduled scheduled visited) later ran) fun table same rest => ?_
    rw [← same, ← rest, List.length_cons, Nat.add_right_comm, Nat.add_assoc]

/-- When the events have run out, all that is to come is the region that is still open. -/
theorem finish_drives {nothing : Unit} {policy : Policy}
    (scheduled : Scheduled bindings document.events.length pass)
    (ran : finish policy document.source pass = .ok nothing after) :
    Drives bindings document pass after fun table =>
      after.journal.stretches = pass.outlook bindings document document.events.length table := by
  cases mode : pass.mode with
  | searching =>
    obtain ⟨writer, -, rfl⟩ := (finish_searching_eq_ok mode).mp ran
    have copies : Replayed bindings document [] pass { pass with writer } := .refl
    refine .of_unasked copies fun table => ?_
    rw [outlook, mode, due, greedy_end (Nat.le_refl _), List.append_nil]
  | editing active =>
    obtain ⟨known, stops, past⟩ := scheduled.editing active mode
    obtain ⟨-, closed, writer, handed, -, rfl⟩ := (finish_editing_eq_ok mode).mp ran
    obtain ⟨-, stretches, -⟩ := handOver_stretches handed
    have notes : Replayed bindings document [] pass (pass.unstopped active document.source) :=
      ⟨_, rfl, rfl⟩
    have keeps : (pass.unstopped active document.source).journal.stretches = pass.journal.stretches := by
      simp [unstopped, Journal.stretches, Journal.handed]
    have copies : Replayed bindings document [] closed { closed with writer } := .refl
    have region : (active.unstopped document.source).stretch active.position =
        { position := active.position, first := active.index, past := document.events.length,
          terminated := false } := by
      rw [← past]
      rfl
    have all := notes.trans (handOver_replayed known handed)
    refine .of_unasked (all.trans copies) fun table => ?_
    rw [outlook, mode, due_ends known stops, stretches, keeps, region]

end Pass

/-- A pass that ends well can be done again from its journal, and by the answers to its questions the greedy
rule has the regions that it handed over. -/
theorem emend_replays {policy : Policy} {memory : Memory World} {emended : Emended}
    (ended : (emend bindings document policy memory).answer = .ok emended) :
    let outcome := emend bindings document policy memory
    ∃ answers, outcome.journal.replay bindings document memory = some (answers, outcome.memory) ∧
      ∀ table, Agrees table answers →
        outcome.journal.stretches = greedy (answering bindings table) document.events.length 0 := by
  obtain ⟨pass, ran, outcome⟩ := Pass.emend_eq_ok.mp ended
  rw [outcome]
  obtain ⟨walked, -, ran, finished, -⟩ := Pass.all_eq_ok.mp ran
  have begun : Pass.Scheduled bindings 0
      ({ memory, writer := { source := document.source } } : Pass World) := .of_nothing rfl rfl
  have scheduled := Pass.events_scheduled begun ran
  have walks := Pass.events_drives begun List.drop_zero ran
  rw [Nat.zero_add] at scheduled walks
  obtain ⟨answers, ⟨notes, journal, replayed⟩, told⟩ :=
    walks.trans (Pass.finish_drives scheduled finished) fun table first last => last.trans first
  rw [List.nil_append] at journal
  refine ⟨answers, ?_, ?_⟩
  · rw [journal]
    exact replayed
  · intro table agrees
    exact told table agrees

/-- If each question was put once, the answers are the ones of the table of those that were true. -/
theorem agrees_of_nodup {answers : List Answer} (once : (answers.map Prod.fst).Nodup) :
    Agrees (fun question => decide ((question, true) ∈ answers)) answers := by
  rintro ⟨question, answer⟩ member
  cases answer with
  | true => exact decide_eq_true member
  | false =>
    apply decide_eq_false
    intro other
    have same := List.inj_on_of_nodup_map once member other rfl
    cases same

/-- A pass that ends well asks what the timetable of its regions says, in that order: at each event the
bindings in their order, each its start matcher and then its stop matcher; but while a region is open its
own binding first, and the others only where it stops. So a matcher is asked at an event exactly when the
event is inside no region of another binding, and never twice. Each question is one evaluation: done again
in this order, with the callbacks in between, they lead to the memory that the pass left, and by their
answers the greedy rule has the regions of the pass. -/
theorem emended_questions_scheduled {policy : Policy} {memory : Memory World} {emended : Emended}
    (ended : (emend bindings document policy memory).answer = .ok emended) :
    let outcome := emend bindings document policy memory
    let journal := outcome.journal
    journal.asked = timetable bindings journal.stretches document.events.length ∧
    (∀ position side event, (position, side, event) ∈ journal.asked ↔
      event < document.events.length ∧
      (∃ binding, bindings[position]? = some binding ∧ (side = .stop → binding.stop.isSome = true)) ∧
      ∀ other region, (other, region) ∈ journal.handed → other ≠ position →
        ¬ (region.firstIndex < event ∧ event < region.firstIndex + region.events.length)) ∧
    journal.asked.Nodup ∧
    ∃ answers, journal.replay bindings document memory = some (answers, outcome.memory) ∧
      answers.map Prod.fst = journal.asked ∧
      journal.stretches = greedy (answering bindings fun question => decide ((question, true) ∈ answers))
        document.events.length 0 := by
  intro outcome journal
  obtain ⟨asked, inside, once⟩ := emend_asks ended
  obtain ⟨answers, replayed, told⟩ := emend_replays ended
  have questions : answers.map Prod.fst = journal.asked := Journal.replay_asked replayed
  refine ⟨asked, inside, once, answers, replayed, questions, told _ (agrees_of_nodup ?_)⟩
  rw [questions]
  exact once

/-- Copies its region and counts it. -/
def counting (region : Region) : Script Nat :=
  .tell (· + 1) (.once (.copyTo region.span.stop))

/-- For the second binding the region from the first event behind event 0 up to the event after event 2, and
for the first binding every event once a region has been counted. -/
def preceded : List (Binding Nat) := [
  { start := .predicate { label := "counted", run := fun _ regions => .ok (decide (0 < regions)) regions }
    stop := none, callback := counting },
  { start := .oneShot 0 (.predicate { label := "behind", run := fun cursor => pure (0 < cursor.index) })
    stop := some (.fallingEdge 1 (.predicate {
      label := "second", run := fun cursor => pure (cursor.index == 2) }))
    callback := counting }]

def precededAnswers : List Answer := [
  ((0, .start, 0), false), ((1, .start, 0), false), ((1, .stop, 0), false),
  ((0, .start, 1), false), ((1, .start, 1), true), ((1, .stop, 1), false),
  ((1, .start, 2), false), ((1, .stop, 2), false),
  ((1, .start, 3), false), ((1, .stop, 3), true), ((0, .start, 3), true),
  ((0, .start, 4), true), ((1, .start, 4), false), ((1, .stop, 4), false)]

/-- Event 2 is the second binding's alone. At event 3 it comes before the first, whose matcher sees there
that a region has been counted. -/
theorem preceded_questions_scheduled :
    let outcome := emend preceded fiveRules .handOver { world := 0 }
    outcome.journal.asked = precededAnswers.map Prod.fst ∧ outcome.journal.asked.Nodup ∧
    outcome.journal.replay preceded fiveRules { world := 0 } = some (precededAnswers, outcome.memory) ∧
    outcome.memory.world = 3 ∧
    greedy (answering preceded fun question => decide ((question, true) ∈ precededAnswers)) 5 0 = [
      { position := 1, first := 1, past := 3 }, { position := 0, first := 3, past := 4 },
      { position := 0, first := 4, past := 5 }] := by
  have ended : (emend preceded fiveRules .handOver { world := 0 }).answer =
      .ok { text := ['a', 'b', 'c', 'd', 'e'], regions := 3 } := by
    cbv
  obtain ⟨-, -, once, answers, replayed, asked, regions⟩ := emended_questions_scheduled ended
  have answered : ((emend preceded fiveRules .handOver { world := 0 }).journal.replay preceded fiveRules
      { world := 0 }).map Prod.fst = some precededAnswers := by
    cbv
  have same : answers = precededAnswers := by
    rw [replayed] at answered
    exact Option.some.inj answered
  subst same
  have counted : (emend preceded fiveRules .handOver { world := 0 }).memory.world = 3 := by
    cbv
  have stretches : (emend preceded fiveRules .handOver { world := 0 }).journal.stretches = [
      { position := 1, first := 1, past := 3 }, { position := 0, first := 3, past := 4 },
      { position := 0, first := 4, past := 5 }] := by
    cbv
  exact ⟨asked.symm, once, replayed, counted, regions.symm.trans stretches⟩

end Emend
