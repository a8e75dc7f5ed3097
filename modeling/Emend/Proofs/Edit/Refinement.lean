import Emend.Proofs.Edit.Endings
import Emend.Proofs.Edit.Greedy
import Emend.Proofs.Stream.Order

/-! A pass goes from event to event, the greedy rule from region to region. The two agree wherever the
answers of the bindings are foretold: while a pass searches, what it has yet to hand over is what the rule
finds from the next event on, and while a region is open, it is that region with its end yet to come. -/
namespace Emend
variable {World : Type} {bindings : List (Binding World)} {rules : List Rule} {document : Document}
  {ready : Nat → Registers → Prop} {index position : Nat} {event : Event} {all : List Stretch}

/-- The position, the first index and the events of a turn's region, and whether it was stopped. -/
def Turn.outline (turn : Turn) : Nat × Nat × List Event × Bool :=
  (turn.position, turn.region.firstIndex, turn.region.events, turn.region.terminated)

def Stretch.outline (document : Document) (stretch : Stretch) : Nat × Nat × List Event × Bool :=
  (stretch.position, stretch.first, stretch.events document, stretch.terminated)

/-- The binding chosen at an event is the first whose rule starts there. -/
def Chosen (bindings : List (Binding World)) (rules : List Rule) (index : Nat) :
    Option (Nat × Binding World) → Prop
  | none => rules.any (·.starts index) = false
  | some (position, binding) => bindings[position]? = some binding ∧
      rules.findIdx (·.starts index) = position ∧
      ∃ rule, rules.find? (·.starts index) = some rule ∧ rules[position]? = some rule ∧
        rule.stops.isSome = binding.stop.isSome

/-- The rules say what the bindings answer, in all ways in which a pass asks them at an event. What the
answers depend on is kept `ready` from one event to the next. -/
structure Foretold (bindings : List (Binding World)) (document : Document) (rules : List Rule)
    (ready : Nat → Registers → Prop) : Prop where
  survey : ∀ {index : Nat} {pass : Pass World}, index < document.events.length →
    ready index pass.memory.registers →
    ∃ chosen after, Pass.survey { document, index } none 0 bindings pass = .ok chosen after ∧
      ready (index + 1) after.memory.registers ∧ Chosen bindings rules index chosen
  ask : ∀ {index position : Nat} {pass : Pass World} {binding : Binding World} {rule : Rule}
    {stops : Nat → Bool}, index < document.events.length → ready index pass.memory.registers →
    bindings[position]? = some binding → rules[position]? = some rule → rule.stops = some stops →
    ∃ after, Pass.askBoth position binding { document, index } pass =
        .ok (rule.starts index, stops index) after ∧ ready (index + 1) after.memory.registers
  again : ∀ {index position : Nat} {pass : Pass World} {rule : Rule}, index < document.events.length →
    ready (index + 1) pass.memory.registers → rules[position]? = some rule →
    ∃ chosen after, Pass.survey { document, index } (some (position, rule.starts index)) 0 bindings
        pass = .ok chosen after ∧
      ready (index + 1) after.memory.registers ∧ Chosen bindings rules index chosen

/-- The events of the document from `first` on and before `past`. -/
private theorem slice_snoc {first past : Nat} (found : document.events[past]? = some event)
    (lower : first ≤ past) : (document.events.drop first).take (past + 1 - first) =
      (document.events.drop first).take (past - first) ++ [event] := by
  have more : past + 1 - first = past - first + 1 := by omega
  have there : first + (past - first) = past := by omega
  rw [more, List.take_add_one, List.getElem?_drop, there, found]
  rfl

namespace Pass
variable {pass between after : Pass World} {active : Active World} {rest : List Stretch}

/-- What was handed over so far and what is yet to come make up all there is, in order. -/
def Told (document : Document) (all rest : List Stretch) (pass : Pass World) : Prop :=
  pass.journal.turns.map Turn.outline ++ rest.map (Stretch.outline document) =
    all.map (Stretch.outline document)

namespace Told

theorem of_same_turns (told : Told document all rest pass)
    (same : after.journal.turns = pass.journal.turns) : Told document all rest after := by
  unfold Told
  rw [same]
  exact told

/-- Handing over the region that was due. -/
theorem of_handed {region : Region} {stretch : Stretch} (told : Told document all (stretch :: rest) pass)
    (handed : Handed pass after stretch.position region)
    (first : region.firstIndex = stretch.first) (same : region.events = stretch.events document)
    (ended : region.terminated = stretch.terminated) : Told document all rest after := by
  obtain ⟨inner, left, turns⟩ := handed
  unfold Told at told ⊢
  rw [turns, ← told]
  simp [Turn.outline, Stretch.outline, first, same, ended]

end Told

/-- What a pass that stands before the event at `index` has yet to hand over, by its mode. -/
def Awaits (bindings : List (Binding World)) (rules : List Rule) (document : Document) (index : Nat)
    (rest : List Stretch) : Mode World → Prop
  | .searching => rest = greedy rules document.events.length index
  | .editing active => bindings[active.position]? = some active.binding ∧ active.index < index ∧
      active.opening :: active.rest =
        (document.events.drop active.index).take (index - active.index) ∧
      active.opening.start ≤ document.source.length ∧
      ∃ rule stops, rules[active.position]? = some rule ∧ rule.stops = some stops ∧
        rest = ending rules document.events.length active.position active.index stops index

/-- A pass that stands before the event at `index` has handed over what the greedy rule has up to there. -/
structure Tracks (bindings : List (Binding World)) (rules : List Rule) (document : Document)
    (ready : Nat → Registers → Prop) (all : List Stretch) (index : Nat) (pass : Pass World) : Prop where
  steady : Steady bindings document.source pass
  ready : ready index pass.memory.registers
  awaits : ∃ rest, Awaits bindings rules document index rest pass.mode ∧ Told document all rest pass

namespace Tracks

private theorem of_searching (steady : Steady bindings document.source pass)
    (keeps : ready index pass.memory.registers) (searching : pass.mode = .searching)
    (told : Told document all (greedy rules document.events.length index) pass) :
    Tracks bindings rules document ready all index pass := by
  refine ⟨steady, keeps, _, ?_, told⟩
  rw [searching]
  exact rfl

end Tracks

/-- The binding that is chosen at an event opens the region that the rule has there. -/
private theorem openAt_tracks {binding : Binding World} (valid : document.Valid)
    (found : document.events[index]? = some event) (steady : Steady bindings document.source pass)
    (keeps : ready (index + 1) pass.memory.registers)
    (choice : Chosen bindings rules index (some (position, binding)))
    (told : Told document all (greedy rules document.events.length index) pass) :
    Ends bindings (openAt position binding { document, index } event) pass fun _ after =>
      Tracks bindings rules document ready all (index + 1) after := by
  obtain ⟨inside, -⟩ := List.getElem?_eq_some_iff.mp found
  have within : event.stop ≤ document.source.length :=
    valid.within event (List.mem_of_getElem? found)
  have one : (document.events.drop index).take (index + 1 - index) = [event] := by
    rw [slice_snoc found (Nat.le_refl index), Nat.sub_self, List.take_zero, List.nil_append]
  obtain ⟨known, rfl, rule, first, atPosition, stopping⟩ := choice
  apply (openAt_ends steady known within).mono
  rintro _ after ⟨steadyAfter, registers, opened⟩
  rw [← registers] at keeps
  unfold Opened at opened
  cases stops : binding.stop with
  | none =>
    rw [stops] at opened stopping
    obtain ⟨searching, handed⟩ := opened
    rw [greedy_single inside first (Option.not_isSome_iff_eq_none.mp (by simp [stopping]))] at told
    exact .of_searching steadyAfter keeps searching (told.of_handed handed rfl one.symm rfl)
  | some stop =>
    rw [stops] at opened stopping
    obtain ⟨mode, same⟩ := opened
    obtain ⟨accepts, stopping⟩ := Option.isSome_iff_exists.mp stopping
    have starts : event.start ≤ document.source.length := Nat.le_trans event.span.ordered within
    have awaits : Awaits bindings rules document (index + 1)
        (ending rules document.events.length (rules.findIdx (·.starts index)) index accepts (index + 1))
        after.mode := by
      rw [mode]
      exact ⟨known, Nat.lt_succ_self index, one.symm, starts, rule, accepts, atPosition, stopping, rfl⟩
    rw [greedy_open inside first stopping] at told
    exact ⟨steadyAfter, keeps, _, awaits, told.of_same_turns same⟩

/-- A search at an event leaves open or hands over what the rule says starts there. -/
private theorem search_tracks {known : Option (Nat × Bool)} {chosen : Option (Nat × Binding World)}
    (valid : document.Valid) (found : document.events[index]? = some event)
    (steady : Steady bindings document.source pass) (searching : pass.mode = .searching)
    (surveyed : survey { document, index } known 0 bindings pass = .ok chosen between)
    (keeps : ready (index + 1) between.memory.registers) (choice : Chosen bindings rules index chosen)
    (told : Told document all (greedy rules document.events.length index) pass) :
    Ends bindings (search bindings { document, index } event known) pass fun _ after =>
      Tracks bindings rules document ready all (index + 1) after := by
  have heard := (survey_heard { document, index } known 0 bindings).of_ok surveyed
  obtain ⟨steadyBetween, turns⟩ := steady.of_heard heard
  have told := told.of_same_turns turns
  have asked : Ends bindings (survey { document, index } known 0 bindings) pass
      fun answer reached => chosen = answer ∧ between = reached := .of_ok surveyed ⟨rfl, rfl⟩
  refine asked.bind ?_
  rintro _ _ ⟨rfl, rfl⟩
  cases chosen with
  | none =>
    rw [greedy_skip choice] at told
    exact .of_ok_unit rfl (.of_searching steadyBetween keeps (heard.mode.trans searching) told)
  | some pick =>
    obtain ⟨position, binding⟩ := pick
    exact openAt_tracks valid found steadyBetween keeps choice told

/-- The binding of an open region does not stop at the event, and the event is the region's. -/
private theorem continue_tracks {rule : Rule} {stops : Nat → Bool}
    (found : document.events[index]? = some event) (steady : Steady bindings document.source pass)
    (keeps : ready (index + 1) pass.memory.registers)
    (awaits : Awaits bindings rules document index rest (.editing active))
    (told : Told document all rest pass) (atPosition : rules[active.position]? = some rule)
    (stopping : rule.stops = some stops) (goes : stops index = false) :
    Tracks bindings rules document ready all (index + 1)
      { pass with mode := .editing { active with rest := active.rest ++ [event] } } := by
  obtain ⟨known, lower, events, starts, other, accepts, same, accepting, rfl⟩ := awaits
  cases atPosition.symm.trans same
  cases stopping.symm.trans accepting
  obtain ⟨steadyAfter, -⟩ : Steady bindings document.source
      { pass with mode := .editing { active with rest := active.rest ++ [event] } } ∧ _ :=
    steady.of_silent .nil (List.append_nil _).symm rfl steady.ready.anchored steady.ready.free
  have more : active.opening :: (active.rest ++ [event]) =
      (document.events.drop active.index).take (index + 1 - active.index) := by
    rw [slice_snoc found (Nat.le_of_lt lower), ← events]
    rfl
  rw [ending_skip goes] at told
  exact ⟨steadyAfter, keeps, _,
    ⟨known, Nat.lt_succ_of_lt lower, more, starts, rule, stops, atPosition, stopping, rfl⟩, told⟩

/-- The binding of an open region stops at the event: the region is handed over, and the search goes on
at the same event. -/
private theorem stop_tracks {rule : Rule} {stops : Nat → Bool} (valid : document.Valid)
    (foretold : Foretold bindings document rules ready)
    (found : document.events[index]? = some event) (steady : Steady bindings document.source pass)
    (keeps : ready (index + 1) pass.memory.registers)
    (awaits : Awaits bindings rules document index rest (.editing active))
    (told : Told document all rest pass) (atPosition : rules[active.position]? = some rule)
    (stopping : rule.stops = some stops) (closes : stops index = true) :
    Ends bindings (do
      handOver active (active.stoppedAt document.source event)
      search bindings { document, index } event (some (active.position, rule.starts index))) pass
      fun _ after => Tracks bindings rules document ready all (index + 1) after := by
  obtain ⟨inside, -⟩ := List.getElem?_eq_some_iff.mp found
  obtain ⟨known, lower, events, starts, other, accepts, same, accepting, rfl⟩ := awaits
  cases atPosition.symm.trans same
  cases stopping.symm.trans accepting
  have stopped : (active.stoppedAt document.source event).span.stop ≤ document.source.length := by
    have within := valid.within event (List.mem_of_getElem? found)
    have ordered := event.span.ordered
    simp only [Active.stoppedAt, Span.reach, Event.start, Event.stop] at starts within ⊢
    omega
  rw [ending_here inside closes] at told
  refine (handOver_ends steady known stopped).bind ?_
  rintro _ closed ⟨steadyClosed, searching, registers, handed⟩
  rw [← registers] at keeps
  obtain ⟨chosen, asked, surveyed, keeps, choice⟩ := foretold.again inside keeps atPosition
  exact search_tracks valid found steadyClosed searching surveyed keeps choice
    (told.of_handed handed rfl events rfl)

/-- One event moves both sides on by one event. -/
theorem visit_tracks (valid : document.Valid) (foretold : Foretold bindings document rules ready)
    (found : document.events[index]? = some event)
    (tracks : Tracks bindings rules document ready all index pass) :
    Ends bindings (visit bindings { document, index } event) pass fun _ after =>
      Tracks bindings rules document ready all (index + 1) after := by
  obtain ⟨steady, kept, rest, awaits, told⟩ := tracks
  obtain ⟨inside, -⟩ := List.getElem?_eq_some_iff.mp found
  cases mode : pass.mode with
  | searching =>
    rw [mode] at awaits
    cases awaits
    obtain ⟨chosen, between, surveyed, keeps, choice⟩ := foretold.survey inside kept
    exact .of_eq (visit_searching mode)
      (search_tracks valid found steady mode surveyed keeps choice told)
  | editing active =>
    rw [mode] at awaits
    obtain ⟨known, -, -, -, rule, stops, atPosition, stopping, -⟩ := id awaits
    obtain ⟨between, asked, keeps⟩ := foretold.ask inside kept known atPosition stopping
    have heard := (askBoth_heard active.position active.binding _).of_ok asked
    obtain ⟨steadyBetween, turns⟩ := steady.of_heard heard
    have told := told.of_same_turns turns
    have answers : Ends bindings (askBoth active.position active.binding { document, index }) pass
        fun answer reached => (rule.starts index, stops index) = answer ∧ between = reached :=
      .of_ok asked ⟨rfl, rfl⟩
    refine .of_eq (visit_editing mode) (answers.bind ?_)
    rintro _ _ ⟨rfl, rfl⟩
    cases closes : stops index with
    | false =>
      exact .of_ok_unit (modify_eq_ok.mpr rfl)
        (continue_tracks found steadyBetween keeps awaits told atPosition stopping closes)
    | true =>
      exact stop_tracks valid foretold found steadyBetween keeps awaits told atPosition stopping closes

/-- All events, from `index` on. -/
theorem events_tracks (valid : document.Valid) (foretold : Foretold bindings document rules ready)
    {left : List Event} (there : document.events.drop index = left)
    (tracks : Tracks bindings rules document ready all index pass) :
    Ends bindings (events bindings document left index) pass fun _ after =>
      Tracks bindings rules document ready all (index + left.length) after := by
  induction left generalizing index pass with
  | nil => exact .of_ok_unit rfl tracks
  | cons event left ih =>
    obtain ⟨found, later⟩ := next_of_drop there
    refine (visit_tracks valid foretold found tracks).bind ?_
    intro _ between tracks
    have next := ih later tracks
    rw [Nat.add_right_comm, Nat.add_assoc] at next
    exact next.after_check valid (index + 1)

/-- The copy of what is left adds no turn. -/
private theorem copyRest_told (steady : Steady bindings document.source pass)
    (told : Told document all [] pass) :
    Ends bindings (atDesk (.once (.copyTo document.source.length))) pass fun _ after =>
      Steady bindings document.source after ∧ Told document all [] after := by
  obtain ⟨writer, copied, anchored, free⟩ := steady.copyTo_within (Nat.le_refl _)
  obtain ⟨steadyAfter, turns⟩ : Steady bindings document.source { pass with writer } ∧ _ :=
    steady.of_silent .nil (List.append_nil _).symm rfl anchored free
  exact .of_ok_unit (copying_eq_ok.mpr ⟨writer, copied, rfl⟩) ⟨steadyAfter, told.of_same_turns turns⟩

/-- After the last event only a region that is still open is left, and it is handed over. -/
theorem finish_told (tracks : Tracks bindings rules document ready all document.events.length pass) :
    Ends bindings (finish .handOver document.source) pass fun _ after =>
      Steady bindings document.source after ∧ Told document all [] after := by
  obtain ⟨steady, -, rest, awaits, told⟩ := tracks
  cases mode : pass.mode with
  | searching =>
    rw [mode] at awaits
    cases awaits
    rw [greedy_end (Nat.le_refl _)] at told
    exact .of_eq (finish_searching mode) (copyRest_told steady told)
  | editing active =>
    rw [mode] at awaits
    obtain ⟨known, -, events, starts, rule, stops, -, -, rfl⟩ := awaits
    rw [ending_end (Nat.le_refl _)] at told
    obtain ⟨noted, turns⟩ :
        Steady bindings document.source (pass.unstopped active document.source) ∧ _ :=
      steady.of_silent (.of_leftOpen active.index) rfl rfl steady.ready.anchored steady.ready.free
    have inside : (active.unstopped document.source).span.stop ≤ document.source.length :=
      Nat.max_le.mpr ⟨starts, Nat.le_refl _⟩
    refine .of_eq (finish_editing mode) ((handOver_ends noted known inside).bind ?_)
    rintro _ closed ⟨steadyClosed, -, -, handed⟩
    exact copyRest_told steadyClosed ((told.of_same_turns turns).of_handed handed rfl events rfl)

/-- A whole pass, from its first event to the copy of what is left. -/
theorem all_told {memory : Memory World} (valid : document.Valid)
    (foretold : Foretold bindings document rules ready) (begun : ready 0 memory.registers) :
    Ends bindings (Pass.all bindings document .handOver)
      { memory, writer := { source := document.source } } fun emended after =>
      Steady bindings document.source after ∧ after.regions = emended.regions ∧
      Told document (greedy rules document.events.length 0) [] after := by
  have starts : Ends bindings (ofExcept (Cursor.start document))
      { memory, writer := { source := document.source } } fun cursor reached =>
        ({ document } : Cursor) = cursor ∧
        ({ memory, writer := { source := document.source } } : Pass World) = reached := by
    rw [valid.start_eq_ok]
    exact .of_ok rfl ⟨rfl, rfl⟩
  have steady : Steady bindings document.source
      ({ memory, writer := { source := document.source } } : Pass World) :=
    ⟨⟨rfl, rfl, .nil, rfl⟩, rfl, by simp [Journal.turns]⟩
  have tracks : Tracks bindings rules document ready (greedy rules document.events.length 0) 0
      { memory, writer := { source := document.source } } := .of_searching steady begun rfl rfl
  refine starts.bind ?_
  rintro _ _ ⟨rfl, rfl⟩
  refine (events_tracks valid foretold (List.drop_zero) tracks).bind ?_
  intro _ walked tracks
  rw [Nat.zero_add] at tracks
  refine (finish_told tracks).bind ?_
  rintro _ finished ⟨steady, told⟩
  exact .of_ok rfl ⟨steady, rfl, told⟩

end Pass

/-- Where the answers of the bindings are foretold and no callback fails, a pass ends well. It hands over
the regions of the greedy rule in their order, each to the callback of its own binding and once, and
counts them. -/
theorem emend_follows {memory : Memory World} (valid : document.Valid)
    (foretold : Foretold bindings document rules ready) (begun : ready 0 memory.registers)
    (calm : ¬ (emend bindings document .handOver memory).CallbackFailed bindings) :
    let outcome := emend bindings document .handOver memory
    let stretches := greedy rules document.events.length 0
    ∃ emended, outcome.answer = .ok emended ∧ emended.regions = stretches.length ∧
      outcome.journal.turns.map Turn.outline = stretches.map (Stretch.outline document) ∧
      outcome.journal.handed = outcome.journal.turns.map (fun turn => (turn.position, turn.region)) ∧
      ∀ turn ∈ outcome.journal.turns, turn.Served bindings := by
  have ends := Pass.all_told valid foretold begun
  unfold Outcome.CallbackFailed emend at calm
  unfold Pass.Ends at ends
  unfold emend
  cases ran : Pass.all bindings document .handOver
      { memory, writer := { source := document.source } } with
  | error fault failed =>
    rw [ran] at ends calm
    exact absurd ⟨fault, rfl, ends⟩ calm
  | ok emended after =>
    rw [ran] at ends
    obtain ⟨steady, counted, told⟩ := ends
    rw [Pass.Told, List.map_nil, List.append_nil] at told
    refine ⟨emended, rfl, ?_, told, steady.ready.handed, steady.served⟩
    have lengths := congrArg List.length told
    simp only [List.length_map] at lengths
    rw [← counted, steady.counted, lengths]

end Emend
