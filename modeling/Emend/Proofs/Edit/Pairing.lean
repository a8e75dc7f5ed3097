import Emend.Proofs.Edit.Priority

/-! A search finds the events that an edit is anchored at, also where the matchers keep state. A pass asks
each matcher of its only binding once at every event, open region or not, so the matchers go through the
document as a search takes them through it, and the regions are the matches paired off. -/
namespace Emend
variable {World : Type} {binding : Binding World} {document : Document} {rule : Rule}
  {stops : Nat → Bool} {count low index : Nat}

/-- From `low` on, the least start opens a region, the least stop after it ends the region, and the next
pair is looked for from that stop on. A region without a stop is the last. -/
def Paired (starts stops : List Nat) : Nat → List (Nat × Option Nat) → Prop
  | low, [] => (starts.filter (low ≤ ·)).min? = none
  | low, (first, none) :: rest => (starts.filter (low ≤ ·)).min? = some first ∧
      (stops.filter (first < ·)).min? = none ∧ rest = []
  | low, (first, some stop) :: rest => (starts.filter (low ≤ ·)).min? = some first ∧
      (stops.filter (first < ·)).min? = some stop ∧ Paired starts stops stop rest

def Region.bounds (region : Region) : Nat × Option Nat :=
  (region.firstIndex,
    if region.terminated then some (region.firstIndex + region.events.length) else none)

def Stretch.bounds (stretch : Stretch) : Nat × Option Nat :=
  (stretch.first, if stretch.terminated then some stretch.past else none)

private theorem leastFrom_eq_min (accepts : Nat → Bool) (count low : Nat) : leastFrom accepts count low =
    (((List.range count).filter accepts).filter (low ≤ ·)).min? := by
  have member (index : Nat) : index ∈ ((List.range count).filter accepts).filter (low ≤ ·) ↔
      low ≤ index ∧ index < count ∧ accepts index = true := by
    simp only [List.mem_filter, List.mem_range, decide_eq_true_eq]
    constructor
    · rintro ⟨⟨upper, accepted⟩, lower⟩
      exact ⟨lower, upper, accepted⟩
    · rintro ⟨lower, upper, accepted⟩
      exact ⟨⟨upper, accepted⟩, lower⟩
  cases least : leastFrom accepts count low with
  | none =>
    have never := leastFrom_eq_none.mp least
    symm
    rw [List.min?_eq_none_iff, List.eq_nil_iff_forall_not_mem]
    intro index inside
    obtain ⟨lower, upper, accepted⟩ := (member index).mp inside
    rw [never index lower upper] at accepted
    cases accepted
  | some index =>
    obtain ⟨lower, upper, accepted, before⟩ := leastFrom_eq_some.mp least
    symm
    apply List.min?_eq_some_iff.mpr
    refine ⟨(member index).mpr ⟨lower, upper, accepted⟩, ?_⟩
    intro other inside
    obtain ⟨above, -, holds⟩ := (member other).mp inside
    by_cases later : index ≤ other
    · exact later
    · rw [before other above (Nat.lt_of_not_le later)] at holds
      cases holds

/-- The greedy rule with one binding that has a stop matcher pairs starts and stops. -/
theorem paired_greedy (stopping : rule.stops = some stops) :
    Paired ((List.range count).filter rule.starts) ((List.range count).filter stops) low
      ((greedy [rule] count low).map Stretch.bounds) := by
  have only : (fun index => [rule].any (·.starts index)) = rule.starts := by
    funext index
    simp
  induction remaining : count - low using Nat.strongRecOn generalizing low with
  | ind distance ih =>
    rw [greedy_eq, only]
    have opens := leastFrom_eq_min rule.starts count low
    cases opened : leastFrom rule.starts count low with
    | none =>
      rw [opened] at opens
      exact opens.symm
    | some first =>
      rw [opened] at opens
      obtain ⟨lower, upper, here, -⟩ := leastFrom_eq_some.mp opened
      have found : [rule].find? (·.starts first) = some rule := by simp [here]
      simp only [found, Option.bind_some, stopping]
      have closes := leastFrom_eq_min stops count (first + 1)
      unfold ending
      cases closed : leastFrom stops count (first + 1) with
      | none =>
        rw [closed] at closes
        exact ⟨opens.symm, closes.symm, rfl⟩
      | some past =>
        rw [closed] at closes
        have bounds := leastFrom_eq_some.mp closed
        exact ⟨opens.symm, closes.symm, ih (count - past) (by omega) rfl⟩

/-- Without a stop matcher there is a region for every start. -/
theorem greedy_firsts (single : rule.stops = none) :
    (greedy [rule] count low).map (·.first) = (List.range' low (count - low)).filter rule.starts := by
  induction remaining : count - low generalizing low with
  | zero =>
    rw [greedy_end (by omega)]
    rfl
  | succ distance ih =>
    have rest := @ih (low + 1) (by omega)
    rw [List.range'_succ, List.filter_cons]
    cases here : rule.starts low with
    | true =>
      have found : [rule].find? (·.starts low) = some rule := by simp [here]
      rw [greedy_single (by omega) found single, List.map_cons, rest]
      rfl
    | false =>
      rw [greedy_skip (by simp [here]), rest]
      rfl

/-- No region is empty or goes past the end, and one that is not stopped goes up to it. -/
theorem greedy_within {rules : List Rule} : ∀ stretch ∈ greedy rules count low,
    stretch.first < stretch.past ∧ stretch.past ≤ count ∧
      (stretch.terminated = false → stretch.past = count) := by
  induction remaining : count - low using Nat.strongRecOn generalizing low with
  | ind distance ih =>
    rw [greedy_eq]
    cases opened : leastFrom (fun index => rules.any (·.starts index)) count low with
    | none => simp
    | some first =>
      obtain ⟨lower, upper, -⟩ := leastFrom_eq_some.mp opened
      dsimp only
      cases (rules.find? (·.starts first)).bind Rule.stops with
      | none =>
        intro stretch member
        rcases List.mem_cons.mp member with rfl | member
        · exact ⟨Nat.lt_succ_self first, upper, fun left => by cases left⟩
        · exact ih (count - (first + 1)) (by omega) rfl stretch member
      | some stops =>
        dsimp only [ending]
        cases closed : leastFrom stops count (first + 1) with
        | none =>
          intro stretch member
          cases List.mem_singleton.mp member
          exact ⟨upper, Nat.le_refl _, fun _ => rfl⟩
        | some past =>
          obtain ⟨after, within, -⟩ := leastFrom_eq_some.mp closed
          intro stretch member
          rcases List.mem_cons.mp member with rfl | member
          · exact ⟨after, Nat.le_of_lt within, fun left => by cases left⟩
          · exact ih (count - past) (by omega) rfl stretch member

namespace Binding

/-- What the two matchers answer when each is asked alone at every event. -/
def soloRule (document : Document) (alone : Memory World) (binding : Binding World) : Rule where
  starts := binding.start.answerAt document alone
  stops := binding.stop.map (·.answerAt document alone)

/-- Both matchers are of the seven kinds, with pure predicates, and share no slot. -/
structure Apart (binding : Binding World) : Prop where
  start : binding.start.Pure
  stop : ∀ stop ∈ binding.stop, stop.Pure
  disjoint : ∀ stop ∈ binding.stop, ∀ slot ∈ binding.start.slots, slot ∉ stop.slots

/-- The registers hold for each matcher what they hold when it was asked alone at the events before
`index`. -/
structure Keeping (document : Document) (alone : Memory World) (binding : Binding World) (index : Nat)
    (registers : Registers) : Prop where
  start : Matcher.Alike binding.start.slots 0 0 registers
    (binding.start.watched document alone index).registers
  stop : ∀ stop ∈ binding.stop,
    Matcher.Alike stop.slots 0 0 registers (stop.watched document alone index).registers

end Binding

namespace Pass
variable {pass : Pass World} {alone : Memory World} {position : Nat}

/-- Asking both matchers at an event takes each of them one event further. -/
theorem askBoth_keeping (valid : document.Valid) (apart : binding.Apart)
    (keeping : binding.Keeping document alone index pass.memory.registers) : ∃ stopped after,
    askBoth position binding { document, index } pass =
      .ok ((binding.soloRule document alone).starts index, stopped) after ∧
    binding.Keeping document alone (index + 1) after.memory.registers ∧
    ∀ stops, (binding.soloRule document alone).stops = some stops → stopped = stops index := by
  obtain ⟨between, started, kept, untouched⟩ :=
    Matcher.evaluate_follows valid apart.start keeping.start
  cases stops : binding.stop with
  | none =>
    refine ⟨false, _, (askBoth_single_eq_ok stops).mpr ⟨rfl, ask_eq_ok.mpr ⟨between, started, rfl⟩⟩,
      ⟨kept, ?_⟩, ?_⟩
    · intro stop given
      rw [stops] at given
      cases given
    · intro given same
      simp only [Binding.soloRule, stops, Option.map_none, reduceCtorEq] at same
  | some stop =>
    have disjoint := apart.disjoint stop stops
    have undisturbed := (keeping.stop stop stops).of_untouched untouched
      fun slot member own => disjoint slot own member
    obtain ⟨after, stopped, keptStop, untouchedStop⟩ :=
      Matcher.evaluate_follows valid (apart.stop stop stops) undisturbed
    refine ⟨_, _, (askBoth_double_eq_ok stops).mpr
      ⟨_, ask_eq_ok.mpr ⟨between, started, rfl⟩, ask_eq_ok.mpr ⟨after, stopped, rfl⟩⟩,
      ⟨kept.of_untouched untouchedStop disjoint, ?_⟩, ?_⟩
    · intro other given
      rw [stops] at given
      cases given
      exact keptStop
    · intro given same
      simp only [Binding.soloRule, stops, Option.map_some, Option.some.injEq] at same
      rw [← same]

end Pass

/-- What a binding answers that is alone in a pass is foretold by asking its matchers alone. -/
theorem foretold_of_apart {alone : Memory World} (valid : document.Valid) (apart : binding.Apart) :
    Foretold [binding] document [binding.soloRule document alone]
      (binding.Keeping document alone) := by
  have matched (binding : Binding World) :
      (binding.soloRule document alone).stops.isSome = binding.stop.isSome := by
    simp [Binding.soloRule]
  have chosen (index : Nat) : Chosen [binding] [binding.soloRule document alone] index
      (if (binding.soloRule document alone).starts index then some (0, binding) else none) :=
    Pass.chosen_firstStarting matched
  refine ⟨?_, ?_, ?_⟩
  · intro index pass inside keeping
    obtain ⟨stopped, after, asked, kept, -⟩ :=
      @Pass.askBoth_keeping _ binding document index pass alone 0 valid apart keeping
    exact ⟨_, after, Pass.survey_cons_eq_ok.mpr ⟨_, after, none, ⟨stopped, asked⟩, rfl, rfl⟩, kept,
      chosen index⟩
  · intro index position pass other rule stops inside keeping known atPosition stopping
    cases position with
    | zero =>
      cases known
      cases atPosition
      obtain ⟨stopped, after, asked, kept, same⟩ :=
        @Pass.askBoth_keeping _ binding document index pass alone 0 valid apart keeping
      rw [same stops stopping] at asked
      exact ⟨after, asked, kept⟩
    | succ position => cases known
  · intro index position pass rule inside keeping atPosition
    cases position with
    | zero =>
      cases atPosition
      exact ⟨_, pass, Pass.survey_cons_eq_ok.mpr ⟨_, pass, none, ⟨rfl, rfl⟩, rfl, rfl⟩, keeping,
        chosen index⟩
    | succ position => cases atPosition

/-- A turn that looks like a stretch has its bounds and all events between them. -/
private theorem bounds_of_outline {turn : Turn} {stretch : Stretch}
    (inside : stretch.first < stretch.past ∧ stretch.past ≤ document.events.length ∧
      (stretch.terminated = false → stretch.past = document.events.length))
    (same : stretch.outline document = turn.outline) :
    turn.region.bounds = stretch.bounds ∧
    turn.region.events = (document.events.drop turn.region.firstIndex).take
      (turn.region.bounds.2.getD document.events.length - turn.region.firstIndex) := by
  obtain ⟨lower, upper, last⟩ := inside
  simp only [Stretch.outline, Turn.outline, Prod.mk.injEq] at same
  obtain ⟨-, first, events, terminated⟩ := same
  have length : stretch.first + turn.region.events.length = stretch.past := by
    rw [← events]
    simp only [Stretch.events, List.length_take, List.length_drop]
    omega
  have bounds : turn.region.bounds = stretch.bounds := by
    simp only [Region.bounds, Stretch.bounds, ← first, ← terminated, length]
  refine ⟨bounds, ?_⟩
  have past : stretch.bounds.2.getD document.events.length = stretch.past := by
    unfold Stretch.bounds
    cases ended : stretch.terminated with
    | true => rfl
    | false => exact (last ended).symm
  rw [bounds, past, ← events, ← first]
  rfl

private theorem bounds_of_outlines {turns : List Turn} {stretches : List Stretch}
    (inside : ∀ stretch ∈ stretches, stretch.first < stretch.past ∧
      stretch.past ≤ document.events.length ∧
      (stretch.terminated = false → stretch.past = document.events.length))
    (told : turns.map Turn.outline = stretches.map (Stretch.outline document)) :
    turns.map (·.region.bounds) = stretches.map Stretch.bounds ∧
    ∀ turn ∈ turns, turn.region.events = (document.events.drop turn.region.firstIndex).take
      (turn.region.bounds.2.getD document.events.length - turn.region.firstIndex) := by
  induction turns generalizing stretches with
  | nil =>
    cases stretches with
    | nil => exact ⟨rfl, by simp⟩
    | cons stretch later => cases told
  | cons turn rest ih =>
    cases stretches with
    | nil => cases told
    | cons stretch later =>
      obtain ⟨same, others⟩ := List.cons.inj told
      obtain ⟨bounds, events⟩ := bounds_of_outline (inside stretch List.mem_cons_self) same.symm
      obtain ⟨boundsLater, eventsLater⟩ :=
        ih (fun stretch member => inside stretch (List.mem_cons_of_mem _ member)) others
      refine ⟨by rw [List.map_cons, List.map_cons, bounds, boundsLater], ?_⟩
      intro other member
      rcases List.mem_cons.mp member with rfl | member
      · exact events
      · exact eventsLater other member

/-- Before the first event nothing was asked, so registers that hold nothing hold what they should. -/
theorem keeping_initial {memory : Memory World}
    (initial : ∀ slot, slot ∈ binding.start.slots ∨ (∃ stop ∈ binding.stop, slot ∈ stop.slots) →
      memory.registers.get slot = {}) :
    binding.Keeping document { world := memory.world } 0 memory.registers := by
  refine ⟨?_, ?_⟩
  · intro slot member
    rw [Nat.zero_add]
    exact initial slot (.inl member)
  · intro stop given slot member
    rw [Nat.zero_add]
    exact initial slot (.inr ⟨stop, given, member⟩)

/-- Turns with the bounds that the greedy rule has for a single binding are at the binding's answers. -/
private theorem answers_of_bounds {turns : List Turn} {alone : Memory World}
    (bounds : turns.map (·.region.bounds) =
      (greedy [binding.soloRule document alone] document.events.length 0).map Stretch.bounds) :
    let starts := (List.range document.events.length).filter (binding.start.answerAt document alone)
    match binding.stop with
    | none => turns.map (·.region.firstIndex) = starts
    | some stop => Paired starts
        ((List.range document.events.length).filter (stop.answerAt document alone)) 0
        (turns.map (·.region.bounds)) := by
  cases stops : binding.stop with
  | none =>
    have single : (binding.soloRule document alone).stops = none := by
      simp [Binding.soloRule, stops]
    have firsts := congrArg (List.map Prod.fst) bounds
    simp only [List.map_map] at firsts
    dsimp only
    rw [List.range_eq_range']
    exact firsts.trans (greedy_firsts single)
  | some stop =>
    have stopping : (binding.soloRule document alone).stops =
        some (stop.answerAt document alone) := by
      simp [Binding.soloRule, stops]
    have paired := @paired_greedy _ _ document.events.length 0 stopping
    rw [← bounds] at paired
    exact paired

/-- An edit with a single binding and a search agree. Let the matches of both matchers be searched for
with fresh copies, wherever these are asked. Then the pass ends well unless its callback fails, and its
regions are the starts paired off with the stops, each with all events from the one that opened it up to
the one that stopped it, or up to the end. Without a stop matcher they open exactly at the starts. -/
theorem emended_regions_paired {memory : Memory World} (valid : document.Valid)
    (apart : binding.Apart)
    (initial : ∀ slot, slot ∈ binding.start.slots ∨ (∃ stop ∈ binding.stop, slot ∈ stop.slots) →
      memory.registers.get slot = {})
    (calm : ¬ (emend [binding] document .handOver memory).CallbackFailed [binding]) :
    let outcome := emend [binding] document .handOver memory
    let regions := outcome.journal.handed.map (·.2)
    ∃ emended starts, outcome.answer = .ok emended ∧ emended.regions = regions.length ∧
      (∀ elsewhere, ∃ left, Search.freshIndices binding.start document elsewhere = .ok starts left) ∧
      (∀ region ∈ regions, region.events = (document.events.drop region.firstIndex).take
        (region.bounds.2.getD document.events.length - region.firstIndex)) ∧
      match binding.stop with
      | none => regions.map (·.firstIndex) = starts
      | some stop => ∃ stops,
        (∀ elsewhere, ∃ left, Search.freshIndices stop document elsewhere = .ok stops left) ∧
        Paired starts stops 0 (regions.map Region.bounds) := by
  intro outcome regions
  obtain ⟨emended, answer, counted, told, handed, -⟩ :=
    emend_follows valid (foretold_of_apart valid apart) (keeping_initial initial) calm
  obtain ⟨bounds, events⟩ := bounds_of_outlines greedy_within told
  have same : regions = outcome.journal.turns.map (·.region) := by
    simp only [regions, outcome, handed, List.map_map]
    rfl
  refine ⟨emended, _, answer, ?_, Search.freshIndices_eq_ok valid apart.start memory.world, ?_, ?_⟩
  · have lengths := congrArg List.length told
    simp only [List.length_map] at lengths
    rw [counted, same, List.length_map, lengths]
  · intro region member
    rw [same] at member
    obtain ⟨turn, inside, rfl⟩ := List.mem_map.mp member
    exact events turn inside
  · have answers := answers_of_bounds bounds
    cases stops : binding.stop with
    | none =>
      rw [stops] at answers
      dsimp only
      rw [same, List.map_map]
      exact answers
    | some stop =>
      rw [stops] at answers
      refine ⟨_, Search.freshIndices_eq_ok valid (apart.stop stop stops) memory.world, ?_⟩
      rw [same, List.map_map]
      exact answers

/-- Opens after every event of even index, and closes once only, from event 2 on. -/
def alternating : Binding Unit where
  start := .fallingEdge 0 (wherever (· % 2 == 0))
  stop := some (.oneShot 1 (wherever (2 ≤ ·)))
  callback _ := .done

/-- The stop matcher has fired at event 2, so the region of event 3 is left open. -/
theorem alternating_regions_paired :
    let outcome := emend [alternating] fiveRules .handOver { world := () }
    (outcome.journal.handed.map (·.2)).map Region.bounds = [(1, some 2), (3, none)] ∧
    ∃ starts stops : List Nat,
      (∀ elsewhere, ∃ left,
        Search.freshIndices alternating.start fiveRules elsewhere = .ok starts left) ∧
      (∀ elsewhere, ∃ left, Search.freshIndices (.oneShot 1 (wherever (2 ≤ ·))) fiveRules elsewhere =
        .ok stops left) ∧
      Paired starts stops 0 [(1, some 2), (3, none)] := by
  have valid : fiveRules.Valid := ⟨by decide, by decide⟩
  have pure (accepts : Nat → Bool) : (wherever accepts).Pure :=
    ⟨fun cursor => accepts cursor.index, fun _ => rfl⟩
  have apart : alternating.Apart := by
    refine ⟨pure (· % 2 == 0), ?_, ?_⟩
    · intro stop given
      cases Option.mem_some_iff.mp given
      exact pure (2 ≤ ·)
    · intro stop given
      cases Option.mem_some_iff.mp given
      decide
  have calm : ¬ (emend [alternating] fiveRules .handOver { world := () }).CallbackFailed
      [alternating] := by
    rintro ⟨fault, -, earlier, position, region, writer, binding, world, left, -, known, failed⟩
    cases List.mem_singleton.mp (List.mem_of_getElem? known)
    cases failed
  have initial : ∀ slot, slot ∈ alternating.start.slots ∨
      (∃ stop ∈ alternating.stop, slot ∈ stop.slots) →
      ({ world := () } : Memory Unit).registers.get slot = {} := fun slot member => rfl
  have bounds : ((emend [alternating] fiveRules .handOver { world := () }).journal.handed.map
      (·.2)).map Region.bounds = [(1, some 2), (3, none)] := by
    cbv
  obtain ⟨emended, starts, -, -, found, -, result⟩ :=
    emended_regions_paired valid apart initial calm
  rw [bounds] at result
  obtain ⟨stops, foundStops, paired⟩ := result
  exact ⟨bounds, starts, stops, found, foundStops, paired⟩

end Emend
