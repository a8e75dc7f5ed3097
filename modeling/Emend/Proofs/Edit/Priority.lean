import Mathlib
import Emend.Proofs.Edit.Refinement
import Emend.Proofs.Matcher.Locality

/-! Bindings whose matchers keep no state. Their answers at an event are the same whenever they are asked,
so a pass over a document is told by those answers alone: it is the greedy rule with the bindings in their
order of priority. -/
namespace Emend
variable {World : Type} {bindings : List (Binding World)} {document : Document} {index position : Nat}

/-- Neither matcher keeps state. -/
def Binding.Stateless (binding : Binding World) : Prop :=
  binding.start.Stateless ∧ ∀ stop ∈ binding.stop, stop.Stateless

/-- What the two matchers answer at the events of a document. -/
def Binding.rule (document : Document) (memory : Memory World) (binding : Binding World) : Rule where
  starts index := binding.start.answer { document, index } memory
  stops := binding.stop.map fun stop index => stop.answer { document, index } memory

/-- Whatever happened in between, the answer is the same. -/
theorem Matcher.Stateless.evaluate_ok {matcher : Matcher World} (stateless : matcher.Stateless)
    (valid : document.Valid) (index : Nat) (memory other : Memory World) : ∃ after,
      matcher.evaluate { document, index } other =
        .ok (matcher.answer { document, index } memory) after := by
  have nothing : Alike matcher.slots 0 0 memory.registers other.registers := by
    intro slot member
    rw [stateless.2] at member
    cases member
  obtain ⟨answer, first, second, ranFirst, ranSecond, -⟩ :=
    evaluate_alike valid index stateless.1 (fun slot member => member) nothing
  rw [shift_zero] at ranFirst ranSecond
  refine ⟨second, ?_⟩
  rw [ranSecond, Matcher.answer, ranFirst]

namespace Pass
variable {pass : Pass World} {memory : Memory World} {binding : Binding World}

private theorem askBoth_stateless (stateless : binding.Stateless) (valid : document.Valid) : ∃ stopped after,
    askBoth position binding { document, index } pass =
      .ok ((binding.rule document memory).starts index, stopped) after ∧
    ∀ stops, (binding.rule document memory).stops = some stops → stopped = stops index := by
  obtain ⟨between, started⟩ := stateless.1.evaluate_ok valid index memory pass.memory
  cases stops : binding.stop with
  | none =>
    refine ⟨false, _, (askBoth_single_eq_ok stops).mpr ⟨rfl, ask_eq_ok.mpr ⟨between, started, rfl⟩⟩, ?_⟩
    intro given same
    simp only [Binding.rule, stops, Option.map_none, reduceCtorEq] at same
  | some stop =>
    obtain ⟨after, stopped⟩ := (stateless.2 stop stops).evaluate_ok valid index memory between
    refine ⟨_, _, (askBoth_double_eq_ok stops).mpr
      ⟨_, ask_eq_ok.mpr ⟨between, started, rfl⟩, ask_eq_ok.mpr ⟨after, stopped, rfl⟩⟩, ?_⟩
    intro given same
    simp only [Binding.rule, stops, Option.map_some, Option.some.injEq] at same
    rw [← same]

/-- Of these bindings, the first of which has this position, the first that starts at an event. -/
def firstStarting (starts : Binding World → Bool) :
    Nat → List (Binding World) → Option (Nat × Binding World)
  | _, [] => none
  | position, binding :: rest =>
    if starts binding then some (position, binding) else firstStarting starts (position + 1) rest

private theorem firstStarting_eq_none {starts : Binding World → Bool}
    (none : firstStarting starts position bindings = none) :
    ∀ binding ∈ bindings, starts binding = false := by
  induction bindings generalizing position with
  | nil => simp
  | cons binding rest ih =>
    intro other member
    unfold firstStarting at none
    by_cases here : starts binding = true
    · rw [if_pos here] at none
      cases none
    · rw [if_neg here] at none
      rcases List.mem_cons.mp member with rfl | member
      · exact Bool.eq_false_iff.mpr here
      · exact ih none other member

private theorem firstStarting_eq_some {starts : Binding World → Bool} {place : Nat}
    (found : firstStarting starts position bindings = some (place, binding)) : ∃ front back,
      bindings = front ++ binding :: back ∧ place = position + front.length ∧
      (∀ other ∈ front, starts other = false) ∧ starts binding = true := by
  induction bindings generalizing position with
  | nil => cases found
  | cons head rest ih =>
    unfold firstStarting at found
    by_cases here : starts head = true
    · rw [if_pos here] at found
      cases found
      exact ⟨[], rest, rfl, rfl, by simp, here⟩
    · rw [if_neg here] at found
      obtain ⟨front, back, rfl, rfl, before, chosen⟩ := ih found
      refine ⟨head :: front, back, rfl, ?_, ?_, chosen⟩
      · simp only [List.length_cons]
        omega
      · intro other member
        rcases List.mem_cons.mp member with rfl | member
        · exact Bool.eq_false_iff.mpr here
        · exact before other member

theorem chosen_firstStarting {rule : Binding World → Rule}
    (matched : ∀ binding, (rule binding).stops.isSome = binding.stop.isSome) :
    Chosen bindings (bindings.map rule) index
      (firstStarting (fun binding => (rule binding).starts index) 0 bindings) := by
  cases found : firstStarting (fun binding => (rule binding).starts index) 0 bindings with
  | none =>
    have quiet := firstStarting_eq_none found
    simpa [Chosen] using quiet
  | some pick =>
    obtain ⟨place, binding⟩ := pick
    obtain ⟨front, back, rfl, rfl, before, here⟩ := firstStarting_eq_some found
    have skipped : (front.map rule).find? (·.starts index) = none := by
      simpa using before
    have passed : (front.map rule).findIdx (·.starts index) = front.length := by
      rw [List.findIdx_eq_length.mpr (by simpa using before), List.length_map]
    refine ⟨by simp, ?_, rule binding, ?_, by simp, matched binding⟩
    · rw [List.map_append, List.findIdx_append, passed]
      simp [here, List.findIdx_cons]
    · rw [List.map_append, List.find?_append, skipped]
      simp [here]

private theorem survey_stateless (stateless : ∀ binding ∈ bindings, binding.Stateless)
    (valid : document.Valid)
    {known : Option (Nat × Bool)} (told : ∀ found ∈ known, ∀ distance binding,
      found.1 = position + distance → bindings[distance]? = some binding →
        found.2 = (binding.rule document memory).starts index) :
    ∃ after, survey { document, index } known position bindings pass =
      .ok (firstStarting (fun binding => (binding.rule document memory).starts index) position bindings)
        after := by
  induction bindings generalizing position pass with
  | nil => exact ⟨pass, rfl⟩
  | cons binding rest ih =>
    have later : ∀ found ∈ known, ∀ distance other, found.1 = position + 1 + distance →
        rest[distance]? = some other → found.2 = (other.rule document memory).starts index := by
      intro found member distance other place there
      exact told found member (distance + 1) other (by omega) (by simpa using there)
    have goes (between : Pass World) := @ih (position + 1) between
      (fun other member => stateless other (List.mem_cons_of_mem _ member)) later
    cases asked : known.filter (·.1 == position) with
    | some found =>
      obtain ⟨member, here⟩ := Option.filter_eq_some_iff.mp asked
      have answer := told found member 0 binding (by simpa using here) rfl
      obtain ⟨after, surveyed⟩ := goes pass
      refine ⟨after, survey_cons_eq_ok.mpr ⟨_, pass, _, ?_, surveyed, rfl⟩⟩
      rw [asked]
      exact ⟨answer, rfl⟩
    | none =>
      obtain ⟨stopped, between, both, -⟩ :=
        @askBoth_stateless _ document index position pass memory binding
          (stateless binding List.mem_cons_self) valid
      obtain ⟨after, surveyed⟩ := goes between
      refine ⟨after, survey_cons_eq_ok.mpr ⟨_, between, _, ?_, surveyed, rfl⟩⟩
      rw [asked]
      exact ⟨stopped, both⟩

end Pass

/-- The answers of stateless bindings are foretold, with nothing to keep ready. -/
theorem foretold_of_stateless {memory : Memory World} (valid : document.Valid)
    (stateless : ∀ binding ∈ bindings, binding.Stateless) :
    Foretold bindings document (bindings.map (·.rule document memory)) fun _ _ => True := by
  have matched (binding : Binding World) :
      (binding.rule document memory).stops.isSome = binding.stop.isSome := by
    simp [Binding.rule]
  refine ⟨?_, ?_, ?_⟩
  · intro index pass inside _
    obtain ⟨after, surveyed⟩ := @Pass.survey_stateless _ bindings document index 0 pass memory stateless
      valid none (by simp)
    exact ⟨_, after, surveyed, trivial, Pass.chosen_firstStarting matched⟩
  · intro index position pass binding rule stops inside _ known atPosition stopping
    rw [List.getElem?_map, known] at atPosition
    cases atPosition
    obtain ⟨stopped, after, asked, same⟩ := @Pass.askBoth_stateless _ document index position pass memory
      binding (stateless binding (List.mem_of_getElem? known)) valid
    rw [same stops stopping] at asked
    exact ⟨after, asked, trivial⟩
  · intro index position pass rule inside _ atPosition
    have told : ∀ found ∈ some (position, rule.starts index), ∀ distance binding,
        found.1 = 0 + distance → bindings[distance]? = some binding →
          found.2 = (binding.rule document memory).starts index := by
      intro found member distance binding place there
      cases Option.mem_some_iff.mp member
      rw [Nat.zero_add] at place
      cases place
      rw [List.getElem?_map, there] at atPosition
      cases atPosition
      rfl
    obtain ⟨after, surveyed⟩ := Pass.survey_stateless stateless valid told
    exact ⟨_, after, surveyed, trivial, Pass.chosen_firstStarting matched⟩

/-- A pass with stateless bindings whose callbacks do not fail ends well, and the regions it hands over
are those of the greedy rule: of each the position of its binding, its first index, its events, and
whether it was stopped. Each goes once to the callback of its binding. -/
theorem emended_regions_eq_greedy {memory : Memory World} (valid : document.Valid)
    (stateless : ∀ binding ∈ bindings, binding.Stateless)
    (calm : ¬ (emend bindings document .handOver memory).CallbackFailed bindings) :
    let outcome := emend bindings document .handOver memory
    let stretches := greedy (bindings.map (·.rule document memory)) document.events.length 0
    ∃ emended, outcome.answer = .ok emended ∧ emended.regions = stretches.length ∧
      outcome.journal.turns.map Turn.outline = stretches.map (Stretch.outline document) ∧
      outcome.journal.handed = outcome.journal.turns.map (fun turn => (turn.position, turn.region)) ∧
      ∀ turn ∈ outcome.journal.turns, turn.Served bindings :=
  emend_follows valid (foretold_of_stateless valid stateless) trivial calm

/-- Five events, one character each. -/
def fiveRules : Document where
  source := ['a', 'b', 'c', 'd', 'e']
  events := [
    { kind := .rule, span := { start := 0, stop := 1 } },
    { kind := .rule, span := { start := 1, stop := 2 } },
    { kind := .rule, span := { start := 2, stop := 3 } },
    { kind := .rule, span := { start := 3, stop := 4 } },
    { kind := .rule, span := { start := 4, stop := 5 } }]

def wherever (accepts : Nat → Bool) : Matcher Unit :=
  .predicate { label := "wherever", run := fun cursor => pure (accepts cursor.index) }

/-- Regions from the events 1 and 4 up to event 3, and every other event for itself. -/
def ranked : List (Binding Unit) := [
  { start := wherever (· % 3 == 1), stop := some (wherever (· == 3)), callback := fun _ => .done },
  { start := .always, stop := none, callback := fun _ => .done }]

/-- At event 1 the first binding comes before the second, at event 3 it ends and the second has its
turn again, and the region of event 4 is not stopped. -/
theorem ranked_regions_eq_greedy :
    let outcome := emend ranked fiveRules .handOver { world := () }
    (∃ emended, outcome.answer = .ok emended ∧ emended.regions = 4) ∧
    outcome.journal.turns.map (fun turn =>
      (turn.position, turn.region.firstIndex, turn.region.events.length, turn.region.terminated)) =
      [(1, 0, 1, true), (0, 1, 2, true), (1, 3, 1, true), (0, 4, 1, false)] := by
  have valid : fiveRules.Valid := ⟨by decide, by decide⟩
  have still (accepts : Nat → Bool) : (wherever accepts).Stateless :=
    ⟨⟨fun cursor => accepts cursor.index, fun _ => rfl⟩, rfl⟩
  have stateless : ∀ binding ∈ ranked, binding.Stateless ∧ binding.callback = fun _ => .done := by
    intro binding member
    rcases List.mem_cons.mp member with rfl | member
    · refine ⟨⟨still (· % 3 == 1), ?_⟩, rfl⟩
      intro stop given
      cases Option.mem_some_iff.mp given
      exact still (· == 3)
    · cases List.mem_singleton.mp member
      exact ⟨⟨⟨trivial, rfl⟩, by simp⟩, rfl⟩
  have calm : ¬ (emend ranked fiveRules .handOver { world := () }).CallbackFailed ranked := by
    rintro ⟨fault, -, earlier, position, region, writer, binding, world, left, -, known, failed⟩
    rw [(stateless binding (List.mem_of_getElem? known)).2] at failed
    cases failed
  obtain ⟨emended, answer, regions, outlines, -, -⟩ :=
    emended_regions_eq_greedy valid (fun binding member => (stateless binding member).1) calm
  have stretches : greedy (ranked.map (·.rule fiveRules { world := () })) 5 0 = [
      { position := 1, first := 0, past := 1 }, { position := 0, first := 1, past := 3 },
      { position := 1, first := 3, past := 4 },
      { position := 0, first := 4, past := 5, terminated := false }] := by
    cbv
  have five : fiveRules.events.length = 5 := rfl
  rw [five, stretches] at regions outlines
  refine ⟨⟨emended, answer, regions⟩, ?_⟩
  have shapes := congrArg (List.map fun outline : Nat × Nat × List Event × Bool =>
    (outline.1, outline.2.1, outline.2.2.1.length, outline.2.2.2)) outlines
  rw [List.map_map] at shapes
  exact shapes

end Emend
