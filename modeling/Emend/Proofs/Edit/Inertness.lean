import Emend.Proofs.Edit.Renewal

/-! A binding that starts nowhere. Put in among others it moves up those after it and is asked along with
them, but it keeps its state to itself, and so the others see the document as if it were not there. Two
passes are compared, one with it and one without, as long as its answers so far were false: what it would
do otherwise is of no concern. -/
namespace Emend
variable {World : Type}

/-- The position of a binding once another one is put in at `place`. -/
def moved (place position : Nat) : Nat :=
  if position < place then position else position + 1

/-- The note as it reads once another binding is put in at `place`. -/
def Note.moved (place : Nat) : Note → Note
  | asked position side index => asked (Emend.moved place position) side index
  | opened position index offset => opened (Emend.moved place position) index offset
  | leftOpen index => leftOpen index
  | handed position region writer => handed (Emend.moved place position) region writer
  | closed position region writer => closed (Emend.moved place position) region writer

/-- Whether the binding at `place` was asked. -/
def Note.asks (place : Nat) : Note → Bool
  | asked position _ _ => position == place
  | _ => false

/-- The events at which the start matcher of the binding at `place` was asked, in order. -/
def Journal.heardAt (place : Nat) (journal : Journal) : List Nat :=
  journal.filterMap fun
    | .asked position .start index => if position = place then some index else none
    | _ => none

namespace Binding

/-- The memory once both matchers were asked at a cursor. -/
def attend (binding : Binding World) (cursor : Cursor) (memory : Memory World) : Memory World :=
  let asked := stateOf (binding.start.evaluate cursor memory)
  match binding.stop with
  | none => asked
  | some stop => stateOf (stop.evaluate cursor asked)

/-- The memory once both matchers were asked at these events of a document, and nothing else was. -/
def attended (binding : Binding World) (document : Document) (memory : Memory World) (heard : List Nat) :
    Memory World :=
  heard.foldl (fun memory index => binding.attend { document, index } memory) memory

/-- Asked at these events, one after the other, the start matcher answers false each time. -/
inductive Inert (binding : Binding World) (document : Document) : Memory World → List Nat → Prop
  | nil {memory : Memory World} : Inert binding document memory []
  | cons {memory : Memory World} {index : Nat} {rest : List Nat}
      (missed : binding.start.answer { document, index } memory = false)
      (later : Inert binding document (binding.attend { document, index } memory) rest) :
      Inert binding document memory (index :: rest)

/-- Both matchers are of the seven kinds, with pure predicates. -/
structure Pure (binding : Binding World) : Prop where
  start : binding.start.Pure
  stop : ∀ stop ∈ binding.stop, stop.Pure

/-- The binding has none of these slots. -/
def Clear (slots : List Slot) (binding : Binding World) : Prop :=
  ∀ slot ∈ binding.slots, slot ∉ slots

end Binding

variable {place position : Nat} {extra binding : Binding World} {document : Document}
  {begun : Memory World} {hidden : List Slot} {own : Registers}

private theorem moved_ne : moved place position ≠ place := by
  unfold moved
  split <;> omega

private theorem moved_inj {other : Nat} : moved place position = moved place other ↔ position = other := by
  unfold moved
  split <;> split <;> omega

private theorem getElem?_moved {α : Type} (front back : List α) (item : α) (position : Nat) :
    (front ++ item :: back)[moved front.length position]? = (front ++ back)[position]? := by
  unfold moved
  split
  · rename_i before
    rw [List.getElem?_append_left before, List.getElem?_append_left before]
  · rename_i after
    have past : front.length ≤ position := Nat.le_of_not_lt after
    rw [List.getElem?_append_right past, List.getElem?_append_right (Nat.le_succ_of_le past),
      Nat.succ_sub past, List.getElem?_cons_succ]

private theorem Note.asks_moved (entry : Note) : (entry.moved place).asks place = false := by
  cases entry <;> simp [moved, asks, moved_ne]

private theorem Journal.heardAt_append (journal notes : Journal) :
    (journal ++ notes).heardAt place = journal.heardAt place ++ Journal.heardAt place notes :=
  List.filterMap_append

private theorem Journal.heardAt_moved (entry : Note) : Journal.heardAt place [entry.moved place] = [] := by
  cases entry with
  | asked position side index => cases side <;> simp [heardAt, Note.moved, moved_ne]
  | opened | leftOpen | handed | closed => rfl

/-- Questions hand nothing over. -/
theorem Journal.handed_filter (journal : Journal) :
    Journal.handed (journal.filter (!·.asks place)) = journal.handed := by
  induction journal with
  | nil => rfl
  | cons entry rest ih =>
    unfold handed at ih ⊢
    cases asks : entry.asks place with
    | false => rw [List.filter_cons_of_pos (by simp [asks]), List.filterMap_cons, List.filterMap_cons, ih]
    | true =>
      rw [List.filter_cons_of_neg (by simp [asks]), List.filterMap_cons, ih]
      cases entry with
      | asked => rfl
      | opened | leftOpen | handed | closed => cases asks

private theorem Journal.handed_moved (journal : Journal) : Journal.handed (journal.map (Note.moved place)) =
    journal.handed.map fun (position, region) => (Emend.moved place position, region) := by
  simp only [handed, List.filterMap_map, List.map_filterMap]
  congr 1
  funext entry
  cases entry <;> rfl

private theorem Binding.Inert.of_longer {memory : Memory World} {heard more : List Nat}
    (inert : extra.Inert document memory more) (before : heard <+: more) :
    extra.Inert document memory heard := by
  induction heard generalizing memory more with
  | nil => exact .nil
  | cons index heard ih =>
    obtain ⟨rest, rfl⟩ := before
    cases inert with
    | cons missed later => exact .cons missed (ih later (List.prefix_append heard rest))

private theorem Binding.Inert.answer_last {memory : Memory World} {heard : List Nat} {index : Nat}
    (inert : extra.Inert document memory (heard ++ [index])) :
    extra.start.answer { document, index } (extra.attended document memory heard) = false := by
  induction heard generalizing memory with
  | nil =>
    cases inert with
    | cons missed _ => exact missed
  | cons first heard ih =>
    cases inert with
    | cons _ later => exact ih later

/-- A memory as it is without one binding, and the same with that binding's slots in it, which hold what is
its own. -/
structure SetAside (hidden : List Slot) (own : Registers) (alone joined : Memory World) : Prop where
  world : joined.world = alone.world
  registers : ∀ slot, joined.registers.get slot =
    if slot ∈ hidden then own.get slot else alone.registers.get slot

namespace Matcher
variable {matcher : Matcher World}

/-- A tree that has none of these slots does not see them and leaves them alone. -/
theorem evaluate_setAside (clear : ∀ slot ∈ matcher.slots, slot ∉ hidden) (cursor : Cursor) :
    Lockstep Eq (SetAside hidden own) (matcher.evaluate cursor) (matcher.evaluate cursor) := by
  have checked (p : Predicate World) :
      Lockstep Eq (SetAside hidden own) (check p cursor) (check p cursor) := by
    intro alone joined aside
    unfold check
    rw [aside.world]
    cases p.run cursor alone.world with
    | ok answer world => exact .ok rfl ⟨rfl, aside.registers⟩
    | error fault world => exact .error ⟨rfl, aside.registers⟩
  have reads : ∀ slot ∈ matcher.slots, Lockstep Eq (SetAside hidden own)
      (remembered (id slot) : Watch World Cell) (remembered (id slot)) := by
    intro slot member alone joined aside
    refine .ok ?_ aside
    rw [id, aside.registers, if_neg (clear slot member)]
  have writes : ∀ slot ∈ matcher.slots, ∀ cell, Lockstep Eq (SetAside hidden own)
      (remember (id slot) cell : Watch World Unit) (remember (id slot) cell) := by
    intro slot member cell alone joined aside
    refine .ok rfl ⟨aside.world, fun other => ?_⟩
    simp only [id]
    by_cases same : other = slot
    · rw [same, Registers.get_set_self, Registers.get_set_self, if_neg (clear slot member)]
    · rw [Registers.get_set_of_ne _ _ same, Registers.get_set_of_ne _ _ same]
      exact aside.registers other
  unfold evaluate
  cases cursor.current with
  | none => exact .pure rfl
  | some event =>
    have goes := @observe_lockstep_of World id id matcher _ cursor event (fun p _ => checked p) reads writes
    rwa [rename_id] at goes

end Matcher

/-- The open region as it is once another binding is put in at `place`. -/
def Active.moved (place : Nat) (active : Active World) : Active World :=
  { active with position := Emend.moved place active.position }

/-- The same region is open with and without the binding at `place`, and it is another binding's. -/
inductive Mode.Beside (place : Nat) (hidden : List Slot) : Mode World → Mode World → Prop
  | searching : Beside place hidden .searching .searching
  | editing {active : Active World} (clear : active.binding.Clear hidden) :
      Beside place hidden (.editing active) (.editing (active.moved place))

namespace Pass

/-- A pass without a binding and one with it at `place` have done the same and stand at the same place,
except for what the binding was asked. Its slots hold what they hold when only it is asked. -/
structure Beside (place : Nat) (extra : Binding World) (document : Document) (begun : Memory World)
    (alone joined : Pass World) : Prop where
  memory : SetAside extra.slots
    (extra.attended document begun (joined.journal.heardAt place)).registers alone.memory joined.memory
  writer : joined.writer = alone.writer
  mode : alone.mode.Beside place extra.slots joined.mode
  regions : joined.regions = alone.regions
  unterminated : joined.unterminated = alone.unterminated
  journal : joined.journal.filter (!·.asks place) = alone.journal.map (Note.moved place)

/-- The binding has answered false wherever it was asked. -/
def Quiet (place : Nat) (extra : Binding World) (document : Document) (begun : Memory World)
    (pass : Pass World) : Prop :=
  extra.Inert document begun (pass.journal.heardAt place)

theorem Quiet.of_grown {before after : Pass World} (grown : Grown before after)
    (quiet : after.Quiet place extra document begun) : before.Quiet place extra document begun :=
  Binding.Inert.of_longer quiet (List.IsPrefix.filterMap _ grown)

variable {cursor : Cursor} {event : Event} {active : Active World} {region : Region} {index : Nat}

theorem note_beside (entry : Note) : Lockstep Eq (Beside place extra document begun)
    (note entry : Step World Unit) (note (entry.moved place)) := by
  refine .modify fun alone joined beside => { beside with memory := ?_, journal := ?_ }
  · rw [Journal.heardAt_append, Journal.heardAt_moved, List.append_nil]
    exact beside.memory
  · rw [List.filter_append, beside.journal, List.map_append]
    simp [Note.asks_moved]

theorem atDesk_beside (script : Script World) : Lockstep Eq (Beside place extra document begun)
    (atDesk script) (atDesk script) := by
  intro alone joined beside
  unfold atDesk
  rw [beside.writer, beside.memory.world]
  cases script.run { writer := alone.writer, world := alone.memory.world } with
  | ok nothing desk =>
    exact .ok rfl { beside with memory := ⟨rfl, beside.memory.registers⟩, writer := rfl }
  | error fault desk =>
    exact .error { beside with memory := ⟨rfl, beside.memory.registers⟩, writer := rfl }

private theorem ask_beside {matcher : Matcher World} (clear : ∀ slot ∈ matcher.slots, slot ∉ extra.slots)
    (side : Side) : Lockstep Eq (Beside place extra document begun)
      (ask position side matcher cursor) (ask (moved place position) side matcher cursor) := by
  refine (note_beside (.asked position side cursor.index)).bind ?_
  rintro _ _ -
  intro alone joined beside
  have ended := Matcher.evaluate_setAside clear cursor _ _ beside.memory
  unfold watch
  generalize matcher.evaluate cursor alone.memory = one, matcher.evaluate cursor joined.memory = other
    at ended
  cases ended with
  | ok answered left => exact .ok answered { beside with memory := left }
  | error left => exact .error { beside with memory := left }

private theorem askBoth_beside (clear : binding.Clear extra.slots) : Lockstep Eq
    (Beside place extra document begun) (askBoth position binding cursor)
      (askBoth (moved place position) binding cursor) := by
  have started : ∀ slot ∈ binding.start.slots, slot ∉ extra.slots :=
    fun slot member => clear slot (Binding.mem_slots.mpr (.inl member))
  refine (ask_beside started .start).bind ?_
  rintro answer _ rfl
  cases stops : binding.stop with
  | none => exact .pure rfl
  | some stop =>
    have stopped : ∀ slot ∈ stop.slots, slot ∉ extra.slots :=
      fun slot member => clear slot (Binding.mem_slots.mpr (.inr ⟨stop, stops, member⟩))
    refine (ask_beside stopped .stop).bind ?_
    rintro other _ rfl
    exact .pure rfl

private theorem handOver_beside (active : Active World) (region : Region) : Lockstep Eq
    (Beside place extra document begun) (handOver active region)
      (handOver (active.moved place) region) := by
  refine Lockstep.get.bind ?_
  intro alone joined beside
  rw [beside.writer]
  refine (Lockstep.ofExcept _).bind ?_
  rintro writer _ rfl
  refine (note_beside (.handed active.position region writer)).bind ?_
  rintro _ _ -
  refine (atDesk_beside _).bind ?_
  rintro _ _ -
  refine Lockstep.get.bind ?_
  intro alone joined beside
  rw [beside.writer]
  refine (note_beside (.closed active.position region alone.writer)).bind ?_
  rintro _ _ -
  exact .modify fun _ _ beside =>
    { beside with mode := .searching, regions := congrArg (· + 1) beside.regions }

private theorem openAt_beside (clear : binding.Clear extra.slots) : Lockstep Eq
    (Beside place extra document begun) (openAt position binding cursor event)
      (openAt (moved place position) binding cursor event) := by
  let active : Active World := { position, binding, index := cursor.index, opening := event }
  have own : active.binding.Clear extra.slots := clear
  refine (atDesk_beside _).bind ?_
  rintro _ _ -
  refine (note_beside (.opened position cursor.index event.start)).bind ?_
  rintro _ _ -
  cases binding.stop with
  | none => exact handOver_beside active (active.complete cursor.document.source)
  | some stop => exact .modify fun _ _ beside => { beside with mode := .editing own }

/-- The same binding was chosen, and it is not the one at `place`. -/
def SamePick (place : Nat) (hidden : List Slot) (alone joined : Nat × Binding World) : Prop :=
  joined = (moved place alone.1, alone.2) ∧ alone.2.Clear hidden

/-- An answer that is known already, at the position that its binding has now. -/
def movedAnswer (place : Nat) (known : Option (Nat × Bool)) : Option (Nat × Bool) :=
  known.map fun told => (moved place told.1, told.2)

private theorem movedAnswer_filter (known : Option (Nat × Bool)) :
    (movedAnswer place known).filter (·.1 == moved place position) =
      movedAnswer place (known.filter (·.1 == position)) := by
  cases known with
  | none => rfl
  | some told =>
    have same : (moved place told.1 == moved place position) = (told.1 == position) := by
      rw [Bool.eq_iff_iff, beq_iff_eq, beq_iff_eq, moved_inj]
    simp only [movedAnswer, Option.map_some, Option.filter_some, same]
    cases told.1 == position <;> rfl

private theorem movedAnswer_filter_place (known : Option (Nat × Bool)) :
    (movedAnswer place known).filter (·.1 == place) = none := by
  cases known with
  | none => rfl
  | some told => simp [movedAnswer, moved_ne]

/-- A survey that goes on to a binding which both lists have. -/
private theorem survey_cons_beside {rest others : List (Binding World)} {known : Option (Nat × Bool)}
    (clear : binding.Clear extra.slots)
    (goes : LockstepWhere (Quiet place extra document begun) (Option.Rel (SamePick place extra.slots))
      (Beside place extra document begun) (survey cursor known (position + 1) rest)
      (survey cursor (movedAnswer place known) (moved place position + 1) others)) :
    LockstepWhere (Quiet place extra document begun) (Option.Rel (SamePick place extra.slots))
      (Beside place extra document begun) (survey cursor known position (binding :: rest))
      (survey cursor (movedAnswer place known) (moved place position) (binding :: others)) := by
  have answering (started : Bool) : LockstepWhere (Quiet place extra document begun)
      (Option.Rel (SamePick place extra.slots)) (Beside place extra document begun) (do
        let later ← survey cursor known (position + 1) rest
        return if started then some (position, binding) else later) (do
        let later ← survey cursor (movedAnswer place known) (moved place position + 1) others
        return if started then some (moved place position, binding) else later) := by
    refine goes.bind ?_ (fun _ => .refl) Quiet.of_grown
    intro later following same
    cases started with
    | true => exact (Lockstep.pure (.some ⟨rfl, clear⟩)).to_where
    | false => exact (Lockstep.pure same).to_where
  rw [survey, survey, movedAnswer_filter]
  cases known.filter (·.1 == position) with
  | some told => exact answering told.2
  | none =>
    refine (askBoth_beside clear).bind_where ?_
    rintro answers _ rfl
    exact answering answers.1

/-- The bindings after `place` are surveyed alike, each from a place further. -/
private theorem survey_beside {bindings : List (Binding World)} {known : Option (Nat × Bool)}
    (clear : ∀ binding ∈ bindings, binding.Clear extra.slots) (past : place ≤ position) :
    LockstepWhere (Quiet place extra document begun) (Option.Rel (SamePick place extra.slots))
      (Beside place extra document begun) (survey cursor known position bindings)
      (survey cursor (movedAnswer place known) (position + 1) bindings) := by
  induction bindings generalizing position with
  | nil => exact (Lockstep.pure .none).to_where
  | cons binding rest ih =>
    have there : moved place position = position + 1 := if_neg (Nat.not_lt.mpr past)
    rw [← there]
    refine survey_cons_beside (clear binding List.mem_cons_self) ?_
    rw [there]
    exact ih (fun other member => clear other (List.mem_cons_of_mem _ member)) (Nat.le_succ_of_le past)

/-- Asking a matcher of the binding itself goes well, and nobody notices but the journal. -/
private theorem ask_aside {matcher : Matcher World} {alone joined : Pass World} {solo : Memory World}
    {side : Side}
    (valid : document.Valid) (pure : matcher.Pure) (part : ∀ slot ∈ matcher.slots, slot ∈ extra.slots)
    (aside : SetAside extra.slots solo.registers alone.memory joined.memory) :
    ∃ memory, ask place side matcher { document, index } joined =
        .ok (matcher.answer { document, index } solo)
          { joined with memory, journal := joined.journal ++ [.asked place side index] } ∧
      SetAside extra.slots (stateOf (matcher.evaluate { document, index } solo)).registers
        alone.memory memory := by
  have alike : Matcher.Alike extra.slots 0 0 solo.registers joined.memory.registers := by
    intro slot member
    rw [Nat.zero_add, aside.registers, if_pos member]
  obtain ⟨answer, first, memory, ranSolo, ran, alike⟩ := Matcher.evaluate_alike valid index pure part alike
  rw [Matcher.shift_zero] at ranSolo ran
  have untouched := @Matcher.evaluate_untouched _ { document, index } matcher joined.memory
  have world := @Matcher.evaluate_world _ matcher pure { document, index } joined.memory
  rw [ran] at untouched world
  refine ⟨memory, ?_, ?_⟩
  · rw [Matcher.answer, ranSolo]
    exact ask_eq_ok.mpr ⟨memory, ran, rfl⟩
  · rw [ranSolo]
    refine ⟨world.trans aside.world, fun slot => ?_⟩
    by_cases inside : slot ∈ extra.slots
    · have same := alike slot inside
      rw [Nat.zero_add] at same
      rw [if_pos inside]
      exact same.symm
    · have same := aside.registers slot
      rw [if_neg inside] at same ⊢
      exact (untouched slot fun member => inside (part slot member)).trans same

/-- Asking the binding itself takes it one event further and leaves the passes where they are. -/
private theorem askBoth_aside {alone joined : Pass World} (valid : document.Valid) (pure : extra.Pure)
    (beside : Beside place extra document begun alone joined) : ∃ stopped after,
      askBoth place extra { document, index } joined = .ok (extra.start.answer { document, index }
        (extra.attended document begun (joined.journal.heardAt place)), stopped) after ∧
      after.journal.heardAt place = joined.journal.heardAt place ++ [index] ∧
      Beside place extra document begun alone after := by
  have began : ∀ slot ∈ extra.start.slots, slot ∈ extra.slots :=
    fun slot member => Binding.mem_slots.mpr (.inl member)
  obtain ⟨between, started, aside⟩ := @ask_aside _ place extra document index _ _ _ _ .start valid
    pure.start began beside.memory
  have attending : extra.attended document begun (joined.journal.heardAt place ++ [index]) =
      extra.attend { document, index }
        (extra.attended document begun (joined.journal.heardAt place)) := by
    rw [Binding.attended, List.foldl_append]
    rfl
  cases stops : extra.stop with
  | none =>
    have heard : Journal.heardAt place (joined.journal ++ [.asked place .start index]) =
        joined.journal.heardAt place ++ [index] := by
      simp [Journal.heardAt]
    refine ⟨false, _, (askBoth_single_eq_ok stops).mpr ⟨rfl, started⟩, heard, ?_⟩
    refine { beside with memory := ?_, journal := ?_ }
    · rw [heard, attending, Binding.attend, stops]
      exact aside
    · rw [← beside.journal, List.filter_append]
      simp [Note.asks]
  | some stop =>
    have ended : ∀ slot ∈ stop.slots, slot ∈ extra.slots :=
      fun slot member => Binding.mem_slots.mpr (.inr ⟨stop, stops, member⟩)
    obtain ⟨memory, stopped, aside⟩ := @ask_aside _ place extra document index _ alone
      { joined with memory := between, journal := joined.journal ++ [.asked place .start index] } _ .stop
      valid (pure.stop stop stops) ended aside
    have heard : Journal.heardAt place
        (joined.journal ++ [.asked place .start index] ++ [.asked place .stop index]) =
        joined.journal.heardAt place ++ [index] := by
      simp [Journal.heardAt]
    refine ⟨_, _, (askBoth_double_eq_ok stops).mpr ⟨_, started, stopped⟩, heard, ?_⟩
    refine { beside with memory := ?_, journal := ?_ }
    · rw [heard, attending, Binding.attend, stops]
      exact aside
    · rw [← beside.journal, List.filter_append, List.filter_append]
      simp [Note.asks]

/-- A survey that comes to the binding itself is told that it does not start here, and goes on. -/
private theorem survey_past_beside {back : List (Binding World)} {known : Option (Nat × Bool)}
    (valid : document.Valid) (pure : extra.Pure) (clear : ∀ binding ∈ back, binding.Clear extra.slots) :
    LockstepWhere (Quiet place extra document begun) (Option.Rel (SamePick place extra.slots))
      (Beside place extra document begun) (survey { document, index } known place back)
      (survey { document, index } (movedAnswer place known) place (extra :: back)) := by
  intro alone joined beside quiet
  obtain ⟨stopped, between, asked, heard, besideBetween⟩ :=
    @askBoth_aside _ place extra document begun index alone joined valid pure beside
  let answering (started : Bool) : Step World (Option (Nat × Binding World)) := do
    let later ← survey { document, index } (movedAnswer place known) (place + 1) back
    return if started then some (place, extra) else later
  have surveyed : survey { document, index } (movedAnswer place known) place (extra :: back) joined =
      answering (extra.start.answer { document, index }
        (extra.attended document begun (joined.journal.heardAt place))) between := by
    rw [survey, movedAnswer_filter_place]
    exact (bind_of_ok asked).trans rfl
  rw [surveyed] at quiet ⊢
  have grows (started : Bool) : Keeps Grown (answering started) :=
    (grown_of_heard (survey_heard _ (movedAnswer place known) (place + 1) back)).bind .trans
      fun later => Grown.refl
  have grown := grows (extra.start.answer { document, index }
    (extra.attended document begun (joined.journal.heardAt place))) between
  have soFar : extra.Inert document begun (joined.journal.heardAt place ++ [index]) :=
    heard ▸ Quiet.of_grown grown quiet
  rw [soFar.answer_last] at quiet ⊢
  have goes : LockstepWhere (Quiet place extra document begun) (Option.Rel (SamePick place extra.slots))
      (Beside place extra document begun)
      (survey { document, index } known place back >>= Pure.pure) (answering false) :=
    (survey_beside clear (Nat.le_refl place)).bind (fun later following same => (Lockstep.pure same).to_where)
      (fun later => Grown.refl) Quiet.of_grown
  rw [bind_pure] at goes
  exact goes alone between besideBetween quiet

variable {front back : List (Binding World)}

/-- The whole list with and without the binding is surveyed alike. -/
theorem survey_joined_beside {known : Option (Nat × Bool)} (valid : document.Valid) (pure : extra.Pure)
    (clear : ∀ binding ∈ front ++ back, binding.Clear extra.slots) (before : position + front.length = place) :
    LockstepWhere (Quiet place extra document begun) (Option.Rel (SamePick place extra.slots))
      (Beside place extra document begun) (survey { document, index } known position (front ++ back))
      (survey { document, index } (movedAnswer place known) position (front ++ extra :: back)) := by
  induction front generalizing position with
  | nil =>
    obtain rfl : position = place := before
    exact survey_past_beside valid pure clear
  | cons binding front ih =>
    rw [List.length_cons] at before
    have there : moved place position = position := if_pos (by omega)
    have rests := ih (fun other member => clear other (List.mem_cons_of_mem _ member))
      (show position + 1 + front.length = place by omega)
    have goes := @survey_cons_beside _ place position extra binding document begun { document, index }
      (front ++ back) (front ++ extra :: back) known (clear binding List.mem_cons_self)
    rw [there] at goes
    exact goes rests

section
variable (valid : document.Valid) (pure : extra.Pure)
  (clear : ∀ binding ∈ front ++ back, binding.Clear extra.slots)
include valid pure clear

private theorem search_beside (known : Option (Nat × Bool)) :
    LockstepWhere (Quiet front.length extra document begun) Eq (Beside front.length extra document begun)
      (search (front ++ back) { document, index } event known)
      (search (front ++ extra :: back) { document, index } event (movedAnswer front.length known)) := by
  refine (survey_joined_beside valid pure clear (Nat.zero_add _)).bind ?_ ?_ Quiet.of_grown
  · intro chosen following same
    cases same with
    | none => exact (Lockstep.pure rfl).to_where
    | @some one another same =>
      obtain ⟨position, binding⟩ := one
      obtain ⟨rfl, own⟩ := same
      exact (openAt_beside own).to_where
  · intro chosen
    cases chosen with
    | none => exact Grown.refl
    | some pick => exact openAt_grown _ _ _ _

/-- An event takes both passes on in the same way. -/
theorem visit_beside :
    LockstepWhere (Quiet front.length extra document begun) Eq (Beside front.length extra document begun)
      (visit (front ++ back) { document, index } event)
      (visit (front ++ extra :: back) { document, index } event) := by
  refine Lockstep.get.bind_where ?_
  intro alone joined beside
  have modes := beside.mode
  generalize alone.mode = one, joined.mode = another at modes
  cases modes with
  | searching => exact search_beside valid pure clear none
  | @editing active own =>
    refine (askBoth_beside own).bind_where ?_
    rintro ⟨started, stopped⟩ _ rfl
    cases stopped with
    | true =>
      refine (handOver_beside active (active.stoppedAt document.source event)).bind_where ?_
      rintro _ _ -
      exact search_beside valid pure clear (some (active.position, started))
    | false =>
      have longer : { active with rest := active.rest ++ [event] : Active World }.binding.Clear
          extra.slots := own
      exact (Lockstep.modify fun _ _ beside => { beside with mode := .editing longer }).to_where

theorem events_beside {left : List Event} :
    LockstepWhere (Quiet front.length extra document begun) Eq (Beside front.length extra document begun)
      (events (front ++ back) document left index)
      (events (front ++ extra :: back) document left index) := by
  induction left generalizing index with
  | nil => exact (Lockstep.pure rfl).to_where
  | cons event left ih =>
    refine (visit_beside valid pure clear).bind ?_ ?_ Quiet.of_grown
    · rintro _ _ -
      refine (Lockstep.ofExcept _).bind_where ?_
      rintro _ _ -
      exact ih
    · intro _
      exact (ofExcept_grown _).bind .trans fun _ => events_grown _ _ _ _

omit valid pure clear

theorem finish_beside (policy : Policy) (source : Text) : Lockstep Eq (Beside place extra document begun)
    (finish policy source : Step World Unit) (finish policy source) := by
  refine Lockstep.get.bind ?_
  intro alone joined beside
  have modes := beside.mode
  generalize alone.mode = one, joined.mode = another at modes
  cases modes with
  | searching => exact atDesk_beside _
  | @editing active own =>
    cases policy with
    | fail =>
      have refused : Lockstep Eq (Beside place extra document begun)
          (throw (.unterminated active.index active.opening.start source.length) : Step World Unit)
          (throw (.unterminated active.index active.opening.start source.length)) := .throw _
      exact refused.bind fun _ _ _ => atDesk_beside _
    | handOver =>
      refine (note_beside (.leftOpen active.index)).bind ?_
      rintro _ _ -
      have listed : Lockstep Eq (Beside place extra document begun)
          (modify fun pass =>
            { pass with unterminated := pass.unterminated ++ [active.unstopped source] } :
            Step World PUnit) (modify fun pass =>
              { pass with unterminated := pass.unterminated ++ [active.unstopped source] }) :=
        .modify fun _ _ beside =>
          { beside with unterminated := congrArg (· ++ [active.unstopped source]) beside.unterminated }
      refine listed.bind ?_
      rintro _ _ -
      refine (handOver_beside active _).bind ?_
      rintro _ _ -
      exact atDesk_beside _

include valid pure clear

theorem all_beside (policy : Policy) :
    LockstepWhere (Quiet front.length extra document begun) Eq (Beside front.length extra document begun)
      (all (front ++ back) document policy) (all (front ++ extra :: back) document policy) := by
  refine (Lockstep.ofExcept _).bind_where ?_
  rintro cursor _ rfl
  refine (events_beside valid pure clear).bind ?_ ?_ Quiet.of_grown
  · rintro _ _ -
    refine Lockstep.to_where ?_
    refine (finish_beside policy _).bind ?_
    rintro _ _ -
    refine Lockstep.get.bind ?_
    intro alone joined beside
    rw [beside.writer, beside.regions, beside.unterminated]
    exact .pure rfl
  · intro _
    exact (finish_grown _ _).bind .trans fun _ => Keeps.bind .trans Grown.refl fun _ => Grown.refl

end

/-- Before the first event nobody was asked. -/
theorem beside_begun (memory : Memory World) (source : Text) :
    Beside place extra document memory { memory, writer := { source } } { memory, writer := { source } } := by
  refine ⟨⟨rfl, fun slot => ?_⟩, rfl, .searching, rfl, rfl, rfl⟩
  split <;> rfl

end Pass

variable {front back : List (Binding World)} {policy : Policy} {memory : Memory World}

/-- Put in anywhere among others, a binding that shares no state with them and starts nowhere changes
nothing. It starts nowhere if its start matcher, asked at the events at which it is asked there, answers
false at each of them. The text is the same, or the fault, and so are the unterminated regions; the same
regions go to the same callbacks, which find the same writer and the same world. Apart from the questions
that it was asked itself and from the positions of those after it everything happens in the same order, and
in the end all slots but its own hold the same. -/
theorem emend_inert (valid : document.Valid) (pure : extra.Pure)
    (clear : ∀ binding ∈ front ++ back, binding.Clear extra.slots)
    (inert : extra.Inert document memory
      ((emend (front ++ extra :: back) document policy memory).journal.heardAt front.length)) :
    let alone := emend (front ++ back) document policy memory
    let joined := emend (front ++ extra :: back) document policy memory
    joined.answer = alone.answer ∧
    joined.journal.filter (!·.asks front.length) = alone.journal.map (Note.moved front.length) ∧
    (joined.journal.handed.map fun (position, region) =>
      ((front ++ extra :: back)[position]?.map Binding.callback, region)) =
      alone.journal.handed.map (fun (position, region) =>
        ((front ++ back)[position]?.map Binding.callback, region)) ∧
    (∀ slot, slot ∉ extra.slots → joined.memory.registers.get slot = alone.memory.registers.get slot) ∧
    joined.memory.world = alone.memory.world := by
  intro alone joined
  have passes := Pass.all_beside valid pure clear policy _ _
    (@Pass.beside_begun _ front.length extra document memory document.source)
  have beside : joined.answer = alone.answer ∧ ∃ first second : Pass World,
      first.Beside front.length extra document memory second ∧
      alone.journal = first.journal ∧ alone.memory = first.memory ∧
      joined.journal = second.journal ∧ joined.memory = second.memory := by
    unfold alone joined
    unfold emend at inert ⊢
    unfold Pass.Quiet at passes
    generalize Pass.all (front ++ back) document policy _ = one,
      Pass.all (front ++ extra :: back) document policy _ = other at passes inert ⊢
    cases other with
    | ok emended second =>
      cases passes inert with
      | ok answered left => exact ⟨congrArg Except.ok answered.symm, _, second, left, rfl, rfl, rfl, rfl⟩
    | error fault second =>
      cases passes inert with
      | error left => exact ⟨rfl, _, second, left, rfl, rfl, rfl, rfl⟩
  obtain ⟨answer, first, second, beside, firstJournal, firstMemory, secondJournal, secondMemory⟩ := beside
  have journal := beside.journal
  rw [← firstJournal, ← secondJournal] at journal
  refine ⟨answer, journal, ?_, fun slot outside => ?_, ?_⟩
  · rw [← Journal.handed_filter joined.journal, journal, Journal.handed_moved, List.map_map]
    refine List.map_congr_left fun found _ => ?_
    simp only [Function.comp, getElem?_moved]
  · rw [firstMemory, secondMemory, beside.memory.registers, if_neg outside]
  · rw [firstMemory, secondMemory, beside.memory.world]

/-- Regions that begin on a new line, of which a document of one line has none. -/
def bystander : Binding Unit where
  start := .nextLine 2 .always
  stop := some (.fallingEdge 3 .always)
  callback := fun _ => .once (.insert ['!'])

/-- Every event for itself, in brackets. -/
def bracketed : Binding Unit where
  start := .always
  stop := none
  callback := fun region =>
    .act (.insert ['(']) (.act (.copyTo region.span.stop) (.once (.insert [')'])))

/-- Between the two others it is not asked at events 2 and 3, which lie in a region of the first. The last
line it has seen is the only one, and what it keeps is nobody else's. -/
theorem bystander_emend_inert :
    let alone := emend [Binding.onceOdd, bracketed] fiveRules .handOver { world := () }
    let joined := emend [Binding.onceOdd, bystander, bracketed] fiveRules .handOver { world := () }
    joined.journal.heardAt 1 = [0, 1, 4] ∧ joined.memory.registers.get 2 = { line := ⟨.armed, 0⟩ } ∧
    joined.answer = .ok { text := ['(', 'a', ')', '(', 'e', ')'], regions := 3 } ∧
    (∀ slot < 2, joined.memory.registers.get slot = alone.memory.registers.get slot) := by
  have heard : (emend [Binding.onceOdd, bystander, bracketed] fiveRules .handOver
      { world := () }).journal.heardAt 1 = [0, 1, 4] := by
    cbv
  have line : (emend [Binding.onceOdd, bystander, bracketed] fiveRules .handOver
      { world := () }).memory.registers.get 2 = { line := ⟨.armed, 0⟩ } := by
    cbv
  have given : (emend [Binding.onceOdd, bracketed] fiveRules .handOver { world := () }).answer =
      .ok { text := ['(', 'a', ')', '(', 'e', ')'], regions := 3 } := by
    cbv
  have valid : fiveRules.Valid := ⟨by decide, by decide⟩
  have pure : bystander.Pure := ⟨trivial, fun stop given => Option.mem_some_iff.mp given ▸ trivial⟩
  have clear : ∀ binding ∈ [Binding.onceOdd] ++ [bracketed], binding.Clear bystander.slots := by
    intro binding member
    rcases List.mem_cons.mp member with rfl | member
    · unfold Binding.Clear
      decide
    · cases List.mem_singleton.mp member
      unfold Binding.Clear
      decide
  have inert : bystander.Inert fiveRules { world := () }
      ((emend [Binding.onceOdd, bystander, bracketed] fiveRules .handOver
        { world := () }).journal.heardAt 1) := by
    rw [heard]
    exact .cons rfl (.cons rfl (.cons rfl .nil))
  obtain ⟨answer, -, -, registers, -⟩ := @emend_inert _ bystander fiveRules [Binding.onceOdd] [bracketed]
    .handOver { world := () } valid pure clear inert
  simp only [List.singleton_append] at answer registers
  have outside : ∀ slot < 2, slot ∉ bystander.slots := by decide
  exact ⟨heard, line, answer.trans given, fun slot before => registers slot (outside slot before)⟩

end Emend
