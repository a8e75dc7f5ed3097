import Mathlib
import Emend.Matcher.Phrase
import Emend.Proofs.Matcher.Locality

/-! What a matcher tree means, told by recursion on the tree and without any state: each kind of matcher
turns the answers of its parts at all events into answers of its own. Asking the tree at one event after
the other gives exactly these answers. The slots of a tree hold a summary of the events so far, and where
a one-shot has fired they may hold anything, because nobody will ask below it again. -/
namespace Emend
variable {World : Type} {document : Document} {world : World} {event : Event} {index : Nat}

/-- Whether the event opens a heading of the level, or any heading if no level is given. -/
def Event.startsHeading (event : Event) (level : Option HeadingLevel) : Bool :=
  event.kind == .opening && event.tag.any fun tag =>
    tag.kind == .heading && level.all fun asked => tag.level == some (asked.value : Int)

/-- The line that an event starts on and the line that holds its last character. An empty event has no
character; both lines are then the one it stands on. -/
def Document.extent (document : Document) (event : Event) : Nat × Nat :=
  (document.lines.line event.start, document.lines.line (max event.start (event.stop - 1)))

def Predicate.holds (check : Predicate World) (world : World) (cursor : Cursor) : Bool :=
  match check.run cursor world with
  | .ok answer _ => answer
  | .error _ _ => false

def firstOnly (accepts : Nat → Bool) (index : Nat) : Bool :=
  accepts index && (List.range index).all fun earlier => !accepts earlier

/-- The events right after an accepted one that are not accepted themselves. -/
def fallingFrom (accepts : Nat → Bool) : Nat → Bool
  | 0 => false
  | before + 1 => accepts before && !accepts (before + 1)

/-- The next-line pattern at one event: the state after it, and the answer. -/
def nextLineStep (document : Document) (accepts : Nat → Bool) (index : Nat) (state : NextLineState) :
    NextLineState × Bool :=
  match document.events[index]? with
  | none => (state, false)
  | some event => state.step (accepts index) (document.extent event).1 (document.extent event).2

/-- The state of the next-line pattern before an event: the steps of all events before it, one after the
other. -/
def nextLineState (document : Document) (accepts : Nat → Bool) : Nat → NextLineState
  | 0 => {}
  | index + 1 => (nextLineStep document accepts index (nextLineState document accepts index)).1

namespace Matcher
variable {matcher inner : Matcher World} {slot : Slot} {registers others : Registers}
  {memory : Memory World}

/-- The answer that a tree stands for at each event of a document. -/
def meaning (document : Document) (world : World) : Matcher World → Nat → Bool
  | always, _ => true
  | heading level, index => document.events[index]?.any (·.startsHeading level)
  | predicate check, index => check.holds world { document, index }
  | both left right, index => left.meaning document world index && right.meaning document world index
  | oneShot _ inner, index => firstOnly (inner.meaning document world) index
  | fallingEdge _ inner, index => fallingFrom (inner.meaning document world) index
  | nextLine _ inner, index =>
    let accepts := inner.meaning document world
    (nextLineStep document accepts index (nextLineState document accepts index)).2
  | foreign _, _ => false

/-- The registers hold for each slot of the tree what the events before `index` have come to. Below a
one-shot that has fired they may hold anything. -/
def Remembers (document : Document) (world : World) (registers : Registers) (index : Nat) :
    Matcher World → Prop
  | always | heading _ | predicate _ | foreign _ => True
  | both left right => left.Remembers document world registers index ∧
      right.Remembers document world registers index
  | oneShot slot inner =>
    match (registers.get slot).shot with
    | .armed => (∀ earlier < index, inner.meaning document world earlier = false) ∧
        inner.Remembers document world registers index
    | .fired => ∃ earlier < index, inner.meaning document world earlier = true
  | fallingEdge slot inner =>
    (registers.get slot).observed = (0 < index && inner.meaning document world (index - 1)) ∧
      inner.Remembers document world registers index
  | nextLine slot inner =>
    (registers.get slot).line = nextLineState document (inner.meaning document world) index ∧
      inner.Remembers document world registers index

/-- What a tree remembers is in its own slots. -/
theorem Remembers.congr (remembers : matcher.Remembers document world registers index)
    (same : ∀ slot ∈ matcher.slots, others.get slot = registers.get slot) :
    matcher.Remembers document world others index := by
  induction matcher with
  | always | heading | predicate | foreign => trivial
  | both left right ihLeft ihRight =>
    exact ⟨ihLeft remembers.1 fun slot member => same slot (List.mem_append_left _ member),
      ihRight remembers.2 fun slot member => same slot (List.mem_append_right _ member)⟩
  | oneShot slot inner ih =>
    unfold Remembers at remembers ⊢
    rw [same slot List.mem_cons_self]
    split at remembers
    · exact ⟨remembers.1, ih remembers.2 fun slot member => same slot (List.mem_cons_of_mem _ member)⟩
    · exact remembers
  | fallingEdge slot inner ih | nextLine slot inner ih =>
    unfold Remembers at remembers ⊢
    rw [same slot List.mem_cons_self]
    exact ⟨remembers.1, ih remembers.2 fun slot member => same slot (List.mem_cons_of_mem _ member)⟩

/-- Writing a slot that is not the tree's. -/
theorem Remembers.set_other (remembers : matcher.Remembers document world registers index)
    (apart : slot ∉ matcher.slots) (cell : Cell) :
    matcher.Remembers document world (registers.set slot cell) index := by
  apply remembers.congr
  intro other member
  apply Registers.get_set_of_ne
  rintro rfl
  exact apart member

/-- Asking a tree that has no slot in common. -/
theorem Remembers.of_untouched {slots : List Slot} {before after : Memory World}
    (remembers : matcher.Remembers document world before.registers index)
    (untouched : Untouched slots before after) (apart : ∀ slot ∈ matcher.slots, slot ∉ slots) :
    matcher.Remembers document world after.registers index :=
  remembers.congr fun slot member => untouched slot (apart slot member)

/-- Before the first event there is nothing to remember, and nothing is held. -/
theorem remembers_initial (initial : ∀ slot ∈ matcher.slots, registers.get slot = {}) :
    matcher.Remembers document world registers 0 := by
  induction matcher with
  | always | heading | predicate | foreign => trivial
  | both left right ihLeft ihRight =>
    exact ⟨ihLeft fun slot member => initial slot (List.mem_append_left _ member),
      ihRight fun slot member => initial slot (List.mem_append_right _ member)⟩
  | oneShot slot inner ih =>
    have below := ih fun slot member => initial slot (List.mem_cons_of_mem _ member)
    unfold Remembers
    rw [initial slot List.mem_cons_self]
    exact ⟨fun earlier before => absurd before (Nat.not_lt_zero earlier), below⟩
  | fallingEdge slot inner ih | nextLine slot inner ih =>
    have below := ih fun slot member => initial slot (List.mem_cons_of_mem _ member)
    unfold Remembers
    rw [initial slot List.mem_cons_self]
    exact ⟨rfl, below⟩

private theorem opensHeading_eq (level : Option HeadingLevel) (event : Event) :
    opensHeading level event = event.startsHeading level := by
  unfold opensHeading Event.startsHeading Event.isOpening Event.tagged
  cases event.tag <;> cases level <;> simp [Bool.and_assoc]

private theorem firstOnly_of_none {accepts : Nat → Bool} (none : ∀ earlier < index, accepts earlier = false) :
    firstOnly accepts index = accepts index := by
  have quiet : (List.range index).all (fun earlier => !accepts earlier) = true := by
    simpa using none
  rw [firstOnly, quiet, Bool.and_true]

private theorem firstOnly_of_some {accepts : Nat → Bool} (some : ∃ earlier < index, accepts earlier = true) :
    firstOnly accepts index = false := by
  obtain ⟨earlier, before, accepted⟩ := some
  have loud : (List.range index).all (fun earlier => !accepts earlier) = false := by
    simp only [List.all_eq_false, List.mem_range, Bool.not_eq_true, Bool.not_eq_false']
    exact ⟨earlier, before, accepted⟩
  rw [firstOnly, loud, Bool.and_false]

/-- A pure check answers the same in every world and leaves the world alone. -/
theorem check_eq_ok {p : Predicate World} (pure : p.Pure) (cursor : Cursor) :
    check p cursor memory = .ok (p.holds world cursor) memory := by
  obtain ⟨holds, runs⟩ := pure
  simp only [check, Predicate.holds, runs, Pure.pure, EStateM.pure]

private theorem oneShot_means (apart : slot ∉ inner.slots)
    (remembers : (oneShot slot inner).Remembers document world memory.registers index)
    (ih : inner.Remembers document world memory.registers index → ∃ after,
      inner.observe { document, index } event memory = .ok (inner.meaning document world index) after ∧
      inner.Remembers document world after.registers (index + 1)) : ∃ after,
    (oneShot slot inner).observe { document, index } event memory =
      .ok ((oneShot slot inner).meaning document world index) after ∧
    (oneShot slot inner).Remembers document world after.registers (index + 1) := by
  unfold Remembers at remembers
  cases shot : (memory.registers.get slot).shot with
  | fired =>
    rw [shot] at remembers
    obtain ⟨earlier, before, accepted⟩ := remembers
    refine ⟨memory, ?_, ?_⟩
    · rw [observe_oneShot_fired shot, meaning, firstOnly_of_some ⟨earlier, before, accepted⟩]
    · unfold Remembers
      rw [shot]
      exact ⟨earlier, Nat.lt_succ_of_lt before, accepted⟩
  | armed =>
    rw [shot] at remembers
    obtain ⟨quiet, below⟩ := remembers
    obtain ⟨between, ran, next⟩ := ih below
    have asked := observe_oneShot_armed shot ran
    have answer : (OneShotState.step .armed (inner.meaning document world index)).2 =
        (oneShot slot inner).meaning document world index := by
      rw [meaning, firstOnly_of_none quiet]
      cases inner.meaning document world index <;> rfl
    rw [answer] at asked
    refine ⟨_, asked, ?_⟩
    unfold Remembers
    rw [Registers.get_set_self]
    cases accepted : inner.meaning document world index with
    | true => exact ⟨index, Nat.lt_succ_self index, accepted⟩
    | false =>
      refine ⟨?_, next.set_other apart _⟩
      intro earlier before
      rcases Nat.lt_succ_iff_lt_or_eq.mp before with before | rfl
      · exact quiet earlier before
      · exact accepted

/-- One event: a tree that remembers the events so far answers as it should and remembers this one too. -/
theorem observe_means (valid : document.Valid) (found : document.events[index]? = some event)
    (pure : matcher.Pure) (apart : matcher.slots.Nodup)
    (remembers : matcher.Remembers document world memory.registers index) : ∃ after,
    matcher.observe { document, index } event memory =
      .ok (matcher.meaning document world index) after ∧
    matcher.Remembers document world after.registers (index + 1) := by
  have member := List.mem_of_getElem? found
  induction matcher generalizing memory with
  | always => exact ⟨memory, rfl, trivial⟩
  | heading level =>
    refine ⟨memory, ?_, trivial⟩
    rw [meaning, found, Option.any_some, ← opensHeading_eq]
    rfl
  | predicate p => exact ⟨memory, check_eq_ok pure _, trivial⟩
  | foreign thing => exact pure.elim
  | both left right ihLeft ihRight =>
    obtain ⟨apartLeft, apartRight, disjoint⟩ := List.nodup_append'.mp apart
    obtain ⟨between, ranLeft, nextLeft⟩ := ihLeft pure.1 apartLeft remembers.1
    have still : right.Remembers document world between.registers index :=
      remembers.2.of_untouched ((observe_untouched left fun _ own => own).of_ok ranLeft)
        fun slot own other => disjoint other own
    obtain ⟨after, ranRight, nextRight⟩ := ihRight pure.2 apartRight still
    exact ⟨after, observe_both_eq_ok.mpr ⟨_, between, _, ranLeft, ranRight, rfl⟩,
      nextLeft.of_untouched ((observe_untouched right fun _ own => own).of_ok ranRight)
        fun slot own other => disjoint own other, nextRight⟩
  | oneShot slot inner ih =>
    obtain ⟨own, below⟩ := List.nodup_cons.mp apart
    exact oneShot_means own remembers fun remembers => ih pure below remembers
  | fallingEdge slot inner ih =>
    obtain ⟨own, below⟩ := List.nodup_cons.mp apart
    obtain ⟨previous, remembers⟩ := remembers
    obtain ⟨between, ran, next⟩ := ih pure below remembers
    have answer : (fallingEdgeStep (memory.registers.get slot).observed
        (inner.meaning document world index)).2 =
        (fallingEdge slot inner).meaning document world index := by
      rw [previous, meaning]
      cases index <;> simp [fallingEdgeStep, fallingFrom]
    refine ⟨_, (observe_fallingEdge ran).trans (congrArg₂ _ answer rfl), ?_, next.set_other own _⟩
    rw [Registers.get_set_self]
    simp [fallingEdgeStep]
  | nextLine slot inner ih =>
    obtain ⟨own, below⟩ := List.nodup_cons.mp apart
    obtain ⟨state, remembers⟩ := remembers
    obtain ⟨between, ran, next⟩ := ih pure below remembers
    have stepped : nextLineStep document (inner.meaning document world) index
        (memory.registers.get slot).line = (memory.registers.get slot).line.step
          (inner.meaning document world index) (document.extent event).1 (document.extent event).2 := by
      rw [nextLineStep, found]
    have answer : ((memory.registers.get slot).line.step (inner.meaning document world index)
        (document.extent event).1 (document.extent event).2).2 =
        (nextLine slot inner).meaning document world index := by
      rw [← stepped, state, meaning]
    refine ⟨_, (observe_nextLine_of_within (valid.within event member) ran).trans (congrArg₂ _ answer rfl), ?_,
      next.set_other own _⟩
    rw [Registers.get_set_self, nextLineState, ← state, stepped]
    rfl

/-- Asked at every event from the first one on, the tree remembers what it should at each of them. -/
theorem watched_remembers (valid : document.Valid) (pure : matcher.Pure) (apart : matcher.slots.Nodup)
    (initial : ∀ slot ∈ matcher.slots, memory.registers.get slot = {})
    (inside : index ≤ document.events.length) :
    matcher.Remembers document world (matcher.watched document memory index).registers index := by
  induction index with
  | zero => exact remembers_initial initial
  | succ index ih =>
    have found : document.events[index]? = some document.events[index] := List.getElem?_eq_getElem inside
    obtain ⟨after, ran, next⟩ := observe_means valid found pure apart (ih (Nat.le_of_succ_le inside))
    have current : ({ document, index } : Cursor).current = some document.events[index] := found
    simp only [watched, evaluate, current, ran]
    exact next

theorem answerAt_eq_meaning (valid : document.Valid) (pure : matcher.Pure)
    (apart : matcher.slots.Nodup) (initial : ∀ slot ∈ matcher.slots, memory.registers.get slot = {})
    (inside : index < document.events.length) :
    matcher.answerAt document memory index = matcher.meaning document world index := by
  have found : document.events[index]? = some document.events[index] := List.getElem?_eq_getElem inside
  have remembers : matcher.Remembers document world
      (matcher.watched document memory index).registers index :=
    watched_remembers valid pure apart initial (Nat.le_of_lt inside)
  obtain ⟨after, ran, -⟩ := observe_means valid found pure apart remembers
  have current : ({ document, index } : Cursor).current = some document.events[index] := found
  simp only [answerAt, answer, evaluate, current, ran]

/-- The tree's answers at all events of a document, asked one after the other. -/
def answers (matcher : Matcher World) (document : Document) : Watch World (List Bool) :=
  (List.range document.events.length).mapM fun index => matcher.evaluate { document, index }

/-- A pure tree always answers, and its answers are those that it gives along the way. -/
theorem answers_eq_ok (valid : document.Valid) (pure : matcher.Pure) (memory : Memory World) :
    matcher.answers document memory =
      .ok ((List.range document.events.length).map (matcher.answerAt document memory))
        (matcher.watched document memory document.events.length) := by
  have going (index count : Nat) :
      (List.range' index count).mapM (fun index => matcher.evaluate { document, index })
        (matcher.watched document memory index) =
      .ok ((List.range' index count).map (matcher.answerAt document memory))
        (matcher.watched document memory (index + count)) := by
    induction count generalizing index with
    | zero => rfl
    | succ count ih =>
      obtain ⟨after, ran⟩ := evaluate_ok valid index pure (matcher.watched document memory index)
      have reached : matcher.watched document memory (index + 1) = after := by
        simp only [watched, ran]
        rfl
      have rest := ih (index + 1)
      rw [reached, Nat.add_right_comm] at rest
      rw [List.range'_succ, List.mapM_cons]
      exact bind_eq_ok.mpr ⟨_, after, ran, bind_eq_ok.mpr ⟨_, _, rest, rfl⟩⟩
  have whole := going 0 document.events.length
  rw [Nat.zero_add, ← List.range_eq_range'] at whole
  exact whole

/-- A tree of the seven kinds of matchers whose parts share no state, in its initial state, answers on a
valid document as its meaning says: at every event, and nowhere else than at the events it stands for does
a search find it. No question fails on the way. -/
theorem answers_eq_meaning {memory : Memory World} (valid : document.Valid) (pure : matcher.Pure)
    (apart : matcher.slots.Nodup) (initial : ∀ slot ∈ matcher.slots, memory.registers.get slot = {}) :
    (∃ after, matcher.answers document memory =
      .ok ((List.range document.events.length).map (matcher.meaning document memory.world)) after) ∧
    ∃ after, Search.indices (.matcher matcher) document none memory =
      .ok ((List.range document.events.length).filter (matcher.meaning document memory.world)) after := by
  have same : ∀ index ∈ List.range document.events.length,
      matcher.answerAt document memory index = matcher.meaning document memory.world index :=
    fun index member => answerAt_eq_meaning valid pure apart initial (List.mem_range.mp member)
  have answered := answers_eq_ok valid pure memory
  have found := Search.indices_eq_ok valid pure memory
  rw [List.map_congr_left same] at answered
  rw [List.filter_congr same] at found
  exact ⟨⟨_, answered⟩, _, found⟩

/-- Two headings, each with a line of text after it. -/
def twoHeadings : Document where
  source := ['#', ' ', 'a', '\n', 'b', '\n', '#', ' ', 'c', '\n', 'd', '\n']
  events := [
    { kind := .opening, span := .reach 0 4, tag := some { kind := .heading, level := some 1 } },
    { kind := .text, span := .reach 4 5, text := ['b'] },
    { kind := .opening, span := .reach 6 10, tag := some { kind := .heading, level := some 1 } },
    { kind := .text, span := .reach 10 11, text := ['d'] }]

def afterHeading (slot : Slot) : Matcher Unit :=
  .nextLine slot (.heading none)

/-- An opening event right after the first of the events that come after a heading. -/
def afterFirst : Matcher Unit :=
  .both (.fallingEdge 0 (.oneShot 1 (afterHeading 2))) (.predicate (.onEvent "opening" (·.isOpening)))

/-- The innermost matcher stands for events 1 and 3. It is not asked at event 3 any more, as the one-shot
around it has fired at event 1, so the whole tree stands for event 2 only. -/
theorem afterFirst_answers_eq_meaning :
    (List.range 4).filter ((afterHeading 2).meaning twoHeadings ()) = [1, 3] ∧
    (∃ after, afterFirst.answers twoHeadings { world := () } = .ok [false, false, true, false] after) ∧
    ∃ after, Search.indices (.matcher afterFirst) twoHeadings none { world := () } = .ok [2] after := by
  have valid : twoHeadings.Valid := ⟨by decide, by decide⟩
  have pure : afterFirst.Pure := ⟨trivial, _, fun _ => rfl⟩
  exact ⟨by decide, answers_eq_meaning valid pure (by decide) fun slot member => rfl⟩

end Matcher
end Emend
