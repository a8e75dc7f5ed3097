import Emend.Proofs.Matcher.Renaming
import Emend.Proofs.Matcher.Scanning
import Emend.Proofs.Source.LineOrder

/-! What the answers of a matcher depend on: the document, the event, and what the tree's own slots hold,
wherever these are. So a tree and its copies answer alike as long as their slots do, whatever else is
asked in between, and a search tells beforehand what an edit will see. -/
namespace Emend
variable {World : Type}

/-- A check that answers from the cursor alone: it neither fails nor acts on the world. -/
def Predicate.Pure (check : Predicate World) : Prop :=
  ∃ holds : Cursor → Bool, ∀ cursor, check.run cursor = pure (holds cursor)

namespace Matcher

/-- A tree of the seven kinds of matchers whose predicates are pure. -/
def Pure : Matcher World → Prop
  | always | heading _ => True
  | predicate check => check.Pure
  | both left right => left.Pure ∧ right.Pure
  | oneShot _ inner | fallingEdge _ inner | nextLine _ inner => inner.Pure
  | foreign _ => False

/-- A tree without timing patterns whose predicates are pure. -/
def Stateless (matcher : Matcher World) : Prop :=
  matcher.Pure ∧ matcher.slots = []

/-- The answer at a cursor; false if there is none. -/
def answer (matcher : Matcher World) (cursor : Cursor) (memory : Memory World) : Bool :=
  match matcher.evaluate cursor memory with
  | .ok answer _ => answer
  | .error _ _ => false

/-- The memory once the tree was asked at the first events of a document, each of them once. -/
def watched (matcher : Matcher World) (document : Document) (memory : Memory World) :
    Nat → Memory World
  | 0 => memory
  | index + 1 => stateOf (matcher.evaluate { document, index } (watched matcher document memory index))

/-- The answer at an event, when the tree is asked at every event from the first one on. -/
def answerAt (matcher : Matcher World) (document : Document) (memory : Memory World) (index : Nat) :
    Bool :=
  matcher.answer { document, index } (matcher.watched document memory index)

theorem shift_zero (matcher : Matcher World) : matcher.shift 0 = matcher := by
  induction matcher with
  | always | heading | predicate | foreign => rfl
  | both left right ihLeft ihRight => rw [shift, ihLeft, ihRight]
  | oneShot slot inner ih | fallingEdge slot inner ih | nextLine slot inner ih =>
    rw [shift, ih, Nat.zero_add]

theorem slots_shift (matcher : Matcher World) (distance : Slot) :
    (matcher.shift distance).slots = matcher.slots.map (distance + ·) := by
  induction matcher with
  | always | heading | predicate | foreign => rfl
  | both left right ihLeft ihRight => simp only [shift, slots, ihLeft, ihRight, List.map_append]
  | oneShot slot inner ih | fallingEdge slot inner ih | nextLine slot inner ih =>
    simp only [shift, slots, ih, List.map_cons]

private theorem Pure.shift_pure {matcher : Matcher World} (pure : matcher.Pure) (distance : Slot) :
    (matcher.shift distance).Pure := by
  induction matcher with
  | always | heading | predicate => exact pure
  | both left right ihLeft ihRight => exact ⟨ihLeft pure.1, ihRight pure.2⟩
  | oneShot slot inner ih | fallingEdge slot inner ih | nextLine slot inner ih => exact ih pure
  | foreign thing => exact pure.elim

theorem Pure.complete {matcher : Matcher World} (pure : matcher.Pure) : matcher.complete = true := by
  induction matcher with
  | always | heading | predicate => rfl
  | both left right ihLeft ihRight =>
    simp only [Matcher.complete, ihLeft pure.1, ihRight pure.2, Bool.and_self]
  | oneShot slot inner ih | fallingEdge slot inner ih | nextLine slot inner ih => exact ih pure
  | foreign thing => exact pure.elim

private theorem Pure.checks_pure {matcher : Matcher World} (pure : matcher.Pure) :
    ∀ p ∈ matcher.checks, p.Pure := by
  induction matcher with
  | always | heading => exact fun p member => nomatch member
  | predicate own =>
    intro p member
    cases List.mem_singleton.mp member
    exact pure
  | both left right ihLeft ihRight =>
    intro p member
    rcases List.mem_append.mp member with member | member
    · exact ihLeft pure.1 p member
    · exact ihRight pure.2 p member
  | oneShot slot inner ih | fallingEdge slot inner ih | nextLine slot inner ih => exact ih pure
  | foreign thing => exact pure.elim

/-- Asking a pure tree leaves the world alone. -/
theorem evaluate_world {matcher : Matcher World} (pure : matcher.Pure) {cursor : Cursor} :
    Keeps (fun before after : Memory World => after.world = before.world) (matcher.evaluate cursor) := by
  unfold evaluate
  cases cursor.current with
  | none => exact fun memory => rfl
  | some event =>
    refine @observe_keeps World cursor event (fun before after => after.world = before.world)
      (fun memory => rfl) (fun first second => second.trans first) matcher ?_ ?_
    · intro p member memory
      obtain ⟨holds, runs⟩ := pure.checks_pure p member
      simp only [check, runs, Pure.pure, EStateM.pure, stateOf]
    · exact fun slot own cell memory => rfl

/-- The registers hold the same for each of these slots, each under its own numbering. -/
def Alike (scope : List Slot) (here there : Slot) (first second : Registers) : Prop :=
  ∀ slot ∈ scope, first.get (here + slot) = second.get (there + slot)

variable {scope : List Slot} {here there : Slot} {document : Document} {matcher : Matcher World}

private theorem Alike.set_alike {first second : Registers} (alike : Alike scope here there first second)
    (slot : Slot)
    (cell : Cell) : Alike scope here there (first.set (here + slot) cell)
      (second.set (there + slot) cell) := by
  intro other member
  by_cases same : other = slot
  · rw [same, Registers.get_set_self, Registers.get_set_self]
  · have apart (base : Slot) : base + other ≠ base + slot := fun equal => same (Nat.add_left_cancel equal)
    rw [Registers.get_set_of_ne _ _ (apart here), Registers.get_set_of_ne _ _ (apart there)]
    exact alike other member

/-- The lines are known wherever an event is that ends within the source. -/
theorem lineAt_of_within {event : Event} (within : event.stop ≤ document.source.length)
    {offset : Int} (lower : 0 ≤ offset) (upper : offset ≤ max (event.start : Int) (event.stop - 1)) :
    document.lineAt offset = .ok (document.lines.line offset.toNat) := by
  have ordered := event.span.ordered
  simp only [Event.start, Event.stop] at upper within
  rw [Document.lineAt, document.lines_eq]
  exact Lines.lineAt_eq_ok_iff.mpr ⟨⟨lower, by omega⟩, rfl⟩

/-- At an event within the source the lines are known, so the pattern fails only where its inner matcher
does. -/
theorem observe_nextLine_of_within {event : Event} (within : event.stop ≤ document.source.length)
    {index slot : Nat} {inner : Matcher World} {memory between : Memory World} {observed : Bool}
    (ran : inner.observe { document, index } event memory = .ok observed between) :
    (nextLine slot inner).observe { document, index } event memory =
      let stepped := (memory.registers.get slot).line.step observed (document.lines.line event.start)
        (document.lines.line (max event.start (event.stop - 1)))
      .ok stepped.2 { between with
        registers := between.registers.set slot { memory.registers.get slot with line := stepped.1 } } := by
  have begins := lineAt_of_within within (Int.natCast_nonneg event.start) (Int.le_max_left ..)
  have ends := lineAt_of_within within
    (Int.le_trans (Int.natCast_nonneg event.start) (Int.le_max_left ..)) (Int.le_refl _)
  have last : (max (event.start : Int) (event.stop - 1)).toNat = max event.start (event.stop - 1) := by
    omega
  rw [last] at ends
  exact observe_nextLine ran begins ends

/-- Two copies of a pure tree give the same answer where their slots hold the same, and leave them
holding the same. -/
theorem observe_alike (valid : document.Valid) {index : Nat} {event : Event}
    (found : event ∈ document.events) (pure : matcher.Pure)
    (part : ∀ slot ∈ matcher.slots, slot ∈ scope) {first second : Memory World}
    (alike : Alike scope here there first.registers second.registers) :
    ∃ answer firstAfter secondAfter,
      (matcher.shift here).observe { document, index } event first = .ok answer firstAfter ∧
      (matcher.shift there).observe { document, index } event second = .ok answer secondAfter ∧
      Alike scope here there firstAfter.registers secondAfter.registers := by
  induction matcher generalizing first second with
  | always => exact ⟨true, first, second, rfl, rfl, alike⟩
  | heading level => exact ⟨opensHeading level event, first, second, rfl, rfl, alike⟩
  | predicate p =>
    obtain ⟨holds, runs⟩ := pure
    have checked (memory : Memory World) : check p { document, index } memory =
        .ok (holds { document, index }) memory := by
      simp only [check, runs, Pure.pure, EStateM.pure]
    exact ⟨_, first, second, checked first, checked second, alike⟩
  | foreign thing => exact pure.elim
  | both left right ihLeft ihRight =>
    obtain ⟨leftAnswer, firstMiddle, secondMiddle, ranFirst, ranSecond, alike⟩ :=
      ihLeft pure.1 (fun slot member => part slot (List.mem_append_left _ member)) alike
    obtain ⟨rightAnswer, firstAfter, secondAfter, goesFirst, goesSecond, alike⟩ :=
      ihRight pure.2 (fun slot member => part slot (List.mem_append_right _ member)) alike
    exact ⟨leftAnswer && rightAnswer, firstAfter, secondAfter,
      observe_both_eq_ok.mpr ⟨_, _, _, ranFirst, goesFirst, rfl⟩,
      observe_both_eq_ok.mpr ⟨_, _, _, ranSecond, goesSecond, rfl⟩, alike⟩
  | oneShot slot inner ih =>
    have same := alike slot (part slot List.mem_cons_self)
    cases shot : (first.registers.get (here + slot)).shot with
    | fired => exact ⟨false, first, second, observe_oneShot_fired shot,
        observe_oneShot_fired (same ▸ shot), alike⟩
    | armed =>
      obtain ⟨observed, firstAfter, secondAfter, ranFirst, ranSecond, alike⟩ :=
        ih pure (fun slot member => part slot (List.mem_cons_of_mem _ member)) alike
      refine ⟨_, _, _, observe_oneShot_armed shot ranFirst, observe_oneShot_armed (same ▸ shot) ranSecond,
        ?_⟩
      rw [← same]
      exact alike.set_alike slot _
  | fallingEdge slot inner ih =>
    have same := alike slot (part slot List.mem_cons_self)
    obtain ⟨observed, firstAfter, secondAfter, ranFirst, ranSecond, alike⟩ :=
      ih pure (fun slot member => part slot (List.mem_cons_of_mem _ member)) alike
    refine ⟨_, _, _, observe_fallingEdge ranFirst, same ▸ observe_fallingEdge ranSecond, ?_⟩
    exact alike.set_alike slot _
  | nextLine slot inner ih =>
    have same := alike slot (part slot List.mem_cons_self)
    obtain ⟨observed, firstAfter, secondAfter, ranFirst, ranSecond, alike⟩ :=
      ih pure (fun slot member => part slot (List.mem_cons_of_mem _ member)) alike
    refine ⟨_, _, _, observe_nextLine_of_within (valid.within event found) ranFirst,
      same ▸ observe_nextLine_of_within (valid.within event found) ranSecond, ?_⟩
    exact alike.set_alike slot _

theorem evaluate_alike (valid : document.Valid) (index : Nat) (pure : matcher.Pure)
    (part : ∀ slot ∈ matcher.slots, slot ∈ scope) {first second : Memory World}
    (alike : Alike scope here there first.registers second.registers) :
    ∃ answer firstAfter secondAfter,
      (matcher.shift here).evaluate { document, index } first = .ok answer firstAfter ∧
      (matcher.shift there).evaluate { document, index } second = .ok answer secondAfter ∧
      Alike scope here there firstAfter.registers secondAfter.registers := by
  cases current : ({ document, index } : Cursor).current with
  | none =>
    simp only [evaluate, current]
    exact ⟨false, first, second, rfl, rfl, alike⟩
  | some event =>
    simp only [evaluate, current]
    exact observe_alike valid (List.mem_of_getElem? current) pure part alike

/-- A pure tree always answers. -/
theorem evaluate_ok (valid : document.Valid) (index : Nat) (pure : matcher.Pure)
    (memory : Memory World) : ∃ after, matcher.evaluate { document, index } memory =
      .ok (matcher.answer { document, index } memory) after := by
  obtain ⟨answer, after, -, ran, -⟩ := evaluate_alike valid index pure (fun slot member => member)
    (show Alike matcher.slots 0 0 memory.registers memory.registers from fun slot member => rfl)
  rw [shift_zero] at ran
  refine ⟨after, ?_⟩
  simp only [Matcher.answer, ran]

/-- Copies that start alike stay alike through a document and give the same answers. -/
theorem watched_alike (valid : document.Valid) (pure : matcher.Pure) {first second : Memory World}
    (alike : Alike matcher.slots here there first.registers second.registers) (index : Nat) :
    Alike matcher.slots here there ((matcher.shift here).watched document first index).registers
      ((matcher.shift there).watched document second index).registers := by
  induction index with
  | zero => exact alike
  | succ index ih =>
    obtain ⟨answer, firstAfter, secondAfter, ranFirst, ranSecond, alike⟩ :=
      evaluate_alike valid index pure (fun slot member => member) ih
    simp only [watched, ranFirst, ranSecond]
    exact alike

theorem answerAt_alike (valid : document.Valid) (pure : matcher.Pure) {first second : Memory World}
    (alike : Alike matcher.slots here there first.registers second.registers) (index : Nat) :
    (matcher.shift here).answerAt document first index =
      (matcher.shift there).answerAt document second index := by
  obtain ⟨answer, firstAfter, secondAfter, ranFirst, ranSecond, -⟩ := evaluate_alike valid index pure
    (fun slot member => member) (watched_alike valid pure alike index)
  simp only [answerAt, Matcher.answer, ranFirst, ranSecond]

/-- In the midst of anything else, a tree whose slots hold what they hold when it is asked alone answers
as it does alone, and goes on so. -/
theorem evaluate_follows (valid : document.Valid) (pure : matcher.Pure) {alone memory : Memory World}
    {index : Nat} (alike : Alike matcher.slots 0 0 memory.registers
      (matcher.watched document alone index).registers) :
    ∃ after, matcher.evaluate { document, index } memory =
        .ok (matcher.answerAt document alone index) after ∧
      Alike matcher.slots 0 0 after.registers
        (matcher.watched document alone (index + 1)).registers ∧
      Untouched matcher.slots memory after := by
  obtain ⟨answer, after, next, ran, ranAlone, alike⟩ :=
    evaluate_alike valid index pure (fun slot member => member) alike
  rw [shift_zero] at ran ranAlone
  have untouched := @evaluate_untouched _ { document, index } matcher memory
  rw [ran] at untouched
  refine ⟨after, ?_, ?_, untouched⟩
  · simp only [answerAt, Matcher.answer, ranAlone, ran]
  · simp only [watched, ranAlone]
    exact alike

/-- What others do to their own slots does not count. -/
theorem Alike.of_untouched {slots : List Slot} {registers : Registers} {before after : Memory World}
    (alike : Alike scope 0 0 before.registers registers) (untouched : Untouched slots before after)
    (apart : ∀ slot ∈ scope, slot ∉ slots) : Alike scope 0 0 after.registers registers := by
  intro slot member
  rw [Nat.zero_add, untouched slot (apart slot member), ← Nat.zero_add slot]
  exact alike slot member

end Matcher

namespace Search
open Matcher
variable {document : Document} {matcher : Matcher World}

def freshIndices (matcher : Matcher World) (document : Document) : Watch World (List Nat) := do
  let copy ← matcher.fresh
  indices (.matcher copy) document

/-- A search without a limit asks at an event and goes on, whatever the answer. -/
theorem scan_cons_eq_ok {σ : Type} {asks : Cursor → EStateM Fault σ Bool} {event : Event}
    {left : List Event} {index : Nat} {state after : σ} {found : List Nat} :
    scan asks document (event :: left) index none state = .ok found after ↔
      ∃ answer between later, asks { document, index } state = .ok answer between ∧
        document.check (index + 1) = .ok () ∧
        scan asks document left (index + 1) none between = .ok later after ∧
        (if answer then index :: later else later) = found := by
  rw [scan_cons (by simp)]
  simp only [bind_eq_ok, reduceCtorEq, and_false, ↓reduceIte, afterMatch_none, ofExcept_eq_ok, pure_eq_ok]
  constructor
  · rintro ⟨answer, between, asked, _, _, ⟨checked, rfl⟩, later, _, goes, rfl, rfl⟩
    exact ⟨answer, between, later, asked, checked, goes, rfl⟩
  · rintro ⟨answer, between, later, asked, checked, goes, rfl⟩
    exact ⟨answer, between, asked, (), between, ⟨checked, rfl⟩, later, after, goes, rfl, rfl⟩

private theorem scan_eq_ok (valid : document.Valid) (pure : matcher.Pure) (memory : Memory World)
    {left : List Event} {index : Nat} (there : document.events.drop index = left) :
    scan matcher.evaluate document left index none (matcher.watched document memory index) =
      .ok ((List.range' index left.length).filter (matcher.answerAt document memory))
        (matcher.watched document memory (index + left.length)) := by
  induction left generalizing index with
  | nil => rfl
  | cons event left ih =>
    obtain ⟨-, later⟩ := next_of_drop there
    obtain ⟨after, ran⟩ := evaluate_ok valid index pure (matcher.watched document memory index)
    have reached : matcher.watched document memory (index + 1) = after := by
      simp only [watched, ran]
      rfl
    have rest := ih later
    rw [reached, Nat.add_right_comm] at rest
    apply scan_cons_eq_ok.mpr
    refine ⟨_, after, _, ran, valid.check_eq_ok _, rest, ?_⟩
    rw [List.length_cons, List.range'_succ, List.filter_cons]
    rfl

/-- A search for a pure tree's matches finds the events at which it answers true. -/
theorem indices_eq_ok (valid : document.Valid) (pure : matcher.Pure) (memory : Memory World) :
    indices (.matcher matcher) document none memory =
      .ok ((List.range document.events.length).filter (matcher.answerAt document memory))
        (matcher.watched document memory document.events.length) := by
  have scanned := scan_eq_ok valid pure memory (List.drop_zero (l := document.events))
  rw [Nat.zero_add, ← List.range_eq_range'] at scanned
  apply bind_eq_ok.mpr
  refine ⟨matcher, memory, rfl, ?_⟩
  apply bind_eq_ok.mpr
  refine ⟨{ document }, memory, ?_, scanned⟩
  rw [valid.start_eq_ok]
  rfl

/-- A fresh copy has slots of its own, in which nothing has been kept yet. -/
private theorem fresh_eq_ok (pure : matcher.Pure) (memory : Memory World) :
    ∃ begun, matcher.fresh memory = .ok (matcher.shift memory.free) begun ∧
      Alike matcher.slots memory.free 0 begun.registers {} := by
  refine ⟨_, fresh_of_complete pure.complete memory, fun slot member => ?_⟩
  rw [Registers.get_forgetAll, slots_shift, if_pos (List.mem_map_of_mem member)]
  rfl

/-- A search on a fresh copy finds the events at which the tree itself answers true when nothing was
asked of it before, in whatever memory the search takes place. -/
theorem freshIndices_eq_ok (valid : document.Valid) (pure : matcher.Pure) (world : World)
    (elsewhere : Memory World) : ∃ left, freshIndices matcher document elsewhere =
      .ok ((List.range document.events.length).filter (matcher.answerAt document { world })) left := by
  obtain ⟨begun, copied, blank⟩ := fresh_eq_ok pure elsewhere
  have searched := indices_eq_ok valid (pure.shift_pure elsewhere.free) begun
  have same : (matcher.shift elsewhere.free).answerAt document begun =
      matcher.answerAt document { world } := by
    funext index
    have start : Alike matcher.slots elsewhere.free 0 begun.registers ({ world } : Memory World).registers :=
      blank
    have alike := answerAt_alike valid pure start index
    rwa [shift_zero] at alike
  rw [same] at searched
  exact ⟨_, bind_eq_ok.mpr ⟨_, begun, copied, searched⟩⟩

end Search
end Emend
