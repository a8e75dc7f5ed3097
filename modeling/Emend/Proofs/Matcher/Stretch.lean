import Emend.Proofs.Matcher.Meaning

/-! The stretch from the first match of one matcher to the next match of another. The second search runs
over the events that are left, as a document of its own, so its answers are those of that document. They are
the whole document's as well where its checks look only ahead. A check that looks at its own position or at
the event before it sees where the stretch began instead. -/
namespace Emend
variable {World : Type} {document : Document} {index : Nat}

/-- What lies ahead of a cursor: the source, and the events from its own on. -/
def Cursor.ahead (cursor : Cursor) : Text × List Event :=
  (cursor.document.source, cursor.document.events.drop cursor.index)

/-- A pure check that answers from what lies ahead, neither from positions nor from earlier events. -/
def Predicate.LooksAhead (check : Predicate World) : Prop :=
  ∃ holds : Text × List Event → Bool, ∀ cursor, check.run cursor = pure (holds cursor.ahead)

/-- The events from `first` on up to the next at which `stops` holds, that one included, and all of them if
there is none. It counts from `first`. -/
def Document.upTo (document : Document) (first : Nat) (stops : Nat → Bool) : List Event :=
  let rest := document.events.drop first
  match (List.range rest.length).find? stops with
  | none => rest
  | some last => rest.take (last + 1)

private theorem Document.Valid.dropEvents_valid (valid : document.Valid) (count : Nat) :
    (document.dropEvents count).Valid :=
  ⟨valid.ordered.sublist (List.drop_sublist ..), fun event member =>
    valid.within event (List.mem_of_mem_drop member)⟩

namespace Matcher
variable {matcher : Matcher World} {cursor other : Cursor} {memory : Memory World}

/-- A tree whose checks look only ahead. -/
def LooksAhead : Matcher World → Prop
  | always | heading _ | foreign _ => True
  | predicate check => check.LooksAhead
  | both left right => left.LooksAhead ∧ right.LooksAhead
  | oneShot _ inner | fallingEdge _ inner | nextLine _ inner => inner.LooksAhead

/-- The memory once the tree was asked at `count` events of a document from `first` on, each of them once. -/
def watchedFrom (matcher : Matcher World) (document : Document) (memory : Memory World) (first : Nat) :
    Nat → Memory World
  | 0 => memory
  | count + 1 => stateOf (matcher.evaluate { document, index := first + count }
      (watchedFrom matcher document memory first count))

/-- The answer at the event `count` places after `first`, when the tree is asked at every event from
`first` on, and at none before. -/
def answerFrom (matcher : Matcher World) (document : Document) (memory : Memory World)
    (first count : Nat) : Bool :=
  matcher.answer { document, index := first + count } (matcher.watchedFrom document memory first count)

/-- Lines are a matter of the source. -/
theorem lineAt_eq_of_source (same : cursor.document.source = other.document.source) :
    cursor.lineAt = other.lineAt := by
  funext offset
  rw [Cursor.lineAt, Cursor.lineAt, Document.lineAt, Document.lineAt, cursor.document.lines_eq,
    other.document.lines_eq, same]

private theorem observe_eq_of_ahead (looks : matcher.LooksAhead) (same : cursor.ahead = other.ahead)
    (event : Event) : matcher.observe cursor event = matcher.observe other event := by
  induction matcher with
  | always | heading | foreign => rfl
  | predicate p =>
    obtain ⟨holds, runs⟩ := looks
    funext memory
    simp only [observe, check, runs, same]
  | both left right ihLeft ihRight => simp only [observe, ihLeft looks.1, ihRight looks.2]
  | oneShot slot inner ih | fallingEdge slot inner ih => simp only [observe, ih looks]
  | nextLine slot inner ih =>
    simp only [observe, ih looks, lineAt_eq_of_source (congrArg Prod.fst same)]

/-- Such a tree answers the same, and keeps the same, at cursors that have the same ahead of them. -/
theorem evaluate_eq_of_ahead (looks : matcher.LooksAhead) (same : cursor.ahead = other.ahead) :
    matcher.evaluate cursor = matcher.evaluate other := by
  have current : cursor.current = other.current := by
    have events : cursor.document.events.drop cursor.index = other.document.events.drop other.index :=
      congrArg Prod.snd same
    rw [Cursor.current, Cursor.current, ← List.head?_drop, events, List.head?_drop]
  unfold evaluate
  rw [current]
  cases other.current with
  | none => rfl
  | some event => exact observe_eq_of_ahead looks same event

/-- In the document that is left the same lies ahead as in the whole one. -/
theorem ahead_dropEvents (document : Document) (first count : Nat) :
    ({ document := document.dropEvents first, index := count } : Cursor).ahead =
      ({ document, index := first + count } : Cursor).ahead :=
  congrArg (Prod.mk document.source) List.drop_drop

private theorem watchedFrom_eq (looks : matcher.LooksAhead) (first count : Nat) :
    matcher.watched (document.dropEvents first) memory count =
      matcher.watchedFrom document memory first count := by
  induction count with
  | zero => rfl
  | succ count ih =>
    simp only [watched, watchedFrom, ih, evaluate_eq_of_ahead looks (ahead_dropEvents document first count)]

/-- Where the checks look only ahead it does not matter which of the documents is searched. -/
theorem answerFrom_eq (looks : matcher.LooksAhead) (first : Nat) :
    matcher.answerAt (document.dropEvents first) memory = matcher.answerFrom document memory first := by
  funext count
  simp only [answerAt, answerFrom, answer, watchedFrom_eq looks,
    evaluate_eq_of_ahead looks (ahead_dropEvents document first count)]

/-- Asked at one event after the other, a tree writes only its own slots. -/
theorem watched_untouched (matcher : Matcher World) (document : Document) (memory : Memory World)
    (index : Nat) : Untouched matcher.slots memory (matcher.watched document memory index) := by
  induction index with
  | zero => exact fun slot outside => rfl
  | succ index ih => exact ih.trans (evaluate_untouched matcher _)

end Matcher

namespace Search
open Matcher
variable {matcher start stop : Matcher World} {memory : Memory World}

/-- A search for one match asks on until there is one. -/
private theorem scan_one_eq_ok (valid : document.Valid) (pure : matcher.Pure) (memory : Memory World)
    {left : List Event} {index : Nat} (there : document.events.drop index = left) :
    ∃ asked, scan matcher.evaluate document left index (some 1) (matcher.watched document memory index) =
      .ok ((List.range' index left.length).find? (matcher.answerAt document memory)).toList
        (matcher.watched document memory asked) := by
  induction left generalizing index with
  | nil => exact ⟨index, rfl⟩
  | cons event left ih =>
    obtain ⟨-, later⟩ := next_of_drop there
    obtain ⟨after, ran⟩ := evaluate_ok valid index pure (matcher.watched document memory index)
    have reached : matcher.watched document memory (index + 1) = after := by
      simp only [watched, ran]
      rfl
    have asks : matcher.evaluate { document, index } (matcher.watched document memory index) =
        .ok (matcher.answerAt document memory index) after := ran
    rw [scan, bind_of_ok asks, List.length_cons, List.range'_succ, List.find?_cons]
    · cases matcher.answerAt document memory index with
      | true => exact ⟨index + 1, congrArg (EStateM.Result.ok [index]) reached.symm⟩
      | false =>
        have checked : (ofExcept (document.check (index + 1)) : Watch World Unit) after = .ok () after :=
          ofExcept_eq_ok.mpr ⟨valid.check_eq_ok _, rfl⟩
        obtain ⟨asked, rest⟩ := ih later
        rw [reached] at rest
        exact ⟨asked, (bind_of_ok checked).trans rest⟩
    · simp

/-- The first match of a pure tree is the first event at which it answers true. -/
theorem first_eq_ok (valid : document.Valid) (pure : matcher.Pure) (memory : Memory World) :
    ∃ asked, first (.matcher matcher) document memory =
      .ok ((List.range document.events.length).find? (matcher.answerAt document memory))
        (matcher.watched document memory asked) := by
  obtain ⟨asked, scanned⟩ := scan_one_eq_ok valid pure memory (List.drop_zero (l := document.events))
  rw [← List.range_eq_range'] at scanned
  have found : indices (.matcher matcher) document (some 1) memory =
      .ok ((List.range document.events.length).find? (matcher.answerAt document memory)).toList
        (matcher.watched document memory asked) := by
    apply bind_eq_ok.mpr
    refine ⟨matcher, memory, rfl, ?_⟩
    apply bind_eq_ok.mpr
    refine ⟨{ document }, memory, ?_, scanned⟩
    rw [valid.start_eq_ok]
    rfl
  refine ⟨asked, ?_⟩
  rw [first, bind_of_ok found, Option.head?_toList]
  rfl

/-- What the search for one tree did to the memory does not count for a tree that shares no slots with it. -/
theorem first_eq_ok_after (valid : document.Valid) (pure : stop.Pure)
    (apart : ∀ slot ∈ start.slots, slot ∉ stop.slots) (other : Document) (asked : Nat) :
    ∃ after, first (.matcher stop) document (start.watched other memory asked) =
      .ok ((List.range document.events.length).find? (stop.answerAt document memory)) after := by
  obtain ⟨further, found⟩ := first_eq_ok valid pure (start.watched other memory asked)
  have alike : Alike stop.slots 0 0 (start.watched other memory asked).registers memory.registers :=
    Alike.of_untouched (fun slot member => rfl) (watched_untouched start other memory asked)
      fun slot own shared => apart slot shared own
  have same : stop.answerAt document (start.watched other memory asked) =
      stop.answerAt document memory := by
    funext index
    have answers := answerAt_alike valid pure alike index
    rwa [shift_zero] at answers
  rw [same] at found
  exact ⟨_, found⟩

/-- From the first match on, a stretch is cut where the second tree first answers true over the events that
are left. -/
theorem stretch_eq_ok (valid : document.Valid) (pureStart : start.Pure) (pureStop : stop.Pure)
    (apart : ∀ slot ∈ start.slots, slot ∉ stop.slots) (memory : Memory World) :
    ∃ after, stretch (.matcher start) (.matcher stop) document memory =
      .ok (((List.range document.events.length).find? (start.answerAt document memory)).map fun first =>
        document.upTo first (stop.answerAt (document.dropEvents first) memory)) after := by
  obtain ⟨asked, found⟩ := first_eq_ok valid pureStart memory
  rw [stretch, bind_of_ok found]
  cases (List.range document.events.length).find? (start.answerAt document memory) with
  | none => exact ⟨_, rfl⟩
  | some place =>
    obtain ⟨after, ended⟩ :=
      @first_eq_ok_after _ _ start stop memory (valid.dropEvents_valid place) pureStop apart document asked
    have left : (document.dropEvents place).events = document.events.drop place := rfl
    rw [left] at ended
    refine ⟨after, ?_⟩
    dsimp only
    rw [bind_of_ok ended, Option.map_some, Document.upTo]
    cases (List.range (document.events.drop place).length).find?
      (stop.answerAt (document.dropEvents place) memory) <;> rfl

/-- The search from a match of one matcher to the next match of another, which share no slots. There is no
stretch where a search with a fresh copy of the first finds nothing. Otherwise the stretch begins at the
first event found, and it ends where the other, asked from there on over the events that are left as a
document of their own, answers true, or with the last event. If its checks look only ahead, these are the
answers at the places of the whole document. -/
theorem stretch_eq_upTo (valid : document.Valid) (pureStart : start.Pure) (pureStop : stop.Pure)
    (initial : ∀ slot ∈ start.slots, memory.registers.get slot = {})
    (apart : ∀ slot ∈ start.slots, slot ∉ stop.slots) : ∃ found copied after,
      freshIndices start document memory = .ok found copied ∧
      stretch (.matcher start) (.matcher stop) document memory = .ok (found.head?.map fun first =>
        document.upTo first (stop.answerAt (document.dropEvents first) memory)) after ∧
      (stop.LooksAhead →
        stretch (.matcher start) (.matcher stop) document memory = .ok (found.head?.map fun first =>
          document.upTo first (stop.answerFrom document memory first)) after) := by
  obtain ⟨copied, searched⟩ := freshIndices_eq_ok valid pureStart memory.world memory
  obtain ⟨after, stretched⟩ := stretch_eq_ok valid pureStart pureStop apart memory
  have same : start.answerAt document { world := memory.world } = start.answerAt document memory := by
    have alike : Alike start.slots 0 0 ({} : Registers) memory.registers := by
      intro slot member
      rw [Nat.zero_add, initial slot member]
      rfl
    funext index
    have answers := @answerAt_alike _ 0 0 _ start valid pureStart { world := memory.world } memory alike index
    rwa [shift_zero] at answers
  rw [same] at searched
  rw [← List.head?_filter] at stretched
  refine ⟨_, copied, after, searched, stretched, fun looks => ?_⟩
  rw [stretched]
  simp only [answerFrom_eq looks]

/-- The events right after one that opens a heading. -/
def pastHeading : Matcher Unit :=
  .fallingEdge 0 (.heading none)

/-- The headings open at the events 0 and 2. From the event after the first of them to the next heading
there are two events. -/
theorem pastHeading_stretch_eq_upTo : ∃ after,
    stretch (.matcher pastHeading) (.matcher (.oneShot 1 (.heading none))) twoHeadings { world := () } =
      .ok (some ((twoHeadings.events.drop 1).take 2)) after := by
  have valid : twoHeadings.Valid := ⟨by decide, by decide⟩
  obtain ⟨found, copied, after, searched, -, ahead⟩ := @stretch_eq_upTo _ twoHeadings pastHeading
    (.oneShot 1 (.heading none)) { world := () } valid trivial trivial (fun slot member => rfl) (by decide)
  have places : ∃ copied, freshIndices pastHeading twoHeadings { world := () } = .ok [1, 3] copied :=
    ⟨_, rfl⟩
  obtain ⟨_, places⟩ := places
  cases searched.symm.trans places
  exact ⟨after, ahead trivial⟩

def second : Matcher Unit :=
  .predicate { label := "second", run := fun cursor => pure (cursor.index == 1) }

/-- The stretch from the event after a heading to the event at the second place is that one event, when
places are those of the document. The search counts them from the first match and goes on to the third. -/
theorem second_stretch_overruns : twoHeadings.Valid ∧ pastHeading.Pure ∧ second.Pure ∧
    (∃ copied, freshIndices pastHeading twoHeadings { world := () } = .ok [1, 3] copied) ∧
    twoHeadings.upTo 1 (second.answerFrom twoHeadings { world := () } 1) =
      (twoHeadings.events.drop 1).take 1 ∧
    ∃ after, stretch (.matcher pastHeading) (.matcher second) twoHeadings { world := () } =
      .ok (some ((twoHeadings.events.drop 1).take 2)) after :=
  ⟨⟨by decide, by decide⟩, trivial, ⟨_, fun _ => rfl⟩, ⟨_, rfl⟩, rfl, _, rfl⟩

end Search
end Emend
