import Mathlib
import Emend.Proofs.Edit.Pairing
import Emend.Proofs.Matcher.NextLine

/-! What lies between a heading and the line after it. A binding that opens at headings and stops at the
line after a heading hands over the blocks that headings open, when no block holds anything further down than
its own lines. At the start of a block the stop matcher watches a line if the block before was a heading, and
none otherwise. The event that it stops at may be the next heading, which opens a region and is watched in
turn. -/
namespace Emend
variable {World : Type} {document : Document} {level : Option HeadingLevel}

/-- An opening event that covers something, and events after it that start no further down than what it
covers and open no heading of the level. -/
structure FlatBlock (document : Document) (level : Option HeadingLevel) where
  opening : Event
  inner : List Event
  opens : opening.kind = .opening
  filled : opening.start < opening.stop
  within : ∀ event ∈ inner, document.lines.line event.start ≤ document.lines.line (opening.stop - 1)
  plain : ∀ event ∈ inner, event.startsHeading level = false

namespace FlatBlock

def events (block : FlatBlock document level) : List Event :=
  block.opening :: block.inner

def firstLine (block : FlatBlock document level) : Nat :=
  document.lines.line block.opening.start

/-- The line that holds the block's last character. -/
def lastLine (block : FlatBlock document level) : Nat :=
  document.lines.line (block.opening.stop - 1)

def heads (block : FlatBlock document level) : Bool :=
  block.opening.startsHeading level

/-- What the next-line pattern comes to after the block: it watches the block's last line if the block is a
heading. -/
def leaves (block : FlatBlock document level) : NextLineState :=
  if block.heads then ⟨.armed, block.lastLine⟩ else {}

variable {block before : FlatBlock document level} {state : NextLineState} {event : Event}

private theorem sighting_opening (observed : Bool) :
    document.sighting block.opening observed = ⟨observed, block.firstLine, block.lastLine⟩ := by
  have filled := block.filled
  have last : max block.opening.start (block.opening.stop - 1) = block.opening.stop - 1 := by omega
  simp only [Document.sighting, Document.extent, last, firstLine, lastLine]

private theorem firstLine_le_lastLine : block.firstLine ≤ block.lastLine :=
  Lines.line_mono (Nat.le_sub_one_of_lt block.filled)

/-- At the first block the pattern has nothing to watch. -/
theorem see_first : ({} : NextLineState).see (document.sighting block.opening block.heads) =
    (block.leaves, false) := by
  refine Prod.ext ?_ (NextLineState.see_answer ..)
  rw [sighting_opening]
  cases heading : block.heads with
  | true =>
    have further : max (-1) (block.lastLine : Int) = block.lastLine := by omega
    rw [NextLineState.see_observed rfl, leaves, if_pos heading, further]
  | false => rw [NextLineState.see_waiting rfl, leaves, if_neg (by simp [heading])]

/-- At a later block it answers true if the block before was a heading. -/
theorem see_opening (later : before.lastLine < block.firstLine) :
    before.leaves.see (document.sighting block.opening block.heads) = (block.leaves, before.heads) := by
  cases headed : before.heads with
  | false =>
    have waits : before.leaves = {} := if_neg (by simp [headed])
    rw [waits, see_first]
  | true =>
    have watches : before.leaves = ⟨.armed, before.lastLine⟩ := if_pos headed
    have past : (before.lastLine : Int) < block.firstLine := Int.ofNat_lt.mpr later
    rw [watches, sighting_opening]
    refine Prod.ext ?_ ?_
    · cases heading : block.heads with
      | true =>
        have further : max (before.lastLine : Int) block.lastLine = block.lastLine := by
          have onward := block.firstLine_le_lastLine
          omega
        rw [NextLineState.see_observed rfl, leaves, if_pos heading, further]
      | false => rw [NextLineState.see_passed rfl past, leaves, if_neg (by simp [heading])]
    · rw [NextLineState.see_answer]
      simpa using past

/-- Inside a block nothing is new. -/
theorem see_inner (member : event ∈ block.inner) :
    block.leaves.see (document.sighting event false) = (block.leaves, false) := by
  unfold leaves
  split
  · have within : (document.sighting event false).first ≤ block.lastLine :=
      Int.ofNat_le.mpr (block.within event member)
    refine Prod.ext (NextLineState.see_unpassed rfl within) ?_
    rw [NextLineState.see_answer]
    simpa using within
  · exact Prod.ext (NextLineState.see_waiting rfl) (NextLineState.see_answer ..)

end FlatBlock

def Document.headed (document : Document) (level : Option HeadingLevel) (index : Nat) : Bool :=
  document.events[index]?.any (·.startsHeading level)

/-- What the pattern over these headings has come to before the event at an index. -/
def Document.watched (document : Document) (level : Option HeadingLevel) (index : Nat) : NextLineState :=
  nextLineState document (document.headed level) index

def Document.passes (document : Document) (level : Option HeadingLevel) (index : Nat) : Bool :=
  (nextLineStep document (document.headed level) index (document.watched level index)).2

/-- A step at an event of the document. -/
theorem Document.step_eq {index : Nat} {event : Event} (found : document.events[index]? = some event)
    {stepped : NextLineState × Bool}
    (saw : (document.watched level index).see (document.sighting event (event.startsHeading level)) =
      stepped) :
    document.headed level index = event.startsHeading level ∧ document.passes level index = stepped.2 ∧
    document.watched level (index + 1) = stepped.1 := by
  have headed : document.headed level index = event.startsHeading level := by
    rw [headed, found, Option.any_some]
  have step : nextLineStep document (document.headed level) index (document.watched level index) =
      stepped := by
    rw [← saw, nextLineStep, found, headed]
    rfl
  refine ⟨headed, ?_, ?_⟩
  · rw [passes, step]
  · rw [← step]
    rfl

variable {blocks rest : List (FlatBlock document level)} {block : FlatBlock document level}
  {before : Option (FlatBlock document level)} {index : Nat}

/-- The events from `index` on are those of some blocks, each on a later line than the one before it, and
the pattern has come to what the last block so far leaves. -/
structure Reaches (before : Option (FlatBlock document level)) (blocks : List (FlatBlock document level))
    (index : Nat) : Prop where
  left : document.events.drop index = blocks.flatMap FlatBlock.events
  watched : document.watched level index = before.elim {} FlatBlock.leaves
  apart : (before.toList ++ blocks).IsChain fun earlier later => earlier.lastLine < later.firstLine

namespace Reaches

/-- At the start of a block the pattern answers true if the block before was a heading. -/
theorem opening_passes (reaches : Reaches before (block :: rest) index) :
    document.events[index]? = some block.opening ∧ document.headed level index = block.heads ∧
    document.passes level index = before.any FlatBlock.heads ∧
    document.watched level (index + 1) = block.leaves := by
  have found : document.events[index]? = some block.opening := by
    rw [← Nat.add_zero index, ← List.getElem?_drop, reaches.left]
    rfl
  refine ⟨found, ?_⟩
  cases before with
  | none =>
    have watched : document.watched level index = {} := reaches.watched
    have saw := @FlatBlock.see_first document level block
    rw [← watched] at saw
    exact Document.step_eq found saw
  | some before =>
    have watched : document.watched level index = before.leaves := reaches.watched
    have later : before.lastLine < block.firstLine := (List.isChain_cons_cons.mp reaches.apart).1
    have saw := FlatBlock.see_opening later
    rw [← watched] at saw
    exact Document.step_eq found saw

/-- After the start of a block nothing happens up to the start of the next one. -/
theorem inner_quiet (reaches : Reaches before (block :: rest) index) {count : Nat}
    (inside : count ≤ block.inner.length) : document.watched level (index + 1 + count) = block.leaves ∧
    ∀ place, index + 1 ≤ place → place < index + 1 + count →
      document.headed level place = false ∧ document.passes level place = false := by
  induction count with
  | zero => exact ⟨reaches.opening_passes.2.2.2, fun place lower upper => by omega⟩
  | succ count ih =>
    obtain ⟨watched, quiet⟩ := ih (Nat.le_of_succ_le inside)
    have found : document.events[index + 1 + count]? = some block.inner[count] := by
      rw [Nat.add_assoc, ← List.getElem?_drop, reaches.left, Nat.add_comm 1 count]
      simp [FlatBlock.events, List.getElem?_append_left (Nat.lt_of_succ_le inside)]
    have member : block.inner[count] ∈ block.inner := List.getElem_mem _
    have plain := block.plain _ member
    have saw : (document.watched level (index + 1 + count)).see (document.sighting block.inner[count]
        (block.inner[count].startsHeading level)) = (block.leaves, false) := by
      rw [watched, plain]
      exact FlatBlock.see_inner member
    obtain ⟨headed, passes, next⟩ := Document.step_eq found saw
    refine ⟨next, ?_⟩
    intro place lower upper
    rcases Nat.lt_succ_iff_lt_or_eq.mp upper with earlier | rfl
    · exact quiet place lower earlier
    · exact ⟨headed.trans plain, passes⟩

/-- Past a block's events the next block is reached. -/
theorem next_block (reaches : Reaches before (block :: rest) index) :
    Reaches (some block) rest (index + block.events.length) := by
  have length : index + block.events.length = index + 1 + block.inner.length := by
    simp only [FlatBlock.events, List.length_cons]
    omega
  refine ⟨?_, ?_, ?_⟩
  · rw [← List.drop_drop, reaches.left, List.flatMap_cons, List.drop_left]
  · rw [length]
    exact (reaches.inner_quiet (Nat.le_refl _)).1
  · exact reaches.apart.right_of_append

end Reaches

/-- The blocks that are headings of the level, each with whether there is a block after it. -/
def sections : List (FlatBlock document level) → List (List Event × Bool)
  | [] => []
  | block :: rest => if block.heads then (block.events, !rest.isEmpty) :: sections rest else sections rest

private theorem sections_heading (heading : block.heads = true) :
    sections (block :: rest) = (block.events, !rest.isEmpty) :: sections rest := by
  rw [sections, if_pos heading]

private theorem sections_other (other : block.heads = false) : sections (block :: rest) = sections rest := by
  rw [sections, other]
  rfl

/-- A rule that starts at headings of the level and stops when the pattern over them answers true. -/
structure Rule.Sections (document : Document) (level : Option HeadingLevel) (rule : Rule)
    (stops : Nat → Bool) : Prop where
  starts : ∀ index < document.events.length, rule.starts index = document.headed level index
  stopping : rule.stops = some stops
  stops : ∀ index < document.events.length, stops index = document.passes level index

/-- From the start of a block on, the regions are the blocks of the headings. -/
theorem greedy_sections {rule : Rule} {stops : Nat → Bool} (sectioned : rule.Sections document level stops)
    (reaches : Reaches before blocks index) :
    (greedy [rule] document.events.length index).map
      (fun stretch => (stretch.events document, stretch.terminated)) = sections blocks := by
  induction blocks generalizing before index with
  | nil =>
    rw [greedy_end (List.drop_eq_nil_iff.mp reaches.left)]
    rfl
  | cons block rest ih =>
    -- Only the first event of a block can start or stop anything; from there to `past` all is quiet.
    let past := index + block.events.length
    have next : Reaches (some block) rest past := reaches.next_block
    obtain ⟨found, headed, -⟩ := reaches.opening_passes
    obtain ⟨inside, -⟩ := List.getElem?_eq_some_iff.mp found
    have length : past = index + 1 + block.inner.length := by
      simp only [past, FlatBlock.events, List.length_cons]
      omega
    have whole : document.events.length = past + (rest.flatMap FlatBlock.events).length := by
      have lengths := congrArg List.length reaches.left
      simp only [List.length_drop, List.flatMap_cons, List.length_append] at lengths
      omega
    have quiet : ∀ place, index + 1 ≤ place → place < past →
        rule.starts place = false ∧ stops place = false := by
      intro place lower upper
      obtain ⟨-, silent⟩ := reaches.inner_quiet (Nat.le_refl block.inner.length)
      obtain ⟨unheaded, unpassed⟩ := silent place lower (by omega)
      have within : place < document.events.length := by omega
      exact ⟨(sectioned.starts place within).trans unheaded, (sectioned.stops place within).trans unpassed⟩
    have onward : index + 1 ≤ past := by omega
    have taken : (document.events.drop index).take (past - index) = block.events := by
      have size : past - index = block.events.length := Nat.add_sub_cancel_left ..
      rw [size, reaches.left, List.flatMap_cons, List.take_left]
    have here : rule.starts index = block.heads := (sectioned.starts index inside).trans headed
    cases heading : block.heads with
    | false =>
      have silent : [rule].any (·.starts index) = false := by simp [here, heading]
      have later : ∀ place, index + 1 ≤ place → place < past → [rule].any (·.starts place) = false := by
        intro place lower upper
        simp [(quiet place lower upper).1]
      rw [greedy_skip silent, greedy_skips onward later, ih next, sections_other heading]
    | true =>
      have chosen : [rule].find? (·.starts index) = some rule := by simp [here, heading]
      rw [greedy_open inside chosen sectioned.stopping,
        ending_skips onward fun place lower upper => (quiet place lower upper).2]
      cases rest with
      | nil =>
        have ends : document.events.length = past := whole
        rw [ends, ending_end (Nat.le_refl _), List.map_singleton, Stretch.events, taken,
          sections_heading heading]
        rfl
      | cons after rest =>
        -- The region does not take in the event that stops it, which may open the next one.
        obtain ⟨foundNext, -, passes, -⟩ := next.opening_passes
        obtain ⟨insideNext, -⟩ := List.getElem?_eq_some_iff.mp foundNext
        have closes : stops past = true := (sectioned.stops past insideNext).trans (passes.trans heading)
        rw [ending_here insideNext closes, List.map_cons, Stretch.events, taken, ih next,
          sections_heading heading]
        rfl

/-- Opens at headings of the level, and stops at the line after one. -/
def sectioning (level : Option HeadingLevel) (slot : Slot) (callback : Region → Script World) :
    Binding World where
  start := .heading level
  stop := some (.nextLine slot (.heading level))
  callback

theorem sectioning_apart (level : Option HeadingLevel) (slot : Slot)
    (callback : Region → Script World) :
    (sectioning level slot callback).Apart := by
  refine ⟨trivial, ?_, ?_⟩
  · intro stop given
    cases Option.mem_some_iff.mp given
    exact trivial
  · intro stop given own member
    cases member

/-- What the binding's matchers answer when each is asked alone at every event. -/
theorem sectioning_soloRule (valid : document.Valid) (world : World) (level : Option HeadingLevel)
    (slot : Slot) (callback : Region → Script World) : ∃ stops,
    ((sectioning level slot callback).soloRule document { world }).Sections document level stops := by
  refine ⟨_, ⟨?_, rfl, ?_⟩⟩
  · intro index inside
    have answer : (Matcher.heading level).answerAt document { world } index =
        (Matcher.heading level).meaning document world index :=
      Matcher.answerAt_eq_meaning valid trivial .nil (fun _ _ => rfl) inside
    exact answer
  · intro index inside
    have answer : (Matcher.nextLine slot (.heading level)).answerAt document { world } index =
        (Matcher.nextLine slot (.heading level)).meaning document world index :=
      Matcher.answerAt_eq_meaning valid trivial (List.nodup_singleton slot) (fun _ _ => rfl) inside
    exact answer

/-- Headings with what is in them. Let a valid document be made of flat blocks, each on a later line than
the one before it, and let a binding open at headings of a level and stop at the line after one, with nothing
held in its slot. Then the pass ends well unless its callback fails, and the regions are the blocks of these
headings in order, each with exactly its events. All of them are stopped but one that is the last block. Each
region went to the callback in one turn, and these turns are all there were. -/
theorem emended_regions_sections {memory : Memory World} {slot : Slot} {callback : Region → Script World}
    (valid : document.Valid) (blocks : List (FlatBlock document level))
    (whole : document.events = blocks.flatMap FlatBlock.events)
    (apart : blocks.IsChain fun earlier later => earlier.lastLine < later.firstLine)
    (initial : memory.registers.get slot = {})
    (calm : ¬ (emend [sectioning level slot callback] document .handOver memory).CallbackFailed
      [sectioning level slot callback]) :
    let outcome := emend [sectioning level slot callback] document .handOver memory
    ∃ emended, outcome.answer = .ok emended ∧ emended.regions = (sections blocks).length ∧
      outcome.journal.handed.map (fun handed => (handed.2.events, handed.2.terminated)) =
        sections blocks ∧
      outcome.journal.handed = outcome.journal.turns.map (fun turn => (turn.position, turn.region)) ∧
      ∀ turn ∈ outcome.journal.turns, turn.Served [sectioning level slot callback] := by
  intro outcome
  have held : ∀ other, other ∈ (sectioning level slot callback).start.slots ∨
      (∃ stop ∈ (sectioning level slot callback).stop, other ∈ stop.slots) →
      memory.registers.get other = {} := by
    rintro other (own | ⟨stop, given, own⟩)
    · cases own
    · cases Option.mem_some_iff.mp given
      cases List.mem_singleton.mp own
      exact initial
  obtain ⟨emended, answer, counted, told, handed, served⟩ :=
    emend_follows valid (foretold_of_apart valid (sectioning_apart level slot callback))
      (keeping_initial held) calm
  obtain ⟨stops, sectioned⟩ := sectioning_soloRule valid memory.world level slot callback
  have reaches : Reaches none blocks 0 := ⟨whole, rfl, apart⟩
  have same := greedy_sections sectioned reaches
  refine ⟨emended, answer, ?_, ?_, handed, served⟩
  · rw [counted, ← same, List.length_map]
  · have outlines := congrArg (List.map fun outline : Nat × Nat × List Event × Bool =>
      (outline.2.2.1, outline.2.2.2)) told
    rw [List.map_map, List.map_map] at outlines
    rw [← same, handed, List.map_map]
    exact outlines

def chapter (start stop : Nat) (level : Int) : Event :=
  { kind := .opening, span := .reach start stop,
    tag := some { kind := .heading, name := "heading", level := some level } }

/-- A heading of two lines with a text on the second one, another heading right after it, one of level 2,
and one more of level 1 in the end. -/
def chapters : Document where
  source := ['a', '\n', 'b', '\n', 'c', '\n', 'd', '\n', 'e']
  events := [chapter 0 4 1, { kind := .text, span := .reach 2 3, text := ['b'] }, chapter 4 6 1,
    chapter 6 8 2, chapter 8 9 1]

def chapterBlocks : List (FlatBlock chapters (some { value := 1 })) := [
  { opening := chapter 0 4 1, inner := [{ kind := .text, span := .reach 2 3, text := ['b'] }],
    opens := rfl, filled := by decide, within := by decide, plain := by decide },
  { opening := chapter 4 6 1, inner := [],
    opens := rfl, filled := by decide, within := by decide, plain := by decide },
  { opening := chapter 6 8 2, inner := [],
    opens := rfl, filled := by decide, within := by decide, plain := by decide },
  { opening := chapter 8 9 1, inner := [],
    opens := rfl, filled := by decide, within := by decide, plain := by decide }]

/-- Puts a mark before its region and copies it. -/
def flagging (region : Region) : Script Unit :=
  .act (.insert ['#']) (.once (.copyTo region.span.stop))

/-- The second heading stops the region of the first one and opens its own, which the heading of level 2
stops. Nothing stops the last one. -/
theorem chapters_regions_sections :
    let outcome := emend [sectioning (some { value := 1 }) 0 flagging] chapters .handOver { world := () }
    outcome.answer.map Emended.text =
      .ok ['#', 'a', '\n', 'b', '\n', '#', 'c', '\n', 'd', '\n', '#', 'e'] ∧
    outcome.answer.map Emended.regions = .ok 3 ∧
    outcome.journal.handed.map (fun handed => (handed.2.events, handed.2.terminated)) = [
      ([chapter 0 4 1, { kind := .text, span := .reach 2 3, text := ['b'] }], true),
      ([chapter 4 6 1], true), ([chapter 8 9 1], false)] ∧
    outcome.journal.handed = outcome.journal.turns.map (fun turn => (turn.position, turn.region)) ∧
    ∀ turn ∈ outcome.journal.turns, turn.Served [sectioning (some { value := 1 }) 0 flagging] := by
  have valid : chapters.Valid := ⟨by decide, by decide⟩
  have apart : chapterBlocks.IsChain fun earlier later => earlier.lastLine < later.firstLine := by
    simp only [chapterBlocks, List.isChain_cons_cons, List.isChain_singleton]
    decide
  have text : (emend [sectioning (some { value := 1 }) 0 flagging] chapters .handOver
      { world := () }).answer.map Emended.text =
      .ok ['#', 'a', '\n', 'b', '\n', '#', 'c', '\n', 'd', '\n', '#', 'e'] := by
    cbv
  have calm : ¬ (emend [sectioning (some { value := 1 }) 0 flagging] chapters .handOver
      { world := () }).CallbackFailed [sectioning (some { value := 1 }) 0 flagging] := by
    rintro ⟨fault, failed, -⟩
    rw [failed] at text
    cases text
  obtain ⟨emended, answer, counted, outlines, handed, served⟩ :=
    emended_regions_sections valid chapterBlocks rfl apart rfl calm
  have regions : (emend [sectioning (some { value := 1 }) 0 flagging] chapters .handOver
      { world := () }).answer.map Emended.regions = .ok 3 := by
    rw [answer, Except.map, counted]
    decide
  exact ⟨text, regions, outlines, handed, served⟩

end Emend
