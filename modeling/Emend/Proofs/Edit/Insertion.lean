import Emend.Proofs.Edit.Pairing

/-! Edits of single events, whose callbacks put out what their event has left of the source together with
something of their own. The text of such an edit is told by the spans of the matches alone. Where a match
reaches past the start of a later one, the later one finds that source already out, so what it puts out
comes after the earlier match and not at its own start. -/
namespace Emend
variable {World : Type} {callback : Region → Script World} {filling : Text → Text} {source text : Text}
  {document : Document} {binding : Binding World} {reached low middle high index : Nat}

/-- In its turn a callback puts this out for the source of its region that was not reached before. -/
def Fills (callback : Region → Script World) (filling : Text → Text) : Prop :=
  ∀ (region : Region) (writer : Writer) (world : World), writer.bound = some region.span.stop →
    region.span.stop ≤ writer.source.length →
    ∃ left, (callback region).run { writer, world } = .ok () { writer := left, world } ∧
      left.output = writer.output ++ filling writer.pending

/-- The source from `reached` on, with each span filled: a span that was reached before has only the rest
of it to be filled. -/
def stitched (filling : Text → Text) (source : Text) : Nat → List Span → Text
  | reached, [] => source.drop reached
  | reached, span :: rest => source.slice reached span.start ++
      filling (source.slice (max reached span.start) span.stop) ++
      stitched filling source (max reached span.stop) rest

/-- The source from `reached` on, with a text at each of these offsets, which do not go down. -/
def inserting (source text : Text) : Nat → List Nat → Text
  | reached, [] => source.drop reached
  | reached, offset :: rest => source.slice reached offset ++ text ++ inserting source text offset rest

/-- Where a text comes to stand that is put before each span: at its start, or at the furthest end of an
earlier span if that is further. -/
def landings : Nat → List Span → List Nat
  | _, [] => []
  | reached, span :: rest => max reached span.start :: landings (max reached span.stop) rest

def Document.spansAt (document : Document) (indices : List Nat) : List Span :=
  indices.filterMap fun index => document.events[index]?.map Event.span

namespace Text

theorem slice_append (text : Text) (lower : low ≤ middle) (upper : middle ≤ high) :
    text.slice low middle ++ text.slice middle high = text.slice low high := by
  have first : low + (middle - low) = middle := by omega
  have whole : high - low = middle - low + (high - middle) := by omega
  rw [slice, slice, slice, whole, List.take_add, List.drop_drop, first]

private theorem slice_append_drop (text : Text) (lower : low ≤ middle) :
    text.slice low middle ++ text.drop middle = text.drop low := by
  have first : low + (middle - low) = middle := by omega
  rw [slice, ← first, ← List.drop_drop, first, List.take_append_drop]

end Text

private theorem le_of_mem_landings {spans : List Span} :
    ∀ offset ∈ landings reached spans, reached ≤ offset := by
  induction spans generalizing reached with
  | nil => simp [landings]
  | cons span rest ih =>
    intro offset member
    rcases List.mem_cons.mp member with rfl | member
    · exact Nat.le_max_left ..
    · exact Nat.le_trans (Nat.le_max_left ..) (ih offset member)

/-- Before the first offset the source comes out as it is. -/
theorem inserting_from {offsets : List Nat} (lower : low ≤ middle)
    (later : ∀ offset ∈ offsets, middle ≤ offset) :
    inserting source text low offsets = source.slice low middle ++ inserting source text middle offsets := by
  cases offsets with
  | nil => exact (source.slice_append_drop lower).symm
  | cons offset rest =>
    have upper := later offset List.mem_cons_self
    simp only [inserting, ← source.slice_append lower upper, List.append_assoc]

/-- What is left of a span ends where the span does, or where it begins if the span ends before. -/
theorem Text.slice_rest (source : Text) (reached : Nat) (span : Span) :
    source.slice (max reached span.start) span.stop =
      source.slice (max reached span.start) (max reached span.stop) := by
  have ordered := span.ordered
  rw [← source.slice_max (max reached span.start) span.stop]
  congr 1
  omega

/-- Putting a text before what is left of each span inserts it where the spans let it land. -/
theorem stitched_before {spans : List Span} : stitched (text ++ ·) source reached spans =
    inserting source text reached (landings reached spans) := by
  induction spans generalizing reached with
  | nil => rfl
  | cons span rest ih =>
    have ordered := span.ordered
    have onward : max reached span.start ≤ max reached span.stop := by omega
    simp only [stitched, landings, inserting, ih]
    rw [inserting_from onward le_of_mem_landings, source.slice_max, source.slice_rest]
    simp only [List.append_assoc]

/-- The text stands at every start exactly when no span reaches past the start of a later one. -/
theorem landings_eq_starts {spans : List Span} : landings reached spans = spans.map (·.start) ↔
    (∀ span ∈ spans, reached ≤ span.start) ∧
      spans.Pairwise fun earlier later => earlier.stop ≤ later.start := by
  induction spans generalizing reached with
  | nil => simp [landings]
  | cons span rest ih =>
    have ordered := span.ordered
    simp only [landings, List.map_cons, List.cons.injEq, ih, List.forall_mem_cons, List.pairwise_cons]
    constructor
    · rintro ⟨first, later, apart⟩
      have beyond : ∀ other ∈ rest, reached ≤ other.start ∧ span.stop ≤ other.start :=
        fun other member => Nat.max_le.mp (later other member)
      exact ⟨⟨by omega, fun other member => (beyond other member).1⟩,
        fun other member => (beyond other member).2, apart⟩
    · rintro ⟨⟨first, beyond⟩, stops, apart⟩
      exact ⟨by omega, fun other member =>
        Nat.max_le.mpr ⟨beyond other member, stops other member⟩, apart⟩

namespace Pass
variable {pass after : Pass World} {position : Nat} {event : Event} {alone : Memory World}
  {output : Text} {policy : Policy}

/-- Between two events, with no region open: how far the pass has come, and what is out by then. -/
structure Idle (source output : Text) (reached : Nat) (pass : Pass World) : Prop where
  searching : pass.mode = .searching
  anchored : pass.writer.source = source
  free : pass.writer.bound = none
  reached : pass.writer.reached = reached
  output : pass.writer.output = output

private theorem Idle.of_heard (idle : Idle source output reached pass) (heard : Heard pass after) :
    Idle source output reached after := by
  refine ⟨heard.mode.trans idle.searching, ?_, ?_, ?_, ?_⟩ <;> rw [heard.writer]
  · exact idle.anchored
  · exact idle.free
  · exact idle.reached
  · exact idle.output

/-- A callback's turn at a region, where the source up to the region is out. -/
private theorem handOver_fills {active : Active World} {region : Region}
    (fills : Fills active.binding.callback filling) (anchored : pass.writer.source = source)
    (free : pass.writer.bound = none) (within : region.span.stop ≤ source.length) : ∃ after,
    handOver active region pass = .ok () after ∧
    after.memory.registers = pass.memory.registers ∧
    Idle source
      (pass.writer.output ++ filling (source.slice pass.writer.reached region.span.stop))
      (max pass.writer.reached region.span.stop) after := by
  rw [← anchored] at within
  let inner : Writer := { pass.writer with bound := some region.span.stop }
  have entered : pass.writer.enter region.span.stop = .ok inner := by
    have limited : region.span.stop ≤ pass.writer.limit := by
      rw [Writer.limit, free]
      exact within
    exact Writer.enter_eq_ok.mpr ⟨region.span.stop, rfl, within, limited, rfl⟩
  obtain ⟨left, ran, output⟩ := fills region inner pass.memory.world rfl within
  have kept : inner.Advances left := (active.binding.callback region).run_keeps.of_ok ran
  have sameSource : left.source = pass.writer.source := kept.source
  have stop : region.span.stop ≤ ({ left with bound := none } : Writer).source.length := by
    simp only [sameSource]
    exact within
  obtain ⟨dropped, fell⟩ := Writer.dropTo_free rfl stop
  rw [← free] at fell
  have turned := Writer.turned_of_run entered ran fell
  refine ⟨_, handOver_eq_ok.mpr ⟨inner, _, dropped, entered, ran, fell, rfl⟩, rfl, rfl,
    turned.source.trans anchored, turned.bound.trans free, turned.reached, ?_⟩
  obtain rfl := Writer.dropTo_eq_ok fell
  simp only [served, ← anchored]
  exact output

/-- A match: the source up to the event comes out, and then what the callback puts in its place. -/
private theorem openAt_fills (single : binding.stop = none) (fills : Fills binding.callback filling)
    (within : event.stop ≤ document.source.length)
    (idle : Idle document.source output reached pass) : ∃ after,
    openAt position binding { document, index } event pass = .ok () after ∧
    after.memory.registers = pass.memory.registers ∧
    Idle document.source
      (output ++ document.source.slice reached event.start ++
        filling (document.source.slice (max reached event.start) event.stop))
      (max reached event.stop) after := by
  have ordered := event.span.ordered
  have starts : event.start ≤ pass.writer.source.length := by
    rw [idle.anchored]
    exact Nat.le_trans ordered within
  obtain ⟨writer, copied⟩ := Writer.copyTo_free idle.free starts
  obtain ⟨sameSource, sameBound, sameReached, sameOutput⟩ := Writer.copyTo_output copied
  let active := activeAt position binding { document, index } event
  have stop : (active.complete document.source).span.stop = event.stop := Nat.max_eq_right ordered
  have inside : (active.complete document.source).span.stop ≤ document.source.length := by
    rw [stop]
    exact within
  have anchored : writer.source = document.source := sameSource.trans idle.anchored
  have copiedFree : writer.bound = none := sameBound.trans idle.free
  obtain ⟨after, handed, registers, filled⟩ : ∃ after, handOver active (active.complete document.source)
      (pass.opened position index event.start writer) = .ok () after ∧ _ :=
    handOver_fills fills anchored copiedFree inside
  refine ⟨after, openAt_eq_ok.mpr ⟨writer, copied, ?_⟩, registers, ?_⟩
  · rw [single]
    exact handed
  · rw [stop] at filled
    simp only [opened, sameReached, sameOutput, idle.reached, idle.output, idle.anchored] at filled
    have onward : max (max reached event.start) event.stop = max reached event.stop := by
      simp only [Event.start, Event.stop] at ordered ⊢
      omega
    rw [onward] at filled
    simpa only [Part.text, Span.text, Span.reach, Text.slice_max] using filled

/-- The spans of the matches from the event at `index` on. -/
def hitSpans (document : Document) (hits : Nat → Bool) (index : Nat) : List Span :=
  document.spansAt ((List.range' index (document.events.length - index)).filter hits)

private theorem hitSpans_end {hits : Nat → Bool} (ended : document.events.length ≤ index) :
    hitSpans document hits index = [] := by
  rw [hitSpans, Nat.sub_eq_zero_of_le ended]
  rfl

private theorem hitSpans_step {hits : Nat → Bool} (found : document.events[index]? = some event) :
    hitSpans document hits index =
      if hits index then event.span :: hitSpans document hits (index + 1)
      else hitSpans document hits (index + 1) := by
  obtain ⟨inside, -⟩ := List.getElem?_eq_some_iff.mp found
  have more : document.events.length - index = document.events.length - (index + 1) + 1 := by omega
  rw [hitSpans, more, List.range'_succ, List.filter_cons]
  cases hits index with
  | true => simp [hitSpans, Document.spansAt, found]
  | false => rfl

/-- A single binding is asked at an event, and is chosen if it starts there. -/
theorem survey_single (valid : document.Valid) (apart : binding.Apart)
    (keeping : binding.Keeping document alone index pass.memory.registers) : ∃ between,
    survey { document, index } none 0 [binding] pass =
      .ok (if (binding.soloRule document alone).starts index then some (0, binding) else none) between ∧
    binding.Keeping document alone (index + 1) between.memory.registers ∧ Heard pass between := by
  obtain ⟨stopped, between, asked, kept, -⟩ :=
    @askBoth_keeping _ binding document index pass alone 0 valid apart keeping
  have surveyed : survey { document, index } none 0 [binding] pass = .ok _ between :=
    survey_cons_eq_ok.mpr ⟨_, between, none, ⟨stopped, asked⟩, rfl, rfl⟩
  exact ⟨between, surveyed, kept, (survey_heard _ _ _ _).of_ok surveyed⟩

/-- An event adds to the output if it is a match, and is passed over otherwise. Either way what is out
together with what is yet to come stays the same. -/
theorem visit_fills (valid : document.Valid) (apart : binding.Apart) (single : binding.stop = none)
    (fills : Fills binding.callback filling) (found : document.events[index]? = some event)
    (keeping : binding.Keeping document alone index pass.memory.registers)
    (idle : Idle document.source output reached pass) :
    let spans := hitSpans document (binding.soloRule document alone).starts
    ∃ after outputAfter reachedAfter, visit [binding] { document, index } event pass = .ok () after ∧
      binding.Keeping document alone (index + 1) after.memory.registers ∧
      Idle document.source outputAfter reachedAfter after ∧
      outputAfter ++ stitched filling document.source reachedAfter (spans (index + 1)) =
        output ++ stitched filling document.source reached (spans index) := by
  intro spans
  have within : event.stop ≤ document.source.length :=
    valid.within event (List.mem_of_getElem? found)
  obtain ⟨between, surveyed, kept, heard⟩ :=
    @survey_single _ document binding index pass alone valid apart keeping
  have idleBetween := idle.of_heard heard
  have step : spans index = _ := hitSpans_step found
  rw [visit_searching idle.searching]
  cases hit : (binding.soloRule document alone).starts index with
  | false =>
    rw [hit] at surveyed
    have skipped : spans index = spans (index + 1) := by rw [step, hit]; rfl
    exact ⟨between, output, reached, search_eq_ok.mpr ⟨none, between, surveyed, rfl⟩, kept, idleBetween,
      by rw [skipped]⟩
  | true =>
    rw [hit] at surveyed
    have matched : spans index = event.span :: spans (index + 1) := by rw [step, hit]; rfl
    obtain ⟨after, opened, registers, filled⟩ :
        ∃ after, openAt 0 binding { document, index } event between = .ok () after ∧ _ :=
      openAt_fills single fills within idleBetween
    rw [← registers] at kept
    refine ⟨after, _, _, search_eq_ok.mpr ⟨_, between, surveyed, opened⟩, kept, filled, ?_⟩
    simp only [matched, stitched, Event.start, Event.stop, List.append_assoc]

/-- All events from `index` on. -/
theorem events_fills (valid : document.Valid) (apart : binding.Apart) (single : binding.stop = none)
    (fills : Fills binding.callback filling) {left : List Event}
    (there : document.events.drop index = left)
    (keeping : binding.Keeping document alone index pass.memory.registers)
    (idle : Idle document.source output reached pass) :
    ∃ after outputAfter reachedAfter, events [binding] document left index pass = .ok () after ∧
      Idle document.source outputAfter reachedAfter after ∧
      outputAfter ++ document.source.drop reachedAfter =
        output ++ stitched filling document.source reached
          (hitSpans document (binding.soloRule document alone).starts index) := by
  induction left generalizing index pass output reached with
  | nil =>
    refine ⟨pass, output, reached, rfl, idle, ?_⟩
    rw [hitSpans_end (List.drop_eq_nil_iff.mp there)]
    rfl
  | cons event left ih =>
    obtain ⟨found, later⟩ := next_of_drop there
    obtain ⟨between, _, _, visited, kept, idleBetween, same⟩ :=
      visit_fills valid apart single fills found keeping idle
    obtain ⟨after, outputAfter, reachedAfter, ran, idleAfter, rest⟩ := ih later kept idleBetween
    exact ⟨after, outputAfter, reachedAfter,
      events_cons_eq_ok.mpr ⟨between, visited, valid.check_eq_ok _, ran⟩, idleAfter, rest.trans same⟩

/-- After the last event the rest of the source comes out. -/
theorem finish_idle (idle : Idle source output reached pass) : ∃ after,
    finish policy source pass = .ok () after ∧ after.writer.output = output ++ source.drop reached := by
  have within : source.length ≤ pass.writer.source.length := by
    rw [idle.anchored]
  obtain ⟨writer, copied⟩ := Writer.copyTo_free idle.free within
  obtain ⟨-, -, -, rest⟩ := Writer.copyTo_output copied
  refine ⟨{ pass with writer }, (finish_searching_eq_ok idle.searching).mpr ⟨writer, copied, rfl⟩, ?_⟩
  simp only [rest, idle.output, idle.anchored, idle.reached, Part.text, Span.text, Span.reach,
    Text.slice_max]
  rw [Text.slice, List.take_of_length_le (by simp)]

end Pass

/-- An edit with a single binding that has no stop matcher puts out the source with every match filled.
The matches are those that a search with a fresh copy finds, wherever that is asked. -/
theorem single_text_eq_stitched {memory : Memory World} (policy : Policy) (valid : document.Valid)
    (apart : binding.Apart) (single : binding.stop = none) (fills : Fills binding.callback filling)
    (initial : ∀ slot ∈ binding.start.slots, memory.registers.get slot = {}) :
    ∃ emended hits, (emend [binding] document policy memory).answer = .ok emended ∧
      (∀ elsewhere, ∃ left, Search.freshIndices binding.start document elsewhere = .ok hits left) ∧
      emended.text = stitched filling document.source 0 (document.spansAt hits) := by
  let alone : Memory World := { world := memory.world }
  let begun : Pass World := { memory, writer := { source := document.source } }
  have keeping : binding.Keeping document alone 0 begun.memory.registers := by
    refine keeping_initial fun slot member => ?_
    rcases member with own | ⟨stop, given, -⟩
    · exact initial slot own
    · rw [single] at given
      cases given
  have idle : Pass.Idle document.source [] 0 begun := ⟨rfl, rfl, rfl, rfl, rfl⟩
  obtain ⟨between, output, reached, ran, idleBetween, same⟩ :=
    Pass.events_fills valid apart single fills List.drop_zero keeping idle
  obtain ⟨after, finished, rest⟩ := @Pass.finish_idle _ _ _ between output policy idleBetween
  let emended : Emended := {
    text := after.writer.output
    regions := after.regions
    unterminated := after.unterminated }
  have all : Pass.all [binding] document policy begun = .ok emended after :=
    Pass.all_eq_ok.mpr ⟨between, valid.check_eq_ok 0, ran, finished, rfl⟩
  have answer : (emend [binding] document policy memory).answer = .ok emended := by
    unfold emend
    rw [all]
  refine ⟨emended, _, answer, Search.freshIndices_eq_ok valid apart.start memory.world, ?_⟩
  rw [List.range_eq_range']
  exact (rest.trans same).trans (List.nil_append _)

/-- What a writer still has before its bound comes out when it copies up to there. -/
theorem Writer.copyTo_bound {writer : Writer} {stop : Nat} (bound : writer.bound = some stop)
    (within : stop ≤ writer.source.length) : ∃ left, writer.copyTo stop = .ok left ∧
      left.output = writer.output ++ writer.pending := by
  have limit : writer.limit = stop := by rw [Writer.limit, bound, Option.getD_some]
  have allowed : writer.check stop = .ok stop := check_eq_ok.mpr ⟨rfl, within, Nat.le_of_eq limit.symm⟩
  have copied : ∃ left, writer.copyTo stop = .ok left := ⟨_, by rw [copyTo, allowed]; rfl⟩
  obtain ⟨left, copied⟩ := copied
  obtain ⟨-, -, -, output⟩ := copyTo_output copied
  refine ⟨left, copied, ?_⟩
  rw [output, pending, limit]
  exact congrArg _ (writer.source.slice_max writer.reached stop)

private theorem Writer.insert_pending (writer : Writer) (text : Text) :
    (writer.insert text).pending = writer.pending := by
  unfold insert
  split <;> rfl

/-- The callback of `Binding.before` puts out its text and then what is left of the region. -/
theorem fills_before (text : Text) : Fills (fun region =>
    (.act (.insert text) (.once (.copyTo region.span.stop)) : Script World)) (text ++ ·) := by
  intro region writer world bound within
  have advanced := writer.insert_advances text
  rw [← advanced.bound] at bound
  rw [← advanced.source] at within
  obtain ⟨left, copied, output⟩ := Writer.copyTo_bound bound within
  have inserted : Script.onWriter (Writer.perform (.insert text)) { writer, world } =
      .ok () ({ writer := writer.insert text, world } : Desk World) := rfl
  have copies : (Script.once (.copyTo region.span.stop)).run
      { writer := writer.insert text, world } = .ok () ({ writer := left, world } : Desk World) :=
    Script.once_copyTo_eq_ok.mpr ⟨left, copied, rfl⟩
  refine ⟨left, bind_eq_ok.mpr ⟨(), _, inserted, copies⟩, ?_⟩
  rw [output, Writer.insert_output, Writer.insert_pending, List.append_assoc]

/-- Inserting a text before the events that a matcher accepts, those that a search with a fresh copy
finds, ends well and puts a copy at the start of each, or, where an earlier one of them reaches further,
at the furthest end of those; all else is as it was. So every copy stands before its own event exactly
when none of these events reaches past the start of a later one. -/
theorem emended_text_eq_inserting {matcher : Matcher World} {memory : Memory World} (policy : Policy)
    (text : Text) (valid : document.Valid) (pure : matcher.Pure)
    (initial : ∀ slot ∈ matcher.slots, memory.registers.get slot = {}) :
    ∃ binding emended hits, Binding.before text (.matcher matcher) = .ok binding ∧
      (emend [binding] document policy memory).answer = .ok emended ∧
      (∀ elsewhere, ∃ left, Search.freshIndices matcher document elsewhere = .ok hits left) ∧
      let spans := document.spansAt hits
      emended.text = inserting document.source text 0 (landings 0 spans) ∧
      (landings 0 spans = spans.map (·.start) ↔
        spans.Pairwise fun earlier later => earlier.stop ≤ later.start) := by
  let binding : Binding World := {
    start := matcher
    stop := none
    callback := fun region => .act (.insert text) (.once (.copyTo region.span.stop)) }
  have apart : binding.Apart := ⟨pure, by simp [binding], by simp [binding]⟩
  obtain ⟨emended, hits, answer, found, put⟩ :=
    single_text_eq_stitched policy valid apart rfl (fills_before text) initial
  refine ⟨binding, emended, hits, rfl, answer, found, ?_, ?_⟩
  · rw [put, stitched_before]
  · simp [landings_eq_starts]

/-- One paragraph with a text in it: where it opens, its text, and where it closes. -/
def greeting : Document where
  source := ['H', 'i', '\n']
  events := [
    { kind := .opening, span := .reach 0 3, tag := some { kind := .paragraph } },
    { kind := .text, span := .reach 0 2, text := ['H', 'i'] },
    { kind := .closing, span := .point 2, tag := some { kind := .paragraph } }]

/-- The paragraph is out before the turn of the events inside it, so both of their copies land behind. -/
theorem greeting_text_eq_inserting : ∃ binding emended,
    Binding.before ['X'] (.matcher (.always : Matcher Unit)) = .ok binding ∧
    (emend [binding] greeting .handOver { world := () }).answer = .ok emended ∧
    landings 0 (greeting.spansAt [0, 1, 2]) = [0, 3, 3] ∧
    emended.text = ['X', 'H', 'i', '\n', 'X', 'X'] := by
  have valid : greeting.Valid := ⟨by decide, by decide⟩
  have pure : (Matcher.always : Matcher Unit).Pure := trivial
  have initial : ∀ slot ∈ (Matcher.always : Matcher Unit).slots,
      ({ world := () } : Memory Unit).registers.get slot = {} := fun _ _ => rfl
  obtain ⟨binding, emended, hits, given, answer, found, put, -⟩ :=
    emended_text_eq_inserting .handOver ['X'] valid pure initial
  obtain ⟨left, searched⟩ := found { world := () }
  have every : ∃ left, Search.freshIndices (.always : Matcher Unit) greeting { world := () } =
      .ok [0, 1, 2] left := ⟨_, by cbv⟩
  obtain ⟨other, every⟩ := every
  cases searched.symm.trans every
  exact ⟨binding, emended, given, answer, by cbv, put.trans (by cbv)⟩

/-- So the text does not stand before every event: with each copy at the start of its own event the text
would be another one. -/
theorem greeting_text_misses_starts : ∃ binding emended hits,
    Binding.before ['X'] (.matcher (.always : Matcher Unit)) = .ok binding ∧
    (emend [binding] greeting .handOver { world := () }).answer = .ok emended ∧
    (∃ left, Search.freshIndices (.always : Matcher Unit) greeting { world := () } = .ok hits left) ∧
    emended.text = ['X', 'H', 'i', '\n', 'X', 'X'] ∧
    inserting greeting.source ['X'] 0 ((greeting.spansAt hits).map (·.start)) =
      ['X', 'X', 'H', 'i', 'X', '\n'] := by
  refine ⟨_, { text := ['X', 'H', 'i', '\n', 'X', 'X'], regions := 3 }, [0, 1, 2], rfl, ?_,
    ⟨_, by cbv⟩, rfl, ?_⟩ <;> cbv

end Emend
