import Mathlib
import Emend.Proofs.Markup.Elements

/-! What the opening event of an element covers. An inline element's opening event gets its span when the
element closes, so it covers all of it whatever the tokens say. A block's span is fixed when the block
opens, and what comes inside stays within it if the tokens are laid out line by line: each within the
lines of the block around it, and none before lines that are done. -/
namespace Emend

namespace Token

/-- The line after the token's lines, if it knows them. -/
def lastLine (token : Token) : Option Int :=
  token.lines.map Prod.snd

end Token

/-- The lines taken by tokens read so far: where the lines of each open block end, innermost first and
as far as it knows its lines, and where the lines of everything else end. -/
structure Layout where
  frames : List (Option Int) := []
  done : Int := 0

namespace Layout

/-- The end of the lines that a token may take: that of the innermost open block that knows its lines. -/
def bound (layout : Layout) : Option Int :=
  layout.frames.findSome? id

/-- The layout once some lines more are done. -/
def finish (layout : Layout) (last : Option Int) : Layout :=
  { layout with done := max layout.done (last.getD layout.done) }

def next (layout : Layout) (token : Token) : Layout :=
  if token.traced then
    match token.nesting with
    | .opening => { layout with frames := token.lastLine :: layout.frames }
    | .closing => { layout with frames := layout.frames.tail }.finish layout.frames.head?.join
    | .alone => layout.finish token.lastLine
  else layout

theorem next_untraced {layout : Layout} {token : Token} (untraced : token.traced = false) :
    layout.next token = layout := by
  rw [next, untraced]
  rfl

end Layout

/-- The token's lines are in order, after all that is done and within the block around it; and inline
tokens know their lines. -/
structure Token.InPlace (layout : Layout) (token : Token) : Prop where
  known : token.nesting = .alone → token.type = "inline" → token.lines ≠ none
  lines : ∀ first last, token.lines = some (first, last) → 0 ≤ first ∧ first ≤ last ∧
    layout.done ≤ first ∧ ∀ bound ∈ layout.bound, last ≤ bound

theorem Token.InPlace.of_lines {layout : Layout} {token : Token} {first last : Int}
    (lines : token.lines = some (first, last)) (inside : 0 ≤ first ∧ first ≤ last ∧
      layout.done ≤ first ∧ ∀ bound ∈ layout.bound, last ≤ bound) : token.InPlace layout where
  known _ _ unknown := Option.some_ne_none _ (lines.symm.trans unknown)
  lines first' last' found := by
    cases lines.symm.trans found
    exact inside

/-- All of these tokens that events come from are in place, one after the other. -/
def LaidOut : Layout → List Token → Prop
  | _, [] => True
  | layout, token :: rest =>
    (token.traced = true → token.nesting ≠ .closing → token.InPlace layout) ∧
      LaidOut (layout.next token) rest

namespace Block
variable {page : Page} {progress after : Progress} {token : Token} {span : Span} {tag : Tag}
  {layout : Layout} {added : List Event} {blocks : List (Tag × Span)} {frames : List (Option Int)}

/-- Where the lines that a token may take end. -/
def room (page : Page) (layout : Layout) : Nat :=
  (layout.bound.map page.lines.top).getD page.source.length

/-- Each open block stops within the one around it, and not before the lines that its content may take. -/
inductive Stacked (page : Page) : List (Tag × Span) → List (Option Int) → Prop where
  | nil : Stacked page [] []
  | cons {block : Tag × Span} {frame : Option Int} {blocks : List (Tag × Span)}
    {frames : List (Option Int)} (outer : Stacked page blocks frames)
    (within : block.2.stop ≤ page.enclosingEnd { blocks })
    (roomy : room page { frames := frame :: frames } ≤ block.2.stop) :
    Stacked page (block :: blocks) (frame :: frames)

namespace Stacked

private theorem enclosingEnd_le (stacked : Stacked page blocks frames) :
    ∀ block ∈ blocks, page.enclosingEnd { blocks } ≤ block.2.stop := by
  induction stacked with
  | nil => simp
  | cons outer within roomy ih =>
    intro block member
    rcases List.mem_cons.mp member with rfl | member
    · exact Nat.le_refl _
    · exact Nat.le_trans within (ih block member)

private theorem room_le (stacked : Stacked page blocks frames) :
    room page { frames } ≤ page.enclosingEnd { blocks } := by
  cases stacked with
  | nil => exact Nat.le_refl _
  | cons outer within roomy => exact roomy

end Stacked

/-- The open blocks are stacked up, nothing so far reaches past the innermost of them, no more is consumed
than lines that are done or the place of the last event, and every element covers what is in it. -/
structure Fits (page : Page) (layout : Layout) (progress : Progress) : Prop where
  stacked : Stacked page progress.blocks layout.frames
  floor : progress.floor ≤ page.enclosingEnd progress
  behind : progress.consumed ≤ max progress.lastStart (page.lines.top layout.done)
  covered : Covered (fun _ => True) [] progress.events

/-- The span lies ahead of everything so far and within the innermost open block. -/
structure Placed (page : Page) (progress : Progress) (span : Span) : Prop where
  ahead : progress.floor ≤ span.start
  within : span.stop ≤ page.enclosingEnd progress

namespace Sound

private theorem lastStart_mono (sound : Sound page after) (more : progress.events <+: after.events) :
    progress.lastStart ≤ after.lastStart :=
  lastStart_le_of fun event member => sound.start_le_lastStart event (more.subset member)

theorem lastStart_append_le (sound : Sound page progress) {bound : Nat}
    (events : after.events = progress.events ++ added) (before : progress.lastStart ≤ bound)
    (starts : ∀ event ∈ added, event.start ≤ bound) : after.lastStart ≤ bound := by
  apply lastStart_le_of
  intro event member
  rw [events] at member
  rcases List.mem_append.mp member with member | member
  · exact Nat.le_trans (sound.start_le_lastStart event member) before
  · exact starts event member

theorem top_mono (sound : Sound page progress) {first last : Int} (ordered : first ≤ last) :
    page.lines.top first ≤ page.lines.top last := by
  rw [sound.indexed]
  exact Lines.top_mono ordered

private theorem top_le_room (sound : Sound page progress) {first last : Int} (inPlace : token.InPlace layout)
    (lines : token.lines = some (first, last)) : page.lines.top last ≤ room page layout := by
  obtain ⟨-, -, -, inside⟩ := inPlace.lines first last lines
  unfold room
  cases bound : layout.bound with
  | none =>
    rw [sound.indexed]
    exact Lines.top_le
  | some line => exact sound.top_mono (inside line bound)

end Sound

private theorem Page.lineSpan?_none (ran : page.lineSpan? progress token = .ok none) :
    token.lines = none := by
  unfold Page.lineSpan? at ran
  split at ran
  · assumption
  · obtain ⟨top, -, ran⟩ := except_bind_eq_ok.mp ran
    obtain ⟨bottom, -, ran⟩ := except_bind_eq_ok.mp ran
    cases ran

namespace Fits

/-- The lines of a token in place lie ahead of everything so far and within the innermost open block. -/
theorem lineSpan?_placed (fits : Fits page layout progress) (sound : Sound page progress)
    (inPlace : token.InPlace layout) (ran : page.lineSpan? progress token = .ok (some span)) :
    Placed page progress span ∧ ∃ last, token.lastLine = some last ∧ page.lines.top last ≤ span.stop ∧
      span.stop ≤ max progress.lastStart (page.lines.top last) := by
  unfold Page.lineSpan? at ran
  split at ran
  · cases ran
  · rename_i first last lines
    obtain ⟨top, foundTop, ran⟩ := except_bind_eq_ok.mp ran
    obtain ⟨bottom, foundBottom, ran⟩ := except_bind_eq_ok.mp ran
    cases ran
    obtain ⟨forward, ordered, done, -⟩ := inPlace.lines first last lines
    have topAt := Lines.startOf_eq_top forward foundTop
    have bottomAt := Lines.startOf_eq_top (Int.le_trans forward ordered) foundBottom
    have rising := sound.top_mono ordered
    have later := sound.top_mono done
    have inside := Nat.le_trans (sound.top_le_room inPlace lines) fits.stacked.room_le
    have behind := fits.behind
    have floor := fits.floor
    have enclosing : page.enclosingEnd progress = page.enclosingEnd { blocks := progress.blocks } := rfl
    unfold Progress.floor at floor
    refine ⟨⟨?_, ?_⟩, last, by simp [Token.lastLine, lines], ?_, ?_⟩
    · simp only [Progress.floor, Span.reach]
      omega
    · simp only [Span.reach]
      omega
    · simp only [Span.reach]
      omega
    · simp only [Span.reach]
      omega

private theorem lineSpan_placed (fits : Fits page layout progress) (sound : Sound page progress)
    (inPlace : token.InPlace layout) (ran : page.lineSpan progress token = .ok span) :
    Placed page progress span ∧ ∀ last ∈ token.lastLine, page.lines.top last ≤ span.stop := by
  obtain ⟨lines, found, ran⟩ := except_bind_eq_ok.mp ran
  cases ran
  cases lines with
  | none => exact ⟨⟨Nat.le_refl _, fits.floor⟩, by simp [Token.lastLine, Page.lineSpan?_none found]⟩
  | some span =>
    obtain ⟨placed, last, lastLine, lower, -⟩ := fits.lineSpan?_placed sound inPlace found
    refine ⟨placed, ?_⟩
    rw [lastLine]
    rintro _ ⟨⟩
    exact lower

/-- What goes on top of the open blocks without reaching past the innermost one is covered by all. -/
theorem covered_append (fits : Fits page layout progress) (nested : Nested progress)
    (inside : ∀ outer, (∀ opening ∈ outer, page.enclosingEnd progress ≤ opening.stop) →
      Covered (fun _ => True) outer added) : Covered (fun _ => True) [] (progress.events ++ added) := by
  apply fits.covered.append
  rw [nested.waiting]
  rintro _ ⟨⟩
  apply inside
  intro opening member
  obtain ⟨block, open_, rfl⟩ := List.mem_map.mp member
  exact fits.stacked.enclosingEnd_le block open_

/-- Adding one event that does not reach past the innermost open block. -/
theorem covered_single (fits : Fits page layout progress) (nested : Nested progress) {event : Event}
    (ends : event.stop ≤ page.enclosingEnd progress) :
    Covered (fun _ => True) [] (progress.events ++ [event]) :=
  fits.covered_append nested fun _ around =>
    .single fun opening member _ => Nat.le_trans ends (around opening member)

/-- A token that stands alone leaves the open blocks as they are. Its events stay within them. -/
theorem finish_fits (fits : Fits page layout progress) (sound : Sound page progress)
    (nested : Nested progress)
    (events : after.events = progress.events ++ added) (blocks : after.blocks = progress.blocks)
    (balanced : Balanced added) (covered : Covered (fun _ => True) [] added)
    (ends : ∀ event ∈ added, event.stop ≤ page.enclosingEnd progress)
    (consumed : after.consumed ≤ page.enclosingEnd progress)
    (behind : after.consumed ≤ max after.lastStart (page.lines.top (layout.finish token.lastLine).done)) :
    Fits page (layout.finish token.lastLine) after := by
  have same : page.enclosingEnd after = page.enclosingEnd progress := by
    unfold Page.enclosingEnd
    rw [blocks]
  refine ⟨?_, ?_, behind, ?_⟩
  · rw [blocks]
    exact fits.stacked
  · rw [same]
    have before : progress.lastStart ≤ page.enclosingEnd progress :=
      Nat.le_trans (Nat.le_max_left ..) fits.floor
    refine Nat.max_le.mpr ⟨sound.lastStart_append_le events before ?_, consumed⟩
    exact fun event member => Nat.le_trans event.span.ordered (ends event member)
  · rw [events]
    refine fits.covered_append nested fun outer around => covered.append_outer balanced ?_
    intro event member opening open_ _
    exact Nat.le_trans (ends event member) (around opening open_)

/-- A single event of a token that stands alone. -/
theorem emit_single (fits : Fits page layout progress) (sound : Sound page progress)
    (nested : Nested progress) {event : Event} (leaf : event.Leaf) (placed : Placed page progress event.span) :
    Fits page (layout.finish token.lastLine) (progress.emit [event]) := by
  have consumed : progress.consumed ≤ event.start := Nat.le_trans (Nat.le_max_right ..) placed.ahead
  have ordered : event.start ≤ event.stop := event.span.ordered
  refine fits.finish_fits sound nested rfl rfl (.of_leaves (by simpa)) (.of_leaves (by simpa)) ?_ ?_ ?_
  · intro other member
    cases List.mem_singleton.mp member
    exact placed.within
  · exact Nat.le_trans consumed (Nat.le_trans ordered placed.within)
  · rw [lastStart_emit]
    exact Nat.le_trans consumed (Nat.le_max_left ..)

end Fits

namespace Page

/-- The scan of a block's inline tokens stays within their lines, which lie ahead of all that came
before. -/
theorem inlineTokens_fits (fits : Fits page layout progress) (sound : Sound page progress)
    (nested : Nested progress) (inPlace : token.InPlace layout) (known : token.lines ≠ none)
    (ran : page.inlineTokens progress token = .ok after) :
    Fits page (layout.finish token.lastLine) after := by
  have soundAfter := inlineTokens_sound sound ran
  obtain ⟨region, found, ran⟩ := except_bind_eq_ok.mp ran
  obtain ⟨⟨events, pos⟩, scanned, ran⟩ := except_bind_eq_ok.mp ran
  cases ran
  cases region with
  | none => exact absurd (lineSpan?_none found) known
  | some span =>
    obtain ⟨placed, last, lastLine, -, upper⟩ := fits.lineSpan?_placed sound inPlace found
    have ordered := span.ordered
    have begins : max span.start progress.floor = span.start := Nat.max_eq_left placed.ahead
    have limit : max span.start span.stop = span.stop := Nat.max_eq_right ordered
    simp only [Option.map_some, Option.getD_some, begins, limit] at scanned
    obtain ⟨balanced, covered⟩ := Inline.events_nested ordered scanned
    obtain ⟨onward, within, inOrder⟩ := Inline.events_ordered ordered scanned
    have later := soundAfter.lastStart_mono (List.prefix_append progress.events events)
    have consumed : progress.consumed ≤ span.start :=
      Nat.le_trans (Nat.le_max_right ..) placed.ahead
    have stays : max progress.consumed pos ≤ span.stop :=
      Nat.max_le.mpr ⟨Nat.le_trans consumed ordered, within⟩
    have done : page.lines.top last ≤ page.lines.top (layout.finish token.lastLine).done := by
      apply sound.top_mono
      rw [lastLine]
      exact Int.le_max_right ..
    refine fits.finish_fits sound nested rfl rfl balanced covered ?_ ?_ ?_
    · intro event member
      exact Nat.le_trans (inOrder.ends event member) placed.within
    · exact Nat.le_trans stays placed.within
    · refine Nat.le_trans stays (Nat.le_trans upper (Nat.max_le.mpr ⟨?_, ?_⟩))
      · exact Nat.le_trans later (Nat.le_max_left ..)
      · exact Nat.le_trans done (Nat.le_max_right ..)

/-- The content of a code block in place does not reach past the block's lines. -/
theorem codeBody_stop_le {body : Span} (sound : Sound page progress) (inPlace : token.InPlace layout)
    (lines : ∀ last ∈ token.lastLine, page.lines.top last ≤ span.stop)
    (ran : page.codeBody token span = .ok body) : body.stop ≤ span.stop := by
  have ordered := span.ordered
  unfold codeBody at ran
  split at ran
  · rename_i first last fence known
    obtain ⟨forward, -, -, -⟩ := inPlace.lines first last known
    have within := lines last (by simp [Token.lastLine, known])
    obtain ⟨top, found, ran⟩ := except_bind_eq_ok.mp ran
    dsimp only at ran
    have whole (stop : Nat) (inside : stop ≤ span.stop) :
        (Span.reach (max span.start (min top span.stop)) stop).stop ≤ span.stop := by
      simp only [Span.reach]
      omega
    split at ran
    · rename_i several
      obtain ⟨closes, -, ran⟩ := except_bind_eq_ok.mp ran
      split at ran
      · obtain ⟨bottom, foundBottom, ran⟩ := except_bind_eq_ok.mp ran
        cases ran
        have bottomAt := Lines.startOf_eq_top (by omega) foundBottom
        have before : last - 1 ≤ last := by omega
        have rising := sound.top_mono before
        exact whole bottom (by omega)
      · cases ran
        exact whole span.stop (Nat.le_refl _)
    · cases ran
      exact whole span.stop (Nat.le_refl _)
  · cases ran
    have trimmed := @trimmedEnd_le page span
    simp only [Span.reach]
    omega

/-- A code block in place is one element, which does not reach past its lines. -/
theorem codeBlock_within (fits : Fits page layout progress) (sound : Sound page progress)
    (inPlace : token.InPlace layout) (ran : page.codeBlock progress token = .ok after) :
    ∃ span inner stop, page.lineSpan progress token = .ok span ∧ (∀ event ∈ inner, event.Leaf) ∧
      (∀ event ∈ inner ++ [closingEvent (codeTag token, span) stop], event.stop ≤ span.stop) ∧
      after = { progress with
        events := progress.events ++ (openingEvent (codeTag token, span) :: inner ++
          [closingEvent (codeTag token, span) stop])
        consumed := stop } := by
  obtain ⟨span, body, found, foundBody, rfl⟩ := codeBlock_eq_ok.mp ran
  obtain ⟨placed, lines⟩ := fits.lineSpan_placed sound inPlace found
  have inside := codeBody_stop_le sound inPlace lines foundBody
  have ordered := span.ordered
  have leaves := @codeText_leaf token body
  let opened := progress.emit (openingEvent (codeTag token, span) :: codeText token body)
  let stop := max (page.trimmedEnd span) opened.floor
  have textEnds : ∀ event ∈ codeText token body, event.stop ≤ span.stop := by
    intro event member
    rw [Event.stop, (leaves event member).2]
    exact inside
  have floor : progress.floor ≤ span.stop := Nat.le_trans placed.ahead ordered
  have starts : opened.lastStart ≤ span.stop := by
    refine sound.lastStart_append_le rfl (Nat.le_trans (Nat.le_max_left ..) floor) ?_
    intro event member
    rcases List.mem_cons.mp member with rfl | member
    · exact ordered
    · exact Nat.le_trans event.span.ordered (textEnds event member)
  have ends : stop ≤ span.stop := by
    have consumed : opened.consumed ≤ span.stop := Nat.le_trans (Nat.le_max_right ..) floor
    exact Nat.max_le.mpr ⟨trimmedEnd_le span, Nat.max_le.mpr ⟨starts, consumed⟩⟩
  refine ⟨span, codeText token body, stop, found, fun event member => (leaves event member).1, ?_, ?_⟩
  · refine List.forall_mem_append.mpr ⟨textEnds, ?_⟩
    intro event member
    cases List.mem_singleton.mp member
    exact ends
  · rw [emitClosing_eq]
    simp [opened, stop, Progress.emit]

private theorem codeBlock_fits (fits : Fits page layout progress) (sound : Sound page progress)
    (nested : Nested progress) (inPlace : token.InPlace layout)
    (ran : page.codeBlock progress token = .ok after) :
    Fits page (layout.finish token.lastLine) after := by
  obtain ⟨span, inner, stop, found, plain, within, rfl⟩ := codeBlock_within fits sound inPlace ran
  obtain ⟨placed, -⟩ := fits.lineSpan_placed sound inPlace found
  let opening := openingEvent (codeTag token, span)
  let closing := closingEvent (codeTag token, span) stop
  have balanced : Balanced (opening :: inner ++ [closing]) :=
    (Balanced.of_leaves plain).of_element rfl rfl rfl
  have covered : Covered (fun _ => True) [] (opening :: inner ++ [closing]) :=
    (Covered.of_leaves plain).of_element (.of_leaves plain) rfl fun _ => within
  have last : (progress.events ++ (opening :: inner ++ [closing])).getLast? = some closing := by
    rw [← List.append_assoc, List.getLast?_concat]
  refine fits.finish_fits sound nested rfl rfl balanced covered ?_ ?_ ?_
  · intro event member
    refine Nat.le_trans ?_ placed.within
    rcases List.mem_cons.mp member with rfl | member
    · exact Nat.le_refl _
    · exact within event member
  · exact Nat.le_trans (within closing (by simp [closing])) placed.within
  · refine Nat.le_trans (Nat.le_of_eq ?_) (Nat.le_max_left ..)
    rw [Progress.lastStart, last]
    rfl

theorem headingSpan_bounds (page : Page) (markup : Text) (span : Span) :
    span.start ≤ (page.headingSpan markup span).start ∧ (page.headingSpan markup span).stop = span.stop := by
  have within : (page.headingSpan markup span).Within span.start span.stop :=
    headingSpan_within ⟨Nat.le_refl _, Nat.le_refl _⟩
  refine ⟨within.1, Nat.le_antisymm within.2 ?_⟩
  unfold headingSpan
  split
  · split
    · exact Nat.le_max_right ..
    · exact Nat.le_refl _
  · exact Nat.le_refl _

/-- A block that opens lies within the one around it, and has room for the lines its content may take. -/
theorem openingSpan_fits (fits : Fits page layout progress) (sound : Sound page progress)
    (inPlace : token.InPlace layout) (ran : page.openingSpan progress token tag = .ok span) :
    Placed page progress span ∧ room page { frames := token.lastLine :: layout.frames } ≤ span.stop := by
  obtain ⟨lines, found, ran⟩ := except_bind_eq_ok.mp ran
  cases lines with
  | none =>
    cases ran
    have unknown : token.lastLine = none := by
      simp [Token.lastLine, lineSpan?_none found]
    refine ⟨⟨Nat.le_refl _, Nat.max_le.mpr ⟨fits.floor, Nat.le_refl _⟩⟩, ?_⟩
    rw [unknown]
    exact Nat.le_trans fits.stacked.room_le (Nat.le_max_right ..)
  | some lines =>
    obtain ⟨placed, last, lastLine, lower, -⟩ := fits.lineSpan?_placed sound inPlace found
    have roomy : room page { frames := token.lastLine :: layout.frames } ≤ lines.stop := by
      rw [lastLine]
      exact lower
    cases ran
    split
    · obtain ⟨starts, stops⟩ := headingSpan_bounds page token.markup lines
      refine ⟨⟨Nat.le_trans placed.ahead starts, ?_⟩, ?_⟩
      · rw [stops]
        exact placed.within
      · rw [stops]
        exact roomy
    · exact ⟨placed, roomy⟩

private theorem openBlock_fits (fits : Fits page layout progress) (sound : Sound page progress)
    (nested : Nested progress) (inPlace : token.InPlace layout)
    (ran : page.openBlock progress token = .ok after) :
    Fits page { layout with frames := token.lastLine :: layout.frames } after := by
  obtain ⟨tag, -, ran⟩ := except_bind_eq_ok.mp ran
  obtain ⟨span, found, ran⟩ := except_bind_eq_ok.mp ran
  cases ran
  obtain ⟨placed, roomy⟩ := openingSpan_fits fits sound inPlace found
  have consumed : max progress.consumed span.start = span.start :=
    Nat.max_eq_right (Nat.le_trans (Nat.le_max_right ..) placed.ahead)
  have starts : (progress.emit [openingEvent (tag, span)]).lastStart = span.start := lastStart_emit
  refine ⟨.cons fits.stacked placed.within roomy, ?_, ?_, ?_⟩
  · refine Nat.max_le.mpr ⟨?_, ?_⟩
    · exact Nat.le_trans (Nat.le_of_eq starts) span.ordered
    · exact Nat.le_trans (Nat.le_of_eq consumed) span.ordered
  · refine Nat.le_trans (Nat.le_of_eq ?_) (Nat.le_max_left ..)
    exact consumed.trans starts.symm
  · exact fits.covered_single nested placed.within

private theorem closeBlock_fits (fits : Fits page layout progress) (nested : Nested progress)
    (ran : page.closeBlock progress = .ok after) :
    Fits page ({ layout with frames := layout.frames.tail }.finish layout.frames.head?.join) after := by
  unfold closeBlock at ran
  split at ran
  · cases ran
  · rename_i tag span outer innermost
    cases ran
    obtain ⟨frames, done⟩ := layout
    obtain ⟨stacked, floor, -, covered⟩ := id fits
    have around : page.enclosingEnd progress = span.stop := by
      unfold enclosingEnd
      rw [innermost]
    rw [around] at floor
    have trimmed := @trimmedEnd_le page span
    have stop : max (page.trimmedEnd span) progress.floor ≤ span.stop := Nat.max_le.mpr ⟨trimmed, floor⟩
    let closing := closingEvent (tag, span) (max (page.trimmedEnd span) progress.floor)
    have closes : Covered (fun _ => True) [] (progress.events ++ [closing]) :=
      fits.covered_single nested (Nat.le_trans stop (Nat.le_of_eq around.symm))
    have starts : (progress.emit [closing]).lastStart = max (page.trimmedEnd span) progress.floor :=
      lastStart_emit
    rw [innermost] at stacked
    cases stacked with
    | cons outside within roomy =>
      rw [emitClosing_eq]
      refine ⟨outside, ?_, ?_, closes⟩
      · refine Nat.max_le.mpr ⟨?_, Nat.le_trans stop within⟩
        exact Nat.le_trans (Nat.le_of_eq starts) (Nat.le_trans stop within)
      · exact Nat.le_trans (Nat.le_of_eq starts.symm) (Nat.le_max_left ..)

/-- Every token in place keeps to the layout. -/
theorem token_fits (fits : Fits page layout progress) (sound : Sound page progress)
    (nested : Nested progress)
    (inPlace : token.traced = true → token.nesting ≠ .closing → token.InPlace layout)
    (ran : page.token progress token = .ok after) : Fits page (layout.next token) after := by
  cases traced : token.traced with
  | false =>
    rw [token_untraced traced ran, Layout.next_untraced traced]
    exact fits
  | true =>
    simp only [Layout.next, traced, ↓reduceIte]
    cases token_reads ran with
    | untraced untraced =>
      rw [traced] at untraced
      cases untraced
    | opens opening shown ran =>
      simp only [opening]
      exact openBlock_fits fits sound nested (inPlace traced (by simp [opening])) ran
    | closes closing shown ran =>
      simp only [closing]
      exact closeBlock_fits fits nested ran
    | inline alone type ran =>
      have placed := inPlace traced (by simp [alone])
      simp only [alone]
      exact inlineTokens_fits fits sound nested placed (placed.known alone type) ran
    | code alone type ran =>
      simp only [alone]
      exact codeBlock_fits fits sound nested (inPlace traced (by simp [alone])) ran
    | leaf alone type found leaf starts ends =>
      obtain ⟨placed, -⟩ := fits.lineSpan_placed sound (inPlace traced (by simp [alone])) found
      simp only [alone]
      refine fits.emit_single sound nested leaf ⟨?_, Nat.le_trans ends placed.within⟩
      exact Nat.le_trans placed.ahead (Nat.le_of_eq starts.symm)

theorem tokens_fits {tokens : List Token} (fits : Fits page layout progress)
    (sound : Sound page progress) (nested : Nested progress) (laid : LaidOut layout tokens)
    (ran : page.tokens progress tokens = .ok after) : Covered (fun _ => True) [] after.events := by
  induction tokens generalizing layout progress with
  | nil =>
    cases ran
    exact fits.covered
  | cons head rest ih =>
    unfold Page.tokens at ran
    split at ran
    · rename_i next read
      obtain ⟨inPlace, later⟩ := laid
      exact ih (token_fits fits sound nested inPlace read) (token_sound sound read)
        (token_nested nested read) later ran
    · cases ran

end Page
end Block

/-- An element's opening event covers all that stands in the element, and its closing event: inline
elements always do, and blocks do if the tokens are laid out. -/
theorem events_ofTokens_covered {source : Text} {tokens : List Token} {events inner : List Event}
    {opening closing : Event} (read : Event.ofTokens source tokens = .ok events)
    (element : Element events opening inner closing) (covers : opening.Inline ∨ LaidOut {} tokens) :
    ∀ event ∈ inner ++ [closing], event.span.Within opening.start opening.stop := by
  obtain ⟨progress, ran, rfl⟩ := map_eq_ok.mp read
  have nested := Block.Page.tokens_nested ran
  have begun : Block.Sound { source, lines := .ofText source } {} :=
    ⟨rfl, .nil, by simp, by simp, Nat.zero_le _⟩
  have sound := Block.Page.tokens_keep _ Block.Page.token_sound begun ran
  have ends : ∀ event ∈ inner ++ [closing], event.stop ≤ opening.stop := by
    rcases covers with inline | laid
    · exact nested.covered.element_stop_le nested.waiting element inline
    · have fits : Block.Fits { source, lines := .ofText source } {} {} :=
        ⟨.nil, Nat.zero_le _, Nat.zero_le _, trivial⟩
      have covered := Block.Page.tokens_fits fits begun ⟨rfl, by simp, trivial⟩ laid ran
      exact covered.element_stop_le nested.waiting element trivial
  have starts : ∀ event ∈ inner ++ [closing], opening.start ≤ event.start := by
    obtain ⟨earlier, later, whole⟩ := element.stands
    have sorted := sound.sorted
    rw [← whole] at sorted
    have inside := (List.pairwise_append.mp (List.pairwise_append.mp sorted).1).2.1
    rw [List.cons_append] at inside
    exact (List.pairwise_cons.mp inside).1
  exact fun event member => ⟨starts event member, ends event member⟩

/-- A quote of a paragraph with an emphasis, and of a code block. -/
def quoting : List Token := [
  { type := "blockquote_open", nesting := .opening, lines := some (0, 3) },
  { type := "paragraph_open", nesting := .opening, lines := some (0, 1) },
  { type := "inline", lines := some (0, 1), children := [
    { type := "em_open", nesting := .opening, markup := ['*'] },
    { type := "text", content := ['a'] },
    { type := "em_close", nesting := .closing, markup := ['*'] }] },
  { type := "paragraph_close", nesting := .closing },
  { type := "fence", lines := some (1, 3), markup := ['~'], content := ['b', '\n'] },
  { type := "blockquote_close", nesting := .closing }]

/-- What the quote is read as from its second event on, without the closing one. -/
def quotedEvents : List Event :=
  let paragraph : Tag := { kind := .paragraph, name := "paragraph" }
  let emphasis : Tag := { kind := .emphasis, block := false, name := "em" }
  let code : Tag := { kind := .codeBlock, name := "fence" }
  [{ kind := .opening, span := .reach 0 4, tag := some paragraph },
    { kind := .opening, span := .reach 0 3, tag := some emphasis },
    { kind := .text, span := .reach 1 2, text := ['a'] },
    { kind := .closing, span := .reach 2 3, tag := some emphasis },
    { kind := .closing, span := .point 3, tag := some paragraph },
    { kind := .opening, span := .reach 4 8, tag := some code },
    { kind := .text, span := .reach 6 8, text := ['b', '\n'] },
    { kind := .closing, span := .point 7, tag := some code }]

def quoteOpening (stop : Nat) : Event :=
  { kind := .opening, span := .reach 0 stop, tag := some { kind := .blockQuote, name := "blockquote" } }

def quoteClosing (stop : Nat) : Event :=
  { kind := .closing, span := .point stop,
    tag := some { kind := .blockQuote, name := "blockquote" } }

private theorem quoting_laidOut : LaidOut {} quoting := by
  have blockQuote : Token.InPlace {} quoting[0] := .of_lines rfl (by decide)
  have paragraph : Token.InPlace { frames := [some 3] } quoting[1] := .of_lines rfl (by decide)
  have words : Token.InPlace { frames := [some 1, some 3] } quoting[2] := .of_lines rfl (by decide)
  have code : Token.InPlace { frames := [some 3], done := 1 } quoting[4] := .of_lines rfl (by decide)
  have closing (layout : Layout) (token : Token) (closes : token.nesting = .closing) :
      token.traced = true → token.nesting ≠ .closing → token.InPlace layout :=
    fun _ opens => absurd closes opens
  exact ⟨fun _ _ => blockQuote, fun _ _ => paragraph, fun _ _ => words, closing _ _ rfl,
    fun _ _ => code, closing _ _ rfl, trivial⟩

theorem quoting_events_covered :
    Event.ofTokens ['*', 'a', '*', '\n', '~', '\n', 'b', '\n'] quoting =
      .ok (quoteOpening 8 :: quotedEvents ++ [quoteClosing 7]) ∧
    ∀ event ∈ quotedEvents ++ [quoteClosing 7], event.span.Within 0 8 := by
  have read : Event.ofTokens ['*', 'a', '*', '\n', '~', '\n', 'b', '\n'] quoting =
      .ok (quoteOpening 8 :: quotedEvents ++ [quoteClosing 7]) := by
    cbv
  have element : Element (quoteOpening 8 :: quotedEvents ++ [quoteClosing 7]) (quoteOpening 8)
      quotedEvents (quoteClosing 7) :=
    ⟨List.infix_rfl, rfl, rfl, rfl⟩
  exact ⟨read, events_ofTokens_covered read element (.inr quoting_laidOut)⟩

/-- A quote of one line, in which a block of HTML claims one line more and is marked as hidden. -/
def overhanging : List Token := [
  { type := "blockquote_open", nesting := .opening, lines := some (0, 1) },
  { type := "html_block", lines := some (0, 2), hidden := true, content := ['a', '\n', 'b', '\n'] },
  { type := "blockquote_close", nesting := .closing }]

/-- A block that stands alone has its event although it is hidden. So its lines count: the other tokens are
laid out, and yet the quote does not cover it. -/
theorem overhanging_not_covered :
    let html : Event := { kind := .html, span := .reach 0 4, text := ['a', '\n', 'b', '\n'] }
    Event.ofTokens ['a', '\n', 'b', '\n'] overhanging =
      .ok (quoteOpening 2 :: [html] ++ [quoteClosing 1]) ∧
    LaidOut {} (overhanging.filter (!·.hidden)) ∧
    Element (quoteOpening 2 :: [html] ++ [quoteClosing 1]) (quoteOpening 2) [html] (quoteClosing 1) ∧
    ¬ html.span.Within (quoteOpening 2).start (quoteOpening 2).stop := by
  refine ⟨by cbv, ?_, ⟨List.infix_rfl, rfl, rfl, rfl⟩, ?_⟩
  · exact ⟨fun _ _ => .of_lines rfl (by decide), fun _ opens => absurd rfl opens, trivial⟩
  · simp [Span.Within, quoteOpening, Event.start, Event.stop, Span.reach]

end Emend
