import Mathlib
import Emend.Proofs.Markup.Coverage

/-! Where the opening event of a block stands. A block's lines are clipped at the start of the event emitted
last, and none is ever clipped if the tokens fill their lines: each begins where nothing before it reaches,
and within the block around it. For then no event so far starts past the lines that are done, except inside
a heading, which starts at its marks and has nothing but words in it. -/
namespace Emend

namespace Token

def opensBlock (token : Token) : Bool :=
  match token.nesting with
  | .opening => !token.hidden
  | .closing => false
  | .alone => ["fence", "code_block"].contains token.type

private theorem traced_of_opensBlock {token : Token} (opens : token.opensBlock = true) :
    token.traced = true := by
  unfold opensBlock at opens
  unfold traced
  cases nesting : token.nesting with
  | opening => simpa [nesting] using opens
  | closing => simp [nesting] at opens
  | alone =>
    simp only [nesting, List.contains_eq_mem, List.mem_cons, List.not_mem_nil, decide_eq_true_eq] at opens ⊢
    tauto

def opensHeading (token : Token) : Bool :=
  token.nesting = .opening && TagKind.named token.name = .heading

/-- The token opens a heading that is marked by number signs. -/
def Marked (token : Token) : Prop :=
  token.opensHeading = true ∧ ['#'] <+: token.markup

/-- Where a block starts that has the lines from one offset up to another: at the first copy of its marks
if it is a marked heading and they stand there, and otherwise where its lines do. -/
inductive Begins (source : Text) (token : Token) (top bottom : Nat) : Nat → Prop where
  | mark {start : Nat} (marked : token.Marked) (stands : source.Occurs token.markup top bottom start)
    (first : ∀ place, source.Occurs token.markup top bottom place → start ≤ place) :
    Begins source token top bottom start
  | line (unmarked : token.Marked → ∀ place, ¬ source.Occurs token.markup top bottom place) :
    Begins source token top bottom top

/-- The span covers the token's whole lines, but for what comes before the marks of a heading. -/
def Covers (source : Text) (token : Token) (span : Span) : Prop :=
  ∃ first last, token.lines = some (first, last) ∧
    token.Begins source ((Lines.ofText source).top first) ((Lines.ofText source).top last) span.start ∧
    span.stop = (Lines.ofText source).top last

end Token

def Event.opensBlock (event : Event) : Bool :=
  event.kind = .opening && event.tag.any (·.block)

/-- The lines taken by tokens read so far, and whether the innermost open block is a heading. What is done
when a block opens are the lines before it. -/
structure Outline extends Layout where
  heading : Bool := false

namespace Outline

/-- The layout in which a token is read: a block that opens begins with its first line. -/
def enter (outline : Outline) (token : Token) : Layout :=
  match token.nesting, token.lines with
  | .opening, some (first, _) => { outline.toLayout with done := first }
  | _, _ => outline.toLayout

/-- The outline after a token. Headings hold no blocks, so none is around a block that has been closed. -/
def next (outline : Outline) (token : Token) : Outline :=
  if token.traced then
    { toLayout := (outline.enter token).next token
      heading := if token.nesting = .alone then outline.heading else token.opensHeading }
  else outline

private theorem next_untraced {outline : Outline} {token : Token} (untraced : token.traced = false) :
    outline.next token = outline := by
  rw [next, untraced]
  rfl

end Outline

/-- The token has lines, in order, after all that is done and within the block around it; and in a heading
it holds words. -/
structure Token.Fills (outline : Outline) (token : Token) : Prop where
  lines : ∃ first last, token.lines = some (first, last) ∧ 0 ≤ first ∧ first ≤ last ∧
    outline.done ≤ first ∧ ∀ bound ∈ outline.bound, last ≤ bound
  words : outline.heading = true → token.nesting = .alone ∧ token.type = "inline"

/-- All of these tokens that events come from fill their lines, one after the other. -/
def Outlined : Outline → List Token → Prop
  | _, [] => True
  | outline, token :: rest =>
    (token.traced = true → token.nesting ≠ .closing → token.Fills outline) ∧
      Outlined (outline.next token) rest

/-- Only words stand in a heading. -/
theorem Token.Fills.heading_eq_false {outline : Outline} {token : Token} (fills : token.Fills outline)
    (other : token.nesting = .alone → token.type ≠ "inline") : outline.heading = false := by
  by_contra inside
  obtain ⟨alone, type⟩ := fills.words (by simpa using inside)
  exact other alone type

private theorem Token.Fills.inPlace {outline : Outline} {token : Token} (fills : token.Fills outline) :
    token.InPlace (outline.enter token) := by
  obtain ⟨first, last, lines, forward, ordered, done, inside⟩ := fills.lines
  refine .of_lines lines ⟨forward, ordered, ?_⟩
  unfold Outline.enter
  rw [lines]
  split
  · rename_i begins
    cases begins
    exact ⟨Int.le_refl _, inside⟩
  · exact ⟨done, inside⟩

namespace Inline
variable {window : Window} {pos start : Nat}

namespace Scan
variable {scan after : Scan} {span : Span}

/-- No event that a scan has come to opens a block. -/
structure Blockless (window : Window) (scan : Scan) : Prop where
  within : scan.pos ≤ window.limit
  inline : ∀ event ∈ scan.found, event.opensBlock = false

private theorem blockless_close {held : Held} {earlier inner : List Event}
    (inline : ∀ event ∈ earlier ++ held.opening :: inner, event.opensBlock = false) :
    ∀ event ∈ earlier ++ { held with inner }.close span, event.opensBlock = false := by
  obtain ⟨before, inline⟩ := List.forall_mem_append.mp inline
  obtain ⟨opening, inside⟩ := List.forall_mem_cons.mp inline
  refine List.forall_mem_append.mpr ⟨before, List.forall_mem_cons.mpr ⟨opening, ?_⟩⟩
  exact List.forall_mem_append.mpr ⟨inside, by simp [Event.opensBlock]⟩

private theorem blockless_kept : Kept window (Blockless window) where
  within blockless := blockless.within
  hold {scan span token tag} blockless tagged ahead := by
    refine ⟨ahead.2, ?_⟩
    rw [found_hold]
    exact List.forall_mem_append.mpr ⟨blockless.inline, by simp [Event.opensBlock, Token.tag_block tagged]⟩
  release {scan after span} blockless ahead ran := by
    obtain ⟨held, earlier, -, before, closed, stands⟩ := release_found ran
    have inline := blockless.inline
    rw [before] at inline
    refine ⟨?_, ?_⟩
    · rw [stands]
      exact ahead.2
    · rw [closed]
      exact blockless_close inline
  leaf {scan token event} blockless ahead found := by
    have leaf := Window.leaf?_leaf found
    refine ⟨?_, ?_⟩
    · rw [add_pos]
      exact ahead.2
    · rw [found_add]
      exact List.forall_mem_append.mpr ⟨blockless.inline, by simp [Event.opensBlock, leaf.1]⟩

end Scan

/-- Inline tokens open no block. -/
theorem events_blockless {tokens : List Token} {found : List Event} (opens : start ≤ window.limit)
    (ran : events window start tokens = .ok (found, pos)) :
    ∀ event ∈ found, event.opensBlock = false := by
  obtain ⟨scan, walked, result⟩ := map_eq_ok.mp ran
  cases result
  have begun : Scan.Blockless window { pos := start } := ⟨opens, by simp [Scan.found, Scan.waiting]⟩
  have blockless := Scan.blockless_kept.tokens_hold tokens begun walked
  refine @Scan.closeAll_keeps scan.pos (fun events => ∀ event ∈ events, event.opensBlock = false) scan.held
    scan.done [] (fun held _ earlier inner => Scan.blockless_close) ?_
  rw [List.append_nil]
  exact blockless.inline

end Inline

namespace Block
variable {page : Page} {progress after : Progress} {token : Token} {span : Span} {tag : Tag}
  {outline : Outline} {added : List Event}

/-- The open block ends with its lines. -/
def EndsAt (page : Page) (block : Tag × Span) (last : Option Int) : Prop :=
  last.map page.lines.top = some block.2.stop

/-- No event so far starts past the lines that are done, or past the heading that is open, and every open
block ends with its lines. -/
structure Flush (page : Page) (outline : Outline) (progress : Progress) : Prop where
  sound : Sound page progress
  nested : Nested progress
  fits : Fits page outline.toLayout progress
  ends : List.Forall₂ (EndsAt page) progress.blocks outline.frames
  begun : outline.heading = false → progress.lastStart ≤ page.lines.top outline.done

/-- What a token that is read in an outline leaves: the open blocks end with their lines, nothing starts
past what is done, and the blocks it opens cover its lines. -/
structure Settles (page : Page) (outline : Outline) (token : Token) (progress after : Progress) : Prop where
  ends : List.Forall₂ (EndsAt page) after.blocks (outline.next token).frames
  begun : (outline.next token).heading = false → after.lastStart ≤ page.lines.top (outline.next token).done
  covers : ∃ added, after.events = progress.events ++ added ∧
    List.Forall₂ (fun token event => token.Covers page.source event.span)
      ([token].filter Token.opensBlock) (added.filter Event.opensBlock)

namespace Flush

/-- The lines of a token that is not in a heading are what it covers; none of them is clipped. -/
theorem lineSpan?_eq (flush : Flush page outline progress) (fills : token.Fills outline)
    (outside : outline.heading = false) {found : Option Span}
    (ran : page.lineSpan? progress token = .ok found) : ∃ first last, token.lines = some (first, last) ∧
      page.lines.top first ≤ page.lines.top last ∧
      found = some (.reach (page.lines.top first) (page.lines.top last)) := by
  obtain ⟨first, last, lines, forward, ordered, done, -⟩ := fills.lines
  refine ⟨first, last, lines, flush.sound.top_mono ordered, ?_⟩
  unfold Page.lineSpan? at ran
  rw [lines] at ran
  obtain ⟨top, foundTop, ran⟩ := except_bind_eq_ok.mp ran
  obtain ⟨bottom, foundBottom, ran⟩ := except_bind_eq_ok.mp ran
  cases ran
  have topAt := Lines.startOf_eq_top forward foundTop
  have bottomAt := Lines.startOf_eq_top (Int.le_trans forward ordered) foundBottom
  have before := Nat.le_trans (flush.begun outside) (flush.sound.top_mono done)
  rw [topAt, bottomAt, Nat.max_eq_left before]

private theorem lineSpan_eq (flush : Flush page outline progress) (fills : token.Fills outline)
    (outside : outline.heading = false) (ran : page.lineSpan progress token = .ok span) :
    ∃ first last, token.lines = some (first, last) ∧ page.lines.top first ≤ page.lines.top last ∧
      span = .reach (page.lines.top first) (page.lines.top last) := by
  obtain ⟨found, ranLines, ran⟩ := except_bind_eq_ok.mp ran
  obtain ⟨first, last, lines, rising, rfl⟩ := flush.lineSpan?_eq fills outside ranLines
  cases ran
  exact ⟨first, last, lines, rising, rfl⟩

end Flush

private theorem Settles.flush (settles : Settles page outline token progress after) (sound : Sound page after)
    (nested : Nested after) (fits : Fits page (outline.next token).toLayout after) :
    Flush page (outline.next token) after :=
  ⟨sound, nested, fits, settles.ends, settles.begun⟩

namespace Page

/-- Raising what is done leaves everything in its place. -/
theorem fits_enter (flush : Flush page outline progress) (fills : token.Fills outline) :
    Fits page (outline.enter token) progress := by
  obtain ⟨first, last, lines, -, -, done, -⟩ := fills.lines
  unfold Outline.enter
  rw [lines]
  split
  · rename_i begins
    cases begins
    obtain ⟨stacked, floor, behind, covered⟩ := flush.fits
    have rising := flush.sound.top_mono done
    exact ⟨stacked, floor, by dsimp only; omega, covered⟩
  · exact flush.fits

/-- The span of a heading starts at its marks if they are there. -/
theorem headingSpan_begins {top bottom : Nat} (rising : top ≤ bottom)
    (heading : token.opensHeading = true) :
    token.Begins page.source top bottom (page.headingSpan token.markup (.reach top bottom)).start := by
  have stop : (Span.reach top bottom).stop = bottom := Nat.max_eq_right rising
  unfold headingSpan
  by_cases marked : ['#'].isPrefixOf token.markup = true
  · rw [if_pos marked, stop]
    have signs := List.isPrefixOf_iff_prefix.mp marked
    have substance : token.markup ≠ [] := by
      intro none
      rw [none] at signs
      cases List.prefix_nil.mp signs
    cases hit : page.source.find? token.markup (Span.reach top bottom).start bottom with
    | none => exact .line fun _ place => Text.find_never hit place
    | some mark =>
      obtain ⟨stands, first⟩ := Text.find_first substance hit
      exact .mark ⟨heading, signs⟩ stands first
  · rw [if_neg marked]
    refine .line fun ⟨_, signs⟩ => absurd (List.isPrefixOf_iff_prefix.mpr signs) marked

private theorem openBlock_settles (flush : Flush page outline progress) (fills : token.Fills outline)
    (opening : token.nesting = .opening) (shown : token.hidden = false)
    (ran : page.openBlock progress token = .ok after) : Settles page outline token progress after := by
  have outside : outline.heading = false := fills.heading_eq_false (by simp [opening])
  obtain ⟨tag, tagged, ran⟩ := except_bind_eq_ok.mp ran
  obtain ⟨span, found, ran⟩ := except_bind_eq_ok.mp ran
  cases ran
  obtain ⟨found', ranLines, found⟩ := except_bind_eq_ok.mp found
  obtain ⟨first, last, lines, rising, rfl⟩ := flush.lineSpan?_eq fills outside ranLines
  have traced : token.traced = true := by simp [Token.traced, opening, shown]
  have next : outline.next token = {
      frames := some last :: outline.frames, done := first, heading := token.opensHeading } := by
    simp [Outline.next, Outline.enter, Layout.next, traced, opening, lines, Token.lastLine]
  have kind : tag.kind = .heading ↔ token.opensHeading = true := by
    simp [Token.opensHeading, opening, Token.tag_kind tagged]
  have covers : token.Begins page.source (page.lines.top first) (page.lines.top last) span.start ∧
      span.stop = page.lines.top last ∧
      (token.opensHeading = false → span.start = page.lines.top first) := by
    let lines : Span := .reach (page.lines.top first) (page.lines.top last)
    have stop : lines.stop = page.lines.top last := Nat.max_eq_right rising
    cases found
    split
    · rename_i tagged
      have heading := kind.mp tagged
      obtain ⟨-, same⟩ := headingSpan_bounds page token.markup lines
      exact ⟨headingSpan_begins rising heading, same.trans stop, by simp [heading]⟩
    · rename_i plain
      exact ⟨.line fun marked => absurd (kind.mpr marked.1) plain, stop, fun _ => rfl⟩
  obtain ⟨begins, stop, starts⟩ := covers
  refine ⟨?_, ?_, [openingEvent (tag, span)], rfl, ?_⟩
  · rw [next]
    exact .cons (congrArg some stop.symm) flush.ends
  · rw [next]
    intro plain
    have last : (progress.emit [openingEvent (tag, span)]).lastStart = span.start := lastStart_emit
    exact Nat.le_of_eq (last.trans (starts plain))
  · have opens : token.opensBlock = true := by simp [Token.opensBlock, opening, shown]
    have opened : (openingEvent (tag, span)).opensBlock = true := by
      simp [Event.opensBlock, openingEvent, Token.tag_block tagged]
    rw [List.filter_cons_of_pos opens, List.filter_cons_of_pos opened]
    refine .cons ⟨first, last, lines, ?_⟩ .nil
    rw [← flush.sound.indexed]
    exact ⟨begins, stop⟩

private theorem closeBlock_settles (flush : Flush page outline progress) (closing : token.nesting = .closing)
    (shown : token.hidden = false) (ran : page.closeBlock progress = .ok after) :
    Settles page outline token progress after := by
  unfold closeBlock at ran
  split at ran
  · cases ran
  · rename_i tag span outer innermost
    cases ran
    obtain ⟨⟨frames, done⟩, heading⟩ := outline
    have ends := flush.ends
    rw [innermost] at ends
    cases ends with
    | cons lines ends =>
      rename_i frame frames
      obtain ⟨last, rfl, stop⟩ := Option.map_eq_some_iff.mp lines
      have traced : token.traced = true := by simp [Token.traced, closing, shown]
      have next : Outline.next { frames := some last :: frames, done, heading } token =
          { frames, done := max done last, heading := false } := by
        simp [Outline.next, Outline.enter, Layout.next, Layout.finish, traced, closing, Token.opensHeading]
      have around : page.enclosingEnd progress = span.stop := by
        unfold enclosingEnd
        rw [innermost]
      have floor := flush.fits.floor
      rw [around] at floor
      have trimmed := @trimmedEnd_le page span
      rw [emitClosing_eq]
      refine ⟨?_, ?_, [closingEvent (tag, span) _], rfl, ?_⟩
      · rw [next]
        exact ends
      · rw [next]
        intro _
        have rising := flush.sound.top_mono (Int.le_max_right done last)
        let closing := closingEvent (tag, span) (max (page.trimmedEnd span) progress.floor)
        have starts : (progress.emit [closing]).lastStart = max (page.trimmedEnd span) progress.floor :=
          lastStart_emit
        refine Nat.le_trans (Nat.le_of_eq starts) (Nat.le_trans (Nat.max_le.mpr ⟨trimmed, floor⟩) ?_)
        rw [← stop]
        exact rising
      · have opens : ¬ token.opensBlock = true := by simp [Token.opensBlock, closing]
        rw [List.filter_cons_of_neg opens]
        exact .nil

/-- What a token that stands alone leaves, if none of its events starts past its lines. -/
private theorem stands_settles (flush : Flush page outline progress) (fills : token.Fills outline)
    (alone : token.nesting = .alone) (traced : token.traced = true)
    (blocks : after.blocks = progress.blocks) (events : after.events = progress.events ++ added)
    (starts : outline.heading = false → ∀ last ∈ token.lastLine, ∀ event ∈ added,
      event.start ≤ page.lines.top last)
    (covers : List.Forall₂ (fun token event => token.Covers page.source event.span)
      ([token].filter Token.opensBlock) (added.filter Event.opensBlock)) :
    Settles page outline token progress after := by
  obtain ⟨first, last, lines, -, ordered, done, -⟩ := fills.lines
  have next : outline.next token = { outline with done := max outline.done last } := by
    simp [Outline.next, Outline.enter, Layout.next, Layout.finish, traced, alone, lines, Token.lastLine]
  refine ⟨?_, ?_, added, events, covers⟩
  · rw [next, blocks]
    exact flush.ends
  · rw [next]
    intro outside
    have rising := flush.sound.top_mono (Int.le_max_right outline.done last)
    have before := flush.sound.top_mono (Int.le_max_left outline.done last)
    refine flush.sound.lastStart_append_le events (Nat.le_trans (flush.begun outside) before) ?_
    intro event member
    exact Nat.le_trans (starts outside last (by simp [Token.lastLine, lines]) event member) rising

/-- Inline tokens place their events within their lines, and open no block. -/
private theorem inlineTokens_settles (flush : Flush page outline progress) (fills : token.Fills outline)
    (alone : token.nesting = .alone) (type : token.type = "inline")
    (ran : page.inlineTokens progress token = .ok after) : Settles page outline token progress after := by
  have traced : token.traced = true := by simp [Token.traced, alone, type]
  have opens : ¬ token.opensBlock = true := by simp [Token.opensBlock, alone, type]
  have fits : Fits page (outline.enter token) progress := fits_enter flush fills
  obtain ⟨region, found, ran⟩ := except_bind_eq_ok.mp ran
  obtain ⟨⟨events, pos⟩, scanned, ran⟩ := except_bind_eq_ok.mp ran
  cases ran
  have blockless := Inline.events_blockless (Nat.le_max_left ..) scanned
  have none : events.filter Event.opensBlock = [] := by
    simpa using blockless
  refine stands_settles flush fills alone traced rfl rfl ?_ ?_
  -- Words in a heading may start anywhere up to its end, but then no block comes before that end.
  · intro outside last known event member
    obtain ⟨first, last', lines, rising, rfl⟩ := flush.lineSpan?_eq fills outside found
    cases (show some last' = some last by simpa [Token.lastLine, lines] using known)
    obtain ⟨placed, -⟩ := fits.lineSpan?_placed flush.sound fills.inPlace found
    have ahead : progress.floor ≤ page.lines.top first := placed.ahead
    obtain ⟨-, -, inOrder⟩ := Inline.events_ordered (Nat.le_max_left ..) scanned
    have ends := inOrder.ends event member
    have ordered : event.start ≤ event.stop := event.span.ordered
    simp only [Option.map_some, Option.getD_some, Span.reach] at ends
    omega
  · rw [List.filter_cons_of_neg opens, none]
    exact .nil

/-- A code block is a block of its own. -/
private theorem codeBlock_settles (flush : Flush page outline progress) (fills : token.Fills outline)
    (alone : token.nesting = .alone) (type : token.type = "fence" ∨ token.type = "code_block")
    (ran : page.codeBlock progress token = .ok after) : Settles page outline token progress after := by
  have outside : outline.heading = false :=
    fills.heading_eq_false fun _ => by rcases type with type | type <;> simp [type]
  have traced : token.traced = true := by
    rcases type with type | type <;> simp [Token.traced, alone, type]
  have opens : token.opensBlock = true := by
    rcases type with type | type <;> simp [Token.opensBlock, alone, type]
  have plain : token.opensHeading = false := by simp [Token.opensHeading, alone]
  have fits : Fits page (outline.enter token) progress := fits_enter flush fills
  obtain ⟨span, inner, stop, found, leaves, within, rfl⟩ :=
    codeBlock_within fits flush.sound fills.inPlace ran
  obtain ⟨first, last, lines, rising, rfl⟩ := flush.lineSpan_eq fills outside found
  let span : Span := .reach (page.lines.top first) (page.lines.top last)
  have ends : span.stop = page.lines.top last := Nat.max_eq_right rising
  rw [ends] at within
  refine stands_settles flush fills alone traced rfl rfl ?_ ?_
  · intro _ last' known event member
    cases (show some last = some last' by simpa [Token.lastLine, lines] using known)
    rcases List.mem_cons.mp member with rfl | member
    · exact rising
    · exact Nat.le_trans event.span.ordered (within event member)
  · have opened : (openingEvent (codeTag token, span)).opensBlock = true := rfl
    have none : (inner ++ [closingEvent (codeTag token, span) stop]).filter Event.opensBlock = [] := by
      rw [List.filter_eq_nil_iff]
      refine List.forall_mem_append.mpr ⟨?_, by simp [Event.opensBlock, closingEvent]⟩
      intro event member
      simp [Event.opensBlock, (leaves event member).1]
    rw [List.cons_append, List.filter_cons_of_pos opens, List.filter_cons_of_pos opened, none]
    refine .cons ⟨first, last, lines, ?_⟩ .nil
    rw [← flush.sound.indexed]
    exact ⟨.line fun marked => by simp [marked.1] at plain, ends⟩

/-- A rule and a block of HTML are one event each, which starts where their lines do. -/
private theorem leaf_settles (flush : Flush page outline progress) (fills : token.Fills outline)
    (alone : token.nesting = .alone) (type : token.type = "hr" ∨ token.type = "html_block")
    (found : page.lineSpan progress token = .ok span) {event : Event} (leaf : event.Leaf)
    (starts : event.start = span.start) : Settles page outline token progress (progress.emit [event]) := by
  have outside : outline.heading = false :=
    fills.heading_eq_false fun _ => by rcases type with type | type <;> simp [type]
  have traced : token.traced = true := by
    rcases type with type | type <;> simp [Token.traced, alone, type]
  have opens : ¬ token.opensBlock = true := by
    rcases type with type | type <;> simp [Token.opensBlock, alone, type]
  obtain ⟨first, last, lines, rising, rfl⟩ := flush.lineSpan_eq fills outside found
  refine stands_settles flush fills alone traced rfl rfl ?_ ?_
  · intro _ last' known other member
    cases (show some last = some last' by simpa [Token.lastLine, lines] using known)
    cases List.mem_singleton.mp member
    rw [starts]
    exact rising
  · have none : [event].filter Event.opensBlock = [] := by simp [Event.opensBlock, leaf.1]
    rw [List.filter_cons_of_neg opens, none]
    exact .nil

/-- A token that no events come from leaves everything as it is. -/
private theorem untraced_settles (flush : Flush page outline progress) (untraced : token.traced = false) :
    Settles page outline token progress progress := by
  have opens : ¬ token.opensBlock = true := by
    intro opens
    rw [Token.traced_of_opensBlock opens] at untraced
    cases untraced
  have same : outline.next token = outline := Outline.next_untraced untraced
  refine ⟨?_, ?_, [], (List.append_nil _).symm, ?_⟩
  · rw [same]
    exact flush.ends
  · rw [same]
    exact flush.begun
  · rw [List.filter_cons_of_neg opens]
    exact .nil

/-- Every token that fills its lines leaves things so, and covers them. -/
theorem token_settles (flush : Flush page outline progress)
    (fills : token.traced = true → token.nesting ≠ .closing → token.Fills outline)
    (ran : page.token progress token = .ok after) : Settles page outline token progress after := by
  cases traced : token.traced with
  | false =>
    rw [token_untraced traced ran]
    exact untraced_settles flush traced
  | true =>
    cases token_reads ran with
    | untraced untraced =>
      rw [traced] at untraced
      cases untraced
    | opens opening shown ran =>
      exact openBlock_settles flush (fills traced (by simp [opening])) opening shown ran
    | closes closing shown ran => exact closeBlock_settles flush closing shown ran
    | inline alone type ran =>
      exact inlineTokens_settles flush (fills traced (by simp [alone])) alone type ran
    | code alone type ran => exact codeBlock_settles flush (fills traced (by simp [alone])) alone type ran
    | leaf alone type found leaf starts ends =>
      exact leaf_settles flush (fills traced (by simp [alone])) alone type found leaf starts

theorem token_flush (flush : Flush page outline progress)
    (fills : token.traced = true → token.nesting ≠ .closing → token.Fills outline)
    (ran : page.token progress token = .ok after) : Flush page (outline.next token) after := by
  have settles := token_settles flush fills ran
  refine settles.flush (token_sound flush.sound ran) (token_nested flush.nested ran) ?_
  cases traced : token.traced with
  | false =>
    have fits := token_fits flush.fits flush.sound flush.nested (by simp [traced]) ran
    have same : outline.next token = outline := Outline.next_untraced traced
    rw [same]
    rwa [Layout.next_untraced traced] at fits
  | true =>
    have next : (outline.next token).toLayout = (outline.enter token).next token := by
      rw [Outline.next, if_pos traced]
    rw [next]
    -- A block that opens is read in a layout where more is done than before, up to its first line.
    by_cases closing : token.nesting = .closing
    · have same : outline.enter token = outline.toLayout := by
        unfold Outline.enter
        rw [closing]
      rw [same]
      exact token_fits flush.fits flush.sound flush.nested (fun _ shown => absurd closing shown) ran
    · have filled := fills traced closing
      exact token_fits (fits_enter flush filled) flush.sound flush.nested (fun _ _ => filled.inPlace) ran

theorem tokens_cover {tokens : List Token} (flush : Flush page outline progress)
    (outlined : Outlined outline tokens) (ran : page.tokens progress tokens = .ok after) : ∃ added,
    after.events = progress.events ++ added ∧
    List.Forall₂ (fun token event => token.Covers page.source event.span)
      (tokens.filter Token.opensBlock) (added.filter Event.opensBlock) := by
  induction tokens generalizing outline progress with
  | nil =>
    cases ran
    exact ⟨[], (List.append_nil _).symm, .nil⟩
  | cons head rest ih =>
    unfold Page.tokens at ran
    split at ran
    · rename_i next read
      obtain ⟨fills, later⟩ := outlined
      obtain ⟨first, firstEvents, firstCover⟩ := (token_settles flush fills read).covers
      obtain ⟨more, moreEvents, moreCover⟩ := ih (token_flush flush fills read) later ran
      refine ⟨first ++ more, by rw [moreEvents, firstEvents, List.append_assoc], ?_⟩
      rw [← List.singleton_append, List.filter_append, List.filter_append]
      exact List.rel_append firstCover moreCover
    · cases ran

end Page

end Block

/-- Every opening event of a block covers the whole lines of the token it comes from, when the tokens fill
their lines one after the other: none is moved or cut by what comes before it. -/
theorem block_openings_cover {source : Text} {tokens : List Token} {events : List Event}
    (outlined : Outlined {} tokens) (read : Event.ofTokens source tokens = .ok events) :
    List.Forall₂ (fun token event => token.Covers source event.span)
      (tokens.filter Token.opensBlock) (events.filter Event.opensBlock) := by
  obtain ⟨progress, ran, rfl⟩ := map_eq_ok.mp read
  have sound : Block.Sound { source, lines := .ofText source } {} :=
    ⟨rfl, .nil, by simp, by simp, Nat.zero_le _⟩
  have fits : Block.Fits { source, lines := .ofText source } {} {} :=
    ⟨.nil, Nat.zero_le _, Nat.zero_le _, trivial⟩
  have flush : Block.Flush { source, lines := .ofText source } {} {} :=
    ⟨sound, ⟨rfl, by simp, trivial⟩, fits, .nil, fun _ => Nat.zero_le _⟩
  obtain ⟨added, same, covers⟩ := Block.Page.tokens_cover flush outlined ran
  rw [same]
  exact covers

/-- A quote of a marked heading, and a fence that claims lines past the end of the source. -/
def quotedHeading : List Token := [
  { type := "blockquote_open", nesting := .opening, lines := some (0, 1) },
  { type := "heading_open", element := ['h', '1'], nesting := .opening, lines := some (0, 1),
    markup := ['#'] },
  { type := "inline", lines := some (0, 1), children := [{ type := "text", content := ['a'] }] },
  { type := "heading_close", element := ['h', '1'], nesting := .closing },
  { type := "blockquote_close", nesting := .closing },
  { type := "fence", lines := some (1, 9), markup := ['~'], content := ['b', '\n'] }]

private theorem quotedHeading_outlined : Outlined {} quotedHeading := by
  have quote : Token.Fills {} quotedHeading[0] := ⟨⟨0, 1, rfl, by decide⟩, nofun⟩
  have heading : Token.Fills { frames := [some 1] } quotedHeading[1] := ⟨⟨0, 1, rfl, by decide⟩, nofun⟩
  have words : Token.Fills { frames := [some 1, some 1], heading := true } quotedHeading[2] :=
    ⟨⟨0, 1, rfl, by decide⟩, fun _ => ⟨rfl, rfl⟩⟩
  have code : Token.Fills { done := 1 } quotedHeading[5] := ⟨⟨1, 9, rfl, by decide⟩, nofun⟩
  have closing (outline : Outline) (token : Token) (closes : token.nesting = .closing) :
      token.traced = true → token.nesting ≠ .closing → token.Fills outline :=
    fun _ opens => absurd closes opens
  exact ⟨fun _ _ => quote, fun _ _ => heading, fun _ _ => words, closing _ _ rfl, closing _ _ rfl,
    fun _ _ => code, trivial⟩

/-- The heading starts at its mark, the quote around it where the line does. -/
theorem quotedHeading_openings_cover : ∃ events,
    Event.ofTokens ['>', ' ', '#', 'a', '\n', '~', '\n', 'b', '\n'] quotedHeading = .ok events ∧
    (events.filter Event.opensBlock).map (fun event => (event.start, event.stop)) =
      [(0, 5), (2, 5), (5, 9)] ∧
    List.Forall₂
      (fun token event => token.Covers ['>', ' ', '#', 'a', '\n', '~', '\n', 'b', '\n'] event.span)
      (quotedHeading.filter Token.opensBlock) (events.filter Event.opensBlock) := by
  have spans : (Event.ofTokens ['>', ' ', '#', 'a', '\n', '~', '\n', 'b', '\n'] quotedHeading).map
      (fun events => (events.filter Event.opensBlock).map fun event => (event.start, event.stop)) =
      .ok [(0, 5), (2, 5), (5, 9)] := by
    cbv
  obtain ⟨events, read, spans⟩ := map_eq_ok.mp spans
  exact ⟨events, read, spans, block_openings_cover quotedHeading_outlined read⟩

/-- Words without lines that are marked as hidden, and a paragraph of the line before them. -/
def outrunning : List Token := [
  { type := "inline", hidden := true, children := [{ type := "text", content := ['b'] }] },
  { type := "paragraph_open", nesting := .opening, lines := some (0, 1) },
  { type := "paragraph_close", nesting := .closing }]

/-- Words have their events although they are hidden. So their lines count: the other tokens fill theirs,
and yet the paragraph's opening event is moved to its end. -/
theorem outrunning_opening_moved :
    let paragraph : Tag := { kind := .paragraph, name := "paragraph" }
    let opening : Event := { kind := .opening, span := .reach 2 2, tag := some paragraph }
    Event.ofTokens ['a', '\n', 'b', '\n'] outrunning = .ok [
      { kind := .text, span := .reach 2 3, text := ['b'] },
      opening, { kind := .closing, span := .point 3, tag := some paragraph }] ∧
    Outlined {} (outrunning.filter (!·.hidden)) ∧
    ¬ outrunning[1].Covers ['a', '\n', 'b', '\n'] opening.span := by
  refine ⟨by cbv, ?_, ?_⟩
  · have paragraph : Token.Fills {} outrunning[1] :=
      ⟨⟨0, 1, rfl, by decide⟩, fun inside => absurd inside (by decide)⟩
    exact ⟨fun _ _ => paragraph, fun _ opens => absurd rfl opens, trivial⟩
  · have top : (Lines.ofText ['a', '\n', 'b', '\n']).top 0 = 0 := rfl
    rintro ⟨first, last, lines, begins, -⟩
    cases lines
    rw [top] at begins
    cases begins with
    | mark marked stands first => exact absurd marked.1 (by decide)

end Emend
