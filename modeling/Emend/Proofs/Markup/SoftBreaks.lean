import Mathlib
import Emend.Proofs.Markup.Leaves
import Emend.Proofs.Markup.Rendering

/-! Where the lines of a paragraph are found. A line ends with a line feed, with a carriage return or with
both, but the break between two lines is looked for by its line feed. As long as there is one in each break
every text is found in its place. A carriage return alone is never found: the scan goes on behind the line
feed of a later break, or finds none and stays. -/
namespace Emend

inductive LineBreak where
  | lf
  | crlf
  | cr
deriving DecidableEq

def LineBreak.text : LineBreak → Text
  | lf => ['\n']
  | crlf => ['\r', '\n']
  | cr => ['\r']

/-- A line with its break. The text is not empty and holds no break of its own. -/
structure BrokenLine where
  text : Text
  ending : LineBreak
  substance : text ≠ []
  unbroken : ∀ c ∈ text, Block.isLineEnd c = false

namespace BrokenLine
variable {lines first second : List BrokenLine} {line : BrokenLine} {source : Text} {start : Nat}

def render (line : BrokenLine) : Text :=
  line.text ++ line.ending.text

def join (lines : List BrokenLine) : Text :=
  lines.flatMap render

/-- The line does not end with a carriage return alone. -/
def feeds (line : BrokenLine) : Bool :=
  line.ending ≠ .cr

/-- Each line with the offset at which it stands. -/
def laid : Nat → List BrokenLine → List (Nat × BrokenLine)
  | _, [] => []
  | start, line :: rest => (start, line) :: laid (start + line.render.length) rest

def textSpan (place : Nat × BrokenLine) : Span :=
  .reach place.1 (place.1 + place.2.text.length)

def textPlace (place : Nat × BrokenLine) : Text × Span :=
  (place.2.text, textSpan place)

def breakSpan (place : Nat × BrokenLine) : Span :=
  .reach (place.1 + place.2.text.length) (place.1 + place.2.render.length)

/-- Where the last character of a line is. -/
def feedSpan (place : Nat × BrokenLine) : Span :=
  .reach (place.1 + place.2.render.length - 1) (place.1 + place.2.render.length)

/-- The events of a line and its break in their places. -/
def placed (place : Nat × BrokenLine) : List Event :=
  [{ kind := .text, span := textSpan place, text := place.2.text },
    { kind := .softBreak, span := feedSpan place }]

private theorem join_append : join (first ++ second) = join first ++ join second :=
  List.flatMap_append ..

private theorem laid_length : (laid start lines).length = lines.length := by
  induction lines generalizing start with
  | nil => rfl
  | cons line rest ih => simp [laid, ih]

private theorem laid_append :
    laid start (first ++ second) = laid start first ++ laid (start + (join first).length) second := by
  induction first generalizing start with
  | nil => rfl
  | cons line rest ih => simp [laid, ih, join, Nat.add_assoc]

/-- Where the lines stand, texts and breaks read as they are. -/
theorem laid_text (stands : join lines <+: source.drop start) : ∀ place ∈ laid start lines,
    (textSpan place).text source = place.2.text ∧
    (breakSpan place).text source = place.2.ending.text := by
  induction lines generalizing start with
  | nil => simp [laid]
  | cons line rest ih =>
    obtain ⟨after, whole⟩ := stands
    have split : source.drop start = line.text ++ (line.ending.text ++ (join rest ++ after)) := by
      rw [← whole]
      simp [join, render]
    have behind : source.drop (start + line.render.length) = join rest ++ after := by
      rw [← List.drop_drop, split, render, ← List.append_assoc, List.drop_left]
    refine List.forall_mem_cons.mpr ⟨⟨?_, ?_⟩, ih (behind ▸ List.prefix_append ..)⟩
    · simp [textSpan, Span.text, Span.reach, Text.slice, split]
    · have parts : line.render.length = line.text.length + line.ending.text.length := List.length_append
      have length : start + line.render.length - (start + line.text.length) = line.ending.text.length := by
        omega
      have ends : max (start + line.text.length) (start + line.render.length) =
          start + line.render.length := by omega
      simp [breakSpan, Span.text, Span.reach, Text.slice, split, ← List.drop_drop, ends, length]

end BrokenLine

open BrokenLine

namespace Lines
variable {text rest : Text} {offset : Nat} {lines : List BrokenLine}

/-- The next line starts behind the break of the line before it. -/
theorem breaks_line (unbroken : ∀ c ∈ text, Block.isLineEnd c = false) (ending : LineBreak)
    (apart : rest.head? ≠ some '\n') :
    let next := offset + (text ++ ending.text).length
    breaks (text ++ ending.text ++ rest) offset = next :: breaks rest next := by
  induction text generalizing offset with
  | nil =>
    cases ending with
    | lf => simp [LineBreak.text, breaks]
    | crlf => simp [LineBreak.text, breaks]
    | cr =>
      cases rest with
      | nil => simp [LineBreak.text, breaks]
      | cons c rest =>
        have other : c ≠ '\n' := by simpa using apart
        simp [LineBreak.text, breaks, other]
  | cons c text ih =>
    obtain ⟨plain, later⟩ := List.forall_mem_cons.mp unbroken
    simp only [Block.isLineEnd, Bool.or_eq_false_iff, beq_eq_false_iff_ne, ne_eq] at plain
    have length : offset + (c :: text ++ ending.text).length = offset + 1 + (text ++ ending.text).length := by
      rw [List.cons_append, List.length_cons]
      omega
    rw [length, List.cons_append, List.cons_append, breaks, if_neg (by simp [plain])]
    · exact ih later
    · rintro rest same
      exact absurd same plain.1

private theorem head_join : (join lines).head? ≠ some '\n' := by
  cases lines with
  | nil => simp [join]
  | cons line rest =>
    obtain ⟨c, text, shape⟩ := List.exists_cons_of_ne_nil line.substance
    have plain := line.unbroken c (shape ▸ List.mem_cons_self)
    rintro same
    simp [join, render, shape] at same
    simp [same, Block.isLineEnd] at plain

/-- Behind so many lines the text is at its end. -/
theorem breaks_join : (offset :: breaks (join lines) offset)[lines.length]? =
    some (offset + (join lines).length) := by
  induction lines generalizing offset with
  | nil => rfl
  | cons line rest ih =>
    have next : breaks (line.text ++ line.ending.text ++ join rest) offset = _ :=
      breaks_line line.unbroken line.ending head_join
    have whole : join (line :: rest) = line.text ++ line.ending.text ++ join rest := rfl
    have length : offset + (line.text ++ line.ending.text ++ join rest).length =
        offset + (line.text ++ line.ending.text).length + (join rest).length := by
      rw [List.length_append, Nat.add_assoc]
    rw [whole, next, length, List.length_cons, List.getElem?_cons_succ, ih]

private theorem startOf_join :
    (Lines.ofText (join lines)).startOf lines.length = .ok (join lines).length := by
  have ends := @breaks_join 0 lines
  rw [startOf_top (Int.natCast_nonneg _), top, Int.toNat_natCast, ofText, ends, Option.getD_some,
    Nat.zero_add]

end Lines

/-- The tokens report these lines: their texts, and soft breaks between them. -/
inductive BrokenLine.ToldBy : List BrokenLine → List Token → Prop where
  | last {line : BrokenLine} {token : Token}
    (told : (Inline.Leaf.text line.text line.substance).ToldBy token) : ToldBy [line] [token]
  | more {line next : BrokenLine} {rest : List BrokenLine} {token feed : Token} {tokens : List Token}
    (told : (Inline.Leaf.text line.text line.substance).ToldBy token)
    (feeds : Inline.Leaf.softBreak.ToldBy feed) (later : ToldBy (next :: rest) tokens) :
    ToldBy (line :: next :: rest) (token :: feed :: tokens)

def softBreaks (events : List Event) : List Span :=
  (events.filter (·.kind == .softBreak)).map (·.span)

private theorem softBreaks_append (events others : List Event) :
    softBreaks (events ++ others) = softBreaks events ++ softBreaks others := by
  simp [softBreaks]

/-- The span covers something of what another one covers, and nothing else. -/
structure Span.Inside (span outer : Span) : Prop where
  substance : span.start < span.stop
  within : span.Within outer.start outer.stop

/-- Each text is where its line's text is, and each soft break within the break of its line. -/
structure Followed (texts : List (Text × Span)) (breaks : List Span) (places : List (Nat × BrokenLine)) :
    Prop where
  texts : texts = places.map textPlace
  breaks : List.Forall₂ (fun place span => span.Inside (breakSpan place)) places.dropLast breaks

namespace Inline
variable {window : Window} {pos : Nat} {lines front back rest : List BrokenLine} {line next : BrokenLine}
  {tokens : List Token}

namespace Window

/-- The events of lines that are looked for one after the other, text and break in turn. -/
def flow (window : Window) : Nat → List BrokenLine → List Event
  | _, [] => []
  | pos, [line] => [{ kind := .text, span := window.locate line.text pos, text := line.text }]
  | pos, line :: next :: rest =>
    let text := window.locate line.text pos
    let feed := window.locate ['\n'] text.stop
    { kind := .text, span := text, text := line.text } :: { kind := .softBreak, span := feed } ::
      window.flow feed.stop (next :: rest)

private theorem leaf?_line {token : Token} (told : (Leaf.text line.text line.substance).ToldBy token) :
    token.type ≠ "image" ∧ window.leaf? token pos =
      some { kind := .text, span := window.locate line.text pos, text := line.text } := by
  obtain ⟨type, content⟩ := told.reports
  simp [leaf?, type, content, line.substance]

/-- A line feed is found at the end of its break. -/
theorem locate_feed (feeds : line.feeds = true) (reads : window.Reads pos line.ending.text) :
    window.locate ['\n'] pos =
      .reach (pos + line.ending.text.length - 1) (pos + line.ending.text.length) := by
  cases ending : line.ending with
  | lf =>
    rw [ending] at reads
    exact locate_here reads
  | crlf =>
    rw [ending] at reads
    obtain ⟨rest, whole⟩ := reads
    refine locate_found (by simp) ?_
    rw [← whole, LineBreak.text, List.cons_append, Text.seek_past (by decide)]
    exact Text.seek_here ['\n'] rest _
  | cr => simp [BrokenLine.feeds, ending] at feeds

/-- Nothing is found in a break that is a carriage return alone. -/
theorem locate_return (reads : window.Reads pos ['\r']) :
    ¬ (window.locate ['\n'] pos).Inside (.reach pos (pos + 1)) := by
  rintro ⟨substance, begins, ends⟩
  have stop : (Span.reach pos (pos + 1)).stop = pos + 1 := Nat.max_eq_right (Nat.le_succ pos)
  have start : (Span.reach pos (pos + 1)).start = pos := rfl
  rw [stop] at ends
  rw [start] at begins
  rcases @locate_text window ['\n'] pos with empty | found
  · rw [Span.isEmpty, beq_iff_eq] at empty
    omega
  · have first : (window.locate ['\n'] pos).start = pos := by omega
    have last : (window.locate ['\n'] pos).stop = pos + 1 := by omega
    have none : (Span.reach pos (pos + 1)).text window.source = ['\r'] := reads.text_eq
    rw [Span.text, start, stop] at none
    rw [Span.text, first, last, none] at found
    cases found

/-- Where lines stand that all feed, the line after them is looked for behind them. -/
theorem flow_append (feeding : ∀ line ∈ front, line.feeds = true) (reads : window.Reads pos (join front)) :
    window.flow pos (front ++ line :: back) =
      (laid pos front).flatMap placed ++ window.flow (pos + (join front).length) (line :: back) := by
  induction front generalizing pos with
  | nil => rfl
  | cons first rest ih =>
    obtain ⟨feeds, feeding⟩ := List.forall_mem_cons.mp feeding
    have split : window.Reads pos (first.text ++ first.ending.text ++ join rest) := reads
    have parts : first.render.length = first.text.length + first.ending.text.length := List.length_append
    have text : window.locate first.text pos = textSpan (pos, first) :=
      locate_here split.of_append_left.of_append_left
    have textStop : (textSpan (pos, first)).stop = pos + first.text.length :=
      Nat.max_eq_right (Nat.le_add_right ..)
    have feed : window.locate ['\n'] (pos + first.text.length) = feedSpan (pos, first) := by
      rw [locate_feed feeds split.of_append_left.of_append_right, feedSpan, parts, ← Nat.add_assoc]
    have feedStop : (feedSpan (pos, first)).stop = pos + first.render.length :=
      Nat.max_eq_right (Nat.sub_le ..)
    have goes : window.flow pos (first :: (rest ++ line :: back)) =
        placed (pos, first) ++ window.flow (pos + first.render.length) (rest ++ line :: back) := by
      obtain ⟨next, later, shape⟩ : ∃ next later, rest ++ line :: back = next :: later := by
        cases rest <;> exact ⟨_, _, rfl⟩
      rw [shape, flow, text, textStop, feed, feedStop]
      rfl
    have length : pos + (join (first :: rest)).length = pos + first.render.length + (join rest).length := by
      rw [join, List.flatMap_cons, List.length_append, Nat.add_assoc]
      rfl
    have behind : window.Reads (pos + first.render.length) (join rest) := split.of_append_right
    rw [List.cons_append, goes, ih feeding behind, laid, List.flatMap_cons, List.append_assoc, length]

/-- Of the line that comes first the text is in its place. If a line follows, its break is looked for. -/
theorem flow_cons (reads : window.Reads pos line.text) : ∃ later,
    window.flow pos (line :: back) =
      { kind := .text, span := textSpan (pos, line), text := line.text } :: later ∧
    (back = [] → later = []) ∧
    (back ≠ [] → ∃ others,
      later = { kind := .softBreak, span := window.locate ['\n'] (pos + line.text.length) } :: others) := by
  have text : window.locate line.text pos = textSpan (pos, line) := locate_here reads
  have stop : (textSpan (pos, line)).stop = pos + line.text.length := Nat.max_eq_right (Nat.le_add_right ..)
  cases back with
  | nil => exact ⟨[], by rw [flow, text], fun _ => rfl, absurd rfl⟩
  | cons next rest =>
    refine ⟨_, by rw [flow, text], nofun, fun _ => ⟨_, by rw [stop]⟩⟩

end Window

namespace Scan
variable {done : List Event}

theorem tokens_flow (told : BrokenLine.ToldBy lines tokens) : ∃ stop,
    Scan.tokens window { pos, done } tokens = .ok { pos := stop, done := done ++ window.flow pos lines } := by
  induction told generalizing pos done with
  | @last line token told =>
    obtain ⟨notImage, found⟩ := @Window.leaf?_line window pos line token told
    refine ⟨(window.locate line.text pos).stop, ?_⟩
    rw [Scan.tokens, token_eq, told.nesting]
    simp only [notImage, ↓reduceIte, found, add, Scan.tokens]
    rfl
  | @more line next rest token feed tokens told feeds later ih =>
    obtain ⟨notImage, found⟩ := @Window.leaf?_line window pos line token told
    have type : feed.type = "softbreak" := feeds.reports
    let text := window.locate line.text pos
    let span := window.locate ['\n'] text.stop
    have missing : window.leaf? feed text.stop = some { kind := .softBreak, span } := by
      simp [Window.leaf?, type, span]
    have first : Scan.token window { pos, done } token = .ok {
        pos := text.stop, done := done ++ [{ kind := .text, span := text, text := line.text }] } := by
      rw [token_eq, told.nesting]
      simp only [notImage, ↓reduceIte, found, add]
      rfl
    have second (done : List Event) : Scan.token window { pos := text.stop, done } feed =
        .ok { pos := span.stop, done := done ++ [{ kind := .softBreak, span }] } := by
      rw [token_eq, feeds.nesting]
      simp only [type, String.reduceEq, ↓reduceIte, missing, add]
      rfl
    obtain ⟨stop, goes⟩ := @ih span.stop
      (done ++ [{ kind := .text, span := text, text := line.text }] ++ [{ kind := .softBreak, span }])
    refine ⟨stop, ?_⟩
    simp only [Scan.tokens, first, second, goes]
    simp only [Window.flow, text, span, List.append_assoc, List.cons_append, List.nil_append]

end Scan
end Inline

section
variable {places : List (Nat × BrokenLine)} {place : Nat × BrokenLine}

private theorem textPlaces_placed : textPlaces (places.flatMap placed) = places.map textPlace := by
  induction places with
  | nil => rfl
  | cons place rest ih =>
    rw [List.flatMap_cons, textPlaces_append, ih]
    rfl

private theorem softBreaks_placed : softBreaks (places.flatMap placed) = places.map feedSpan := by
  induction places with
  | nil => rfl
  | cons place rest ih =>
    rw [List.flatMap_cons, softBreaks_append, ih]
    rfl

/-- Around the events of a block there is neither a text nor a soft break. -/
theorem textPlaces_block {block : Tag × Span} {events : List Event} {stop : Nat} :
    textPlaces (Block.openingEvent block :: events ++ [Block.closingEvent block stop]) = textPlaces events := by
  rw [textPlaces_append]
  exact List.append_nil _

private theorem softBreaks_block {block : Tag × Span} {events : List Event} {stop : Nat} :
    softBreaks (Block.openingEvent block :: events ++ [Block.closingEvent block stop]) = softBreaks events := by
  rw [softBreaks_append]
  exact List.append_nil _

/-- The last character of a break is in it. -/
theorem feedSpan_inside : (feedSpan place).Inside (breakSpan place) := by
  obtain ⟨start, line⟩ := place
  have parts : line.render.length = line.text.length + line.ending.text.length := List.length_append
  have filled : 0 < line.ending.text.length := by
    cases line.ending <;> simp [LineBreak.text]
  refine ⟨?_, ?_, ?_⟩ <;> simp only [feedSpan, breakSpan, Span.reach] <;> omega

private theorem feeds_inside : List.Forall₂ (fun place span => span.Inside (breakSpan place)) places
    (places.map feedSpan) := by
  rw [List.forall₂_map_right_iff]
  exact List.forall₂_same.mpr fun place _ => feedSpan_inside

end

/-- The tokens report a paragraph of these lines, from the first line of the source on. -/
structure ParagraphOf (lines : List BrokenLine) (opening inline closing : Token) : Prop where
  opens : opening.OpensBlock
  type : opening.type = "paragraph_open"
  reach : opening.lines = some (0, (lines.length : Int))
  inlineType : inline.type = "inline"
  alone : inline.nesting = .alone
  inlineReach : inline.lines = some (0, (lines.length : Int))
  told : BrokenLine.ToldBy lines inline.children
  closes : closing.ClosesBlock

namespace BrokenLine

def page (lines : List BrokenLine) : Block.Page :=
  { source := join lines, lines := .ofText (join lines) }

/-- All of these lines as what a scan looks at. -/
def window (lines : List BrokenLine) : Inline.Window :=
  { source := join lines, limit := (join lines).length }

def paragraph (lines : List BrokenLine) : Tag × Span :=
  ({ kind := .paragraph, name := "paragraph" }, .reach 0 (join lines).length)

/-- The progress when the paragraph has been opened. -/
def begun (lines : List BrokenLine) : Block.Progress :=
  { events := [Block.openingEvent (paragraph lines)], blocks := [paragraph lines] }

end BrokenLine

namespace ParagraphOf
variable {lines : List BrokenLine} {opening inline closing : Token}

private theorem token_opening (told : ParagraphOf lines opening inline closing) :
    (page lines).token {} opening = .ok (begun lines) := by
  have opens : opening.OpensParagraph (page lines) 0 (join lines).length := by
    refine ⟨told.opens, told.type, ?_⟩
    rw [told.reach]
    exact ⟨Lines.startOf_top (Int.le_refl 0), Lines.startOf_join⟩
  exact Block.Page.token_opens_paragraph opens

/-- The lines are looked for one after the other, up to the end of the source. -/
theorem token_inline (told : ParagraphOf lines opening inline closing) : ∃ consumed,
    (page lines).token (begun lines) inline = .ok { begun lines with
      events := (begun lines).events ++ (window lines).flow 0 lines, consumed } := by
  obtain ⟨pos, scanned⟩ := @Inline.Scan.tokens_flow (window lines) 0 lines inline.children [] told.told
  have found : Inline.events (window lines) 0 inline.children = .ok ((window lines).flow 0 lines, pos) := by
    rw [Inline.events, scanned]
    simp [Except.map, Inline.Scan.finish, Inline.Scan.closeAll]
  have top : (page lines).lines.startOf 0 = .ok 0 := Lines.startOf_top (Int.le_refl 0)
  have bottom : (page lines).lines.startOf lines.length = .ok (join lines).length := Lines.startOf_join
  have region : (page lines).lineSpan? (begun lines) inline = .ok (some (.reach 0 (join lines).length)) := by
    simp only [Block.Page.lineSpan?, told.inlineReach, top, bottom, bind, Except.bind]
    rfl
  have limit : max 0 (Span.reach 0 (join lines).length).stop = (join lines).length := by
    simp [Span.reach]
  have start : max (Span.reach 0 (join lines).length).start (begun lines).floor = 0 := rfl
  have same : { source := (page lines).source, limit := (join lines).length } = window lines := rfl
  refine ⟨max 0 pos, ?_⟩
  rw [Block.Page.token, told.alone]
  simp only [told.inlineType, Block.Page.inlineTokens, region, bind, Except.bind, Option.map_some,
    Option.getD_some, start, limit, same, found]
  rfl

/-- Between the events of the paragraph are those of its lines. -/
theorem events_eq (told : ParagraphOf lines opening inline closing) : ∃ stop,
    Event.ofTokens (join lines) [opening, inline, closing] =
      .ok (Block.openingEvent (paragraph lines) :: (window lines).flow 0 lines ++
        [Block.closingEvent (paragraph lines) stop]) := by
  obtain ⟨consumed, filled⟩ := told.token_inline
  let left : Block.Progress :=
    { events := (begun lines).events ++ (window lines).flow 0 lines, consumed }
  have closed : (page lines).token { left with blocks := [paragraph lines] } closing =
      .ok ((page lines).emitClosing left (paragraph lines).1 (paragraph lines).2) := by
    rw [Block.Page.token, told.closes.nesting]
    simp only [told.closes.shown, Bool.false_eq_true, ↓reduceIte]
    rfl
  have ran : (page lines).tokens {} [opening, inline, closing] =
      .ok ((page lines).emitClosing left (paragraph lines).1 (paragraph lines).2) := by
    rw [Block.Page.tokens, told.token_opening]
    simp only [Block.Page.tokens, filled]
    exact Block.Page.tokens_single_eq_ok.mpr closed
  refine ⟨max ((page lines).trimmedEnd (paragraph lines).2) left.floor, ?_⟩
  rw [Event.ofTokens, show { source := join lines, lines := .ofText (join lines) } = page lines from rfl, ran,
    Block.Page.emitClosing_eq]
  rfl

end ParagraphOf

/-- Up to the first line, if any, that ends with a carriage return alone and has another line behind it. -/
theorem exists_settled {lines : List BrokenLine} (filled : lines ≠ []) : ∃ line back,
    lines = lines.dropLast.takeWhile feeds ++ line :: back ∧
    ((∀ line ∈ lines.dropLast, line.ending ≠ .cr) ↔ back = []) ∧ (back ≠ [] → line.ending = .cr) := by
  have whole : lines.dropLast ++ [lines.getLast filled] = lines := List.dropLast_append_getLast filled
  have split : lines.dropLast.takeWhile feeds ++ lines.dropLast.dropWhile feeds = lines.dropLast :=
    List.takeWhile_append_dropWhile
  cases rest : lines.dropLast.dropWhile feeds with
  | nil =>
    rw [rest, List.append_nil] at split
    refine ⟨lines.getLast filled, [], by rw [split, whole], ?_, absurd rfl⟩
    have all := List.dropWhile_eq_nil_iff.mp rest
    exact ⟨fun _ => rfl, fun _ line member => by simpa [feeds] using all line member⟩
  | cons line more =>
    have returns : line.ending = .cr := by
      have first := List.head?_dropWhile_not feeds lines.dropLast
      rw [rest] at first
      simpa [feeds] using first
    have member : line ∈ lines.dropLast := by
      rw [← split, rest]
      simp
    rw [rest] at split
    refine ⟨line, more ++ [lines.getLast filled], ?_, ?_, fun _ => returns⟩
    · conv_lhs => rw [← whole, ← split]
      simp
    · exact ⟨fun all => absurd returns (all line member), by simp⟩

/-- What lines give that all feed but for the last of them. -/
theorem followed_front {front : List (Nat × BrokenLine)} {place : Nat × BrokenLine} :
    Followed (front.map textPlace ++ [textPlace place]) (front.map feedSpan) (front ++ [place]) := by
  refine ⟨by simp, ?_⟩
  rw [List.dropLast_concat]
  exact feeds_inside

/-- A break whose line feed is looked for, and found in it, is no carriage return alone. -/
theorem Followed.ending_ne_cr {window : Inline.Window} {front back : List (Nat × BrokenLine)} {pos : Nat}
    {line : BrokenLine} {texts : List (Text × Span)} {spans : List Span} (more : back ≠ [])
    (followed : Followed texts
      (front.map feedSpan ++ window.locate ['\n'] (pos + line.text.length) :: spans)
      (front ++ (pos, line) :: back))
    (reads : window.Reads (pos + line.text.length) line.ending.text) : line.ending ≠ .cr := by
  intro returns
  have breaks := followed.breaks
  rw [List.dropLast_append_cons, List.dropLast_cons_of_ne_nil more] at breaks
  have inside := List.forall₂_drop_append _ _ _ breaks
  rw [List.drop_left' (by simp)] at inside
  have found := (List.forall₂_cons.mp inside).1
  have alone : breakSpan (pos, line) = .reach (pos + line.text.length) (pos + line.text.length + 1) := by
    simp [breakSpan, render, returns, LineBreak.text, Nat.add_assoc]
  rw [returns] at reads
  rw [alone] at found
  exact Inline.Window.locate_return reads found

/-- Where lines stand, all texts and soft breaks that are looked for are in their places, just if none but
the last line ends with a carriage return alone. Where one does, everything up to its text is in place. -/
theorem Inline.Window.flow_followed {window : Inline.Window} {lines : List BrokenLine} {pos : Nat}
    (filled : lines ≠ []) (reads : window.Reads pos (join lines)) :
    let settled := (lines.dropLast.takeWhile BrokenLine.feeds).length
    let events := window.flow pos lines
    Followed ((textPlaces events).take (settled + 1)) ((softBreaks events).take settled)
      ((laid pos lines).take (settled + 1)) ∧
    (Followed (textPlaces events) (softBreaks events) (laid pos lines) ↔
      ∀ line ∈ lines.dropLast, line.ending ≠ .cr) := by
  intro settled events
  obtain ⟨line, back, whole, calm, returns⟩ := exists_settled filled
  let front := lines.dropLast.takeWhile BrokenLine.feeds
  have feeding : ∀ line ∈ front, line.feeds = true := fun line member => List.mem_takeWhile_imp member
  have split : join lines = join front ++ (line.text ++ (line.ending.text ++ join back)) := by
    conv_lhs => rw [whole, join_append]
    simp [join, render, front]
  rw [split] at reads
  let next := pos + (join front).length
  obtain ⟨later, goes, ends, breaks⟩ := @flow_cons window next back line reads.of_append_right.of_append_left
  have flow : events = (laid pos front).flatMap placed ++
      { kind := .text, span := textSpan (next, line), text := line.text } :: later := by
    rw [← goes, ← flow_append feeding reads.of_append_left, ← whole]
  have texts : textPlaces events =
      (laid pos front).map textPlace ++ [textPlace (next, line)] ++ textPlaces later := by
    rw [flow, textPlaces_append, textPlaces_placed, List.append_assoc]
    rfl
  have feeds : softBreaks events = (laid pos front).map feedSpan ++ softBreaks later := by
    rw [flow, softBreaks_append, softBreaks_placed]
    rfl
  have places : laid pos lines = laid pos front ++ (next, line) :: laid (next + line.render.length) back := by
    conv_lhs => rw [whole, laid_append]
    rfl
  have length : (laid pos front).length = settled := laid_length
  have place := @followed_front (laid pos front) (next, line)
  rw [texts, feeds, calm]
  refine ⟨?_, fun followed => ?_, fun last => ?_⟩
  · rw [places, List.append_cons (laid pos front), List.take_left' (by simp [length]),
      List.take_left' (by simp [length]), List.take_left' (by simp [length])]
    exact place
  · by_contra more
    obtain ⟨others, rfl⟩ := breaks more
    have rest : laid (next + line.render.length) back ≠ [] := by
      rw [← List.length_pos_iff, laid_length]
      exact List.length_pos_iff.mpr more
    rw [places] at followed
    exact followed.ending_ne_cr rest reads.of_append_right.of_append_right.of_append_left (returns more)
  · have nothing : textPlaces [] = [] ∧ softBreaks [] = [] := ⟨rfl, rfl⟩
    rw [places, ends last, last, nothing.1, nothing.2, List.append_nil, List.append_nil]
    exact place

/-- In a paragraph of lines all texts and soft breaks are in their places, just if none but the last line
ends with a carriage return alone. Where one does, everything up to its text is still in place. -/
theorem paragraph_lines_followed {lines : List BrokenLine} {opening inline closing : Token}
    (told : ParagraphOf lines opening inline closing) :
    let settled := (lines.dropLast.takeWhile feeds).length
    ∃ events, Event.ofTokens (join lines) [opening, inline, closing] = .ok events ∧
      (∀ place ∈ laid 0 lines, (textSpan place).text (join lines) = place.2.text ∧
        (breakSpan place).text (join lines) = place.2.ending.text) ∧
      Followed ((textPlaces events).take (settled + 1)) ((softBreaks events).take settled)
        ((laid 0 lines).take (settled + 1)) ∧
      (Followed (textPlaces events) (softBreaks events) (laid 0 lines) ↔
        ∀ line ∈ lines.dropLast, line.ending ≠ .cr) := by
  intro settled
  have filled : lines ≠ [] := by
    rintro rfl
    cases told.told
  have reads : (window lines).Reads 0 (join lines) :=
    .of_stands (List.prefix_refl _) (Nat.le_of_eq (Nat.zero_add _))
  obtain ⟨stop, ran⟩ := told.events_eq
  refine ⟨_, ran, laid_text (List.prefix_refl _), ?_⟩
  rw [textPlaces_block, softBreaks_block]
  exact Inline.Window.flow_followed filled reads

def letterLine (c : Char) (ending : LineBreak) (plain : Block.isLineEnd c = false) : BrokenLine where
  text := [c]
  ending
  substance := List.cons_ne_nil c []
  unbroken := by simpa using plain

def mixedLines : List BrokenLine :=
  [letterLine 'a' .crlf rfl, letterLine 'b' .lf rfl, letterLine 'c' .cr rfl]

/-- Only the last of the lines ends with a carriage return alone, and all are followed. -/
theorem mixedLines_followed : ∃ events,
    Event.ofTokens ['a', '\r', '\n', 'b', '\n', 'c', '\r'] [
        { type := "paragraph_open", nesting := .opening, lines := some (0, 3) },
        { type := "inline", lines := some (0, 3), children := [
          { type := "text", content := ['a'] }, { type := "softbreak" },
          { type := "text", content := ['b'] }, { type := "softbreak" },
          { type := "text", content := ['c'] }] },
        { type := "paragraph_close", nesting := .closing }] = .ok events ∧
      Followed (textPlaces events) (softBreaks events) (laid 0 mixedLines) := by
  have told : ParagraphOf mixedLines
      { type := "paragraph_open", nesting := .opening, lines := some (0, 3) }
      { type := "inline", lines := some (0, 3), children := [
        { type := "text", content := ['a'] }, { type := "softbreak" },
        { type := "text", content := ['b'] }, { type := "softbreak" },
        { type := "text", content := ['c'] }] }
      { type := "paragraph_close", nesting := .closing } :=
    ⟨⟨rfl, rfl⟩, rfl, rfl, rfl, rfl, rfl,
      .more ⟨rfl, rfl, rfl⟩ ⟨rfl, rfl⟩ (.more ⟨rfl, rfl, rfl⟩ ⟨rfl, rfl⟩ (.last ⟨rfl, rfl, rfl⟩)), rfl, rfl⟩
  obtain ⟨events, ran, -, -, followed⟩ := paragraph_lines_followed told
  exact ⟨events, ran, followed.mpr (by decide)⟩

def returnedLines : List BrokenLine :=
  [letterLine 'a' .cr rfl, letterLine 'b' .lf rfl]

/-- The soft break is taken to be the line feed behind the second line, which is then not found. -/
theorem returnedLines_not_followed :
    let paragraph : Tag := { kind := .paragraph, name := "paragraph" }
    let events : List Event := [
      { kind := .opening, span := .reach 0 4, tag := some paragraph },
      { kind := .text, span := .reach 0 1, text := ['a'] },
      { kind := .softBreak, span := .reach 3 4 },
      { kind := .text, span := .point 4, text := ['b'] },
      { kind := .closing, span := .point 4, tag := some paragraph }]
    Event.ofTokens (join returnedLines) [
      { type := "paragraph_open", nesting := .opening, lines := some (0, 2) },
      { type := "inline", lines := some (0, 2), children := [
        { type := "text", content := ['a'] }, { type := "softbreak" },
        { type := "text", content := ['b'] }] },
      { type := "paragraph_close", nesting := .closing }] = .ok events ∧
    ¬ Followed (textPlaces events) (softBreaks events) (laid 0 returnedLines) := by
  intro paragraph events
  exact ⟨rfl, fun followed => absurd followed.texts (by decide)⟩

end Emend
