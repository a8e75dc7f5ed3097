import Mathlib
import Emend.Proofs.Markup.Content
import Emend.Proofs.Markup.Elements
import Emend.Proofs.Markup.TableRow

/-! Where inline content stands when its source is exactly its rendering. Everything that the scan looks
for is then right where the scan stands, so the same text, bracket or mark anywhere later does not
matter: every leaf gets its own slice of the source, every closing event its delimiter, and every opening
event the whole element. -/
namespace Emend

namespace Text
variable {needle text : Text} {base found : Nat}

/-- What is found in a text is found at the same place when more text follows, from wherever it is
counted. -/
theorem seek_append (hit : seek needle text base = some found) (more : Text) (further : Nat) :
    seek needle (text ++ more) (further + base) = some (further + found) := by
  induction text generalizing base with
  | nil =>
    simp only [seek] at hit
    split at hit
    · rename_i empty
      cases hit
      rw [List.isEmpty_iff.mp empty]
      exact seek_here [] more _
    · cases hit
  | cons c rest ih =>
    rw [seek] at hit
    split at hit
    · rename_i fits
      cases hit
      have longer := (List.isPrefixOf_iff_prefix.mp fits).trans (List.prefix_append (c :: rest) more)
      exact if_pos (List.isPrefixOf_iff_prefix.mpr longer)
    · rename_i misses
      have bounds := seek_bounds hit
      -- More text does not make a copy begin here: the one found later shows that a copy fits without it.
      have misses : ¬ needle.isPrefixOf (c :: (rest ++ more)) = true := by
        intro fits
        have within : needle.length ≤ (c :: rest).length := by
          rw [List.length_cons]
          omega
        have shorter := List.prefix_of_prefix_length_le (List.isPrefixOf_iff_prefix.mp fits)
          (List.prefix_append (c :: rest) more) within
        exact misses (List.isPrefixOf_iff_prefix.mpr shorter)
      rw [List.cons_append, seek, if_neg misses, Nat.add_assoc]
      exact ih hit

end Text

namespace Inline

namespace Window
variable {window : Window} {first second needle : Text} {pos : Nat}

/-- The text stands at the offset, before the limit. -/
def Reads (window : Window) (pos : Nat) (text : Text) : Prop :=
  text <+: window.source.slice pos window.limit

namespace Reads

theorem of_append_left (reads : window.Reads pos (first ++ second)) : window.Reads pos first :=
  (List.prefix_append ..).trans reads

theorem of_append_right (reads : window.Reads pos (first ++ second)) :
    window.Reads (pos + first.length) second := by
  obtain ⟨rest, whole⟩ := reads
  refine ⟨rest, ?_⟩
  have dropped := congrArg (List.drop first.length) whole
  rw [List.append_assoc, List.drop_left] at dropped
  rw [dropped, Text.slice, Text.slice, List.drop_take, List.drop_drop]
  congr 1
  omega

theorem of_stands {text : Text} (stands : text <+: window.source.drop pos)
    (inside : pos + text.length ≤ window.limit) : window.Reads pos text :=
  List.prefix_take_iff.mpr ⟨stands, by omega⟩

/-- What is read between two offsets is the text of the span. -/
theorem text_eq {text : Text} (reads : window.Reads pos text) :
    (Span.reach pos (pos + text.length)).text window.source = text := by
  obtain ⟨rest, whole⟩ := reads.trans (List.take_prefix ..)
  have ends : (Span.reach pos (pos + text.length)).stop = pos + text.length :=
    Nat.max_eq_right (Nat.le_add_right ..)
  rw [Span.text, ends, Text.slice]
  simp only [Span.reach, ← whole, Nat.add_sub_cancel_left, List.take_left]

end Reads

theorem locate_here (reads : window.Reads pos needle) :
    window.locate needle pos = .reach pos (pos + needle.length) := by
  cases needle with
  | nil => simp [locate, Span.reach, Span.point]
  | cons c needle =>
    obtain ⟨rest, whole⟩ := reads
    refine locate_found (by simp) ?_
    rw [← whole]
    exact Text.seek_here ..

private theorem codeSpan_here {marks raw : Text} (first : Text.seek marks (raw ++ marks) 0 = some raw.length)
    (reads : window.Reads pos (marks ++ raw ++ marks)) :
    window.codeSpan marks pos = .reach pos (pos + (marks ++ raw ++ marks).length) := by
  have opens : window.locate marks pos = .reach pos (pos + marks.length) :=
    locate_here reads.of_append_left.of_append_left
  have begins : (Span.reach pos (pos + marks.length)).stop = pos + marks.length :=
    Nat.max_eq_right (Nat.le_add_right ..)
  simp only [codeSpan, opens, begins]
  by_cases empty : marks = []
  · -- Without marks nothing stands between them either, and the span is empty.
    subst empty
    have none : raw = [] := by
      have found := first.symm.trans (Text.seek_here [] (raw ++ []) 0)
      exact List.length_eq_zero_iff.mp (Option.some.inj found)
    subst none
    simp [locate, Span.point, Span.isEmpty]
  · have closes : window.locate marks (pos + marks.length) =
        .reach (pos + marks.length + raw.length) (pos + marks.length + raw.length + marks.length) := by
      refine locate_found empty ?_
      rw [List.append_assoc] at reads
      obtain ⟨rest, whole⟩ := reads.of_append_right
      rw [← whole]
      exact Text.seek_append first rest (pos + marks.length)
    have filled := List.length_pos_iff.mpr empty
    have visible : (window.locate marks (pos + marks.length)).isEmpty = false := by
      simp only [closes, Span.isEmpty, Span.reach, beq_eq_false_iff_ne]
      omega
    rw [visible, closes]
    simp only [Bool.false_eq_true, ↓reduceIte, Span.reach, List.length_append, Span.mk.injEq, true_and]
    omega

private theorem matchingParen_plain {destination rest : Text} {offset : Nat}
    (plain : '(' ∉ destination ∧ ')' ∉ destination) :
    matchingParen (destination ++ ')' :: rest) 1 offset = some (offset + destination.length + 1) := by
  induction destination generalizing offset with
  | nil => simp [matchingParen]
  | cons c later ih =>
    simp only [List.mem_cons, not_or] at plain
    obtain ⟨⟨notOpening, plainOpening⟩, notClosing, plainClosing⟩ := plain
    rw [List.cons_append, matchingParen, if_neg (Ne.symm notOpening), if_neg (Ne.symm notClosing),
      ih ⟨plainOpening, plainClosing⟩, List.length_cons]
    congr 1
    omega

private theorem bracketSpan_here {destination : Text} (plain : '(' ∉ destination ∧ ')' ∉ destination)
    (reads : window.Reads pos ([']', '('] ++ destination ++ [')'])) :
    window.bracketSpan pos = .reach pos (pos + ([']', '('] ++ destination ++ [')']).length) := by
  have split : window.Reads pos ([']'] ++ ('(' :: (destination ++ [')']))) := reads
  have bracket : window.locate [']'] pos = .reach pos (pos + 1) := locate_here split.of_append_left
  have parentheses : window.Reads (pos + 1) ('(' :: (destination ++ [')'])) := split.of_append_right
  have ends : window.destinationEnd (pos + 1) = some (pos + 1 + 1 + destination.length + 1) := by
    obtain ⟨rest, whole⟩ := parentheses
    rw [destinationEnd, ← whole, List.cons_append, List.append_assoc]
    exact matchingParen_plain plain
  have begins : (Span.reach pos (pos + 1)).stop = pos + 1 :=
    Nat.max_eq_right (Nat.le_add_right ..)
  simp only [bracketSpan, bracket, begins, ends]
  simp only [Span.reach, List.length_append, List.length_cons, List.length_nil, Span.mk.injEq, true_and]
  omega

/-- A leaf is found where the scan stands. -/
theorem leaf?_here {item : Leaf} {token : Token} (told : item.ToldBy token)
    (reads : window.Reads pos item.render) :
    token.type ≠ "image" ∧ window.leaf? token pos = some (item.event pos) := by
  cases item with
  | text literal substance =>
    obtain ⟨type, content⟩ := told.reports
    have here : window.locate literal pos = .reach pos (pos + literal.length) := locate_here reads
    simp [leaf?, type, content, substance, here, Leaf.event, Leaf.kind, Leaf.render, Leaf.content]
  | html literal substance =>
    obtain ⟨type, content⟩ := told.reports
    have here : window.locate literal pos = .reach pos (pos + literal.length) := locate_here reads
    simp [leaf?, type, content, here, Leaf.event, Leaf.kind, Leaf.render, Leaf.content]
  | softBreak =>
    have type : token.type = "softbreak" := told.reports
    have here : window.locate ['\n'] pos = .reach pos (pos + 1) := locate_here reads
    simp [leaf?, type, here, Leaf.event, Leaf.kind, Leaf.render, Leaf.content]
  | hardBreak =>
    have type : token.type = "hardbreak" := told.reports
    have here : window.locate ['\n'] pos = .reach pos (pos + 1) := locate_here reads
    simp [leaf?, type, here, Leaf.event, Leaf.kind, Leaf.render, Leaf.content]
  | code marks raw content first =>
    obtain ⟨type, markup, content⟩ := told.reports
    have here := codeSpan_here first reads
    simp [leaf?, type, markup, content, here, Leaf.event, Leaf.kind, Leaf.render, Leaf.content]

private theorem openingSpan_here {delimiters : Delimiters} {token : Token} (opens : delimiters.OpenedBy token)
    (reads : window.Reads pos delimiters.front) :
    window.openingSpan token pos = .reach pos (pos + delimiters.front.length) := by
  have here := locate_here reads
  cases delimiters with
  | marks style markup substance =>
    obtain ⟨type, same⟩ := opens.reports
    have notLink : token.type ≠ "link_open" := by
      rw [type]
      cases style <;> decide
    rw [openingSpan, if_neg notLink, same]
    exact here
  | angles target =>
    obtain ⟨type, markup, -⟩ := opens.reports
    rw [openingSpan, if_pos type, if_pos markup]
    exact here
  | link target destination plain =>
    obtain ⟨type, markup, -⟩ := opens.reports
    rw [openingSpan, if_pos type, if_neg markup]
    exact here
  | image target destination plain => exact opens.reports.elim

private theorem closingSpan_here {delimiters : Delimiters} {token : Token}
    (closes : delimiters.ClosedBy token)
    (reads : window.Reads pos delimiters.back) :
    window.closingSpan token pos = .reach pos (pos + delimiters.back.length) := by
  cases delimiters with
  | marks style markup substance =>
    obtain ⟨type, same⟩ := closes.reports
    have notLink : token.type ≠ "link_close" := by
      rw [type]
      cases style <;> decide
    rw [closingSpan, if_neg notLink, same]
    exact locate_here reads
  | angles target =>
    obtain ⟨type, markup⟩ := closes.reports
    rw [closingSpan, if_pos type, if_pos markup]
    exact locate_here reads
  | link target destination plain =>
    obtain ⟨type, markup⟩ := closes.reports
    rw [closingSpan, if_pos type, if_neg markup]
    exact bracketSpan_here plain reads
  | image target destination plain => exact closes.reports.elim

end Window

/-- A token's tag is known from its name and its attributes, unless it is a heading. -/
theorem tag_eq_of_name {token : Token} {block : Bool} {name : String} (named : token.name = name)
    (plain : TagKind.named name ≠ .heading) :
    let key := Token.destinationKey (.named name)
    token.tag block = .ok {
      kind := .named name, block, name
      url := key.bind (token.attributes.lookup ·)
      title := key.bind fun _ => token.attributes.lookup "title" } := by
  subst named
  unfold Token.tag
  simp only [if_neg plain]
  rfl

theorem Delimiters.OpenedBy.tag_eq_ok {delimiters : Delimiters} {token : Token}
    (opens : delimiters.OpenedBy token) : token.tag false = .ok delimiters.tag := by
  cases delimiters with
  | marks style markup substance =>
    obtain ⟨type, -⟩ := opens.reports
    have named : token.name = style.name := by
      rw [Token.name, type]
      cases style <;> rfl
    rw [tag_eq_of_name named (by cases style <;> decide)]
    cases style <;> rfl
  | angles target | link target =>
    obtain ⟨type, -, url, title⟩ := opens.reports
    have named : token.name = "link" := by
      rw [Token.name, type]
      rfl
    rw [tag_eq_of_name named (by decide), Delimiters.tag, ← url, ← title]
    rfl
  | image target destination plain => exact opens.reports.elim

namespace Scan
variable {window : Window} {scan : Scan} {content inner : Content} {delimiters : Delimiters}
  {tokens : List Token}

/-- The scan after a text of this length, which gave these events. -/
def advance (scan : Scan) (length : Nat) (events : List Event) : Scan :=
  { scan with pos := scan.pos + length }.add events

theorem advance_pos {length : Nat} {events : List Event} :
    (scan.advance length events).pos = scan.pos + length := by
  unfold advance add
  split <;> rfl

theorem advance_nothing : scan.advance 0 [] = scan := by
  obtain ⟨pos, held, done⟩ := scan
  cases held <;> simp [advance, add]

private theorem advance_advance {first second : Nat} {events later : List Event} :
    (scan.advance first events).advance second later =
      scan.advance (first + second) (events ++ later) := by
  obtain ⟨pos, held, done⟩ := scan
  cases held <;> simp [advance, add, Nat.add_assoc]

/-- The scan in an element, whose opening event is held back. -/
def opened (scan : Scan) (delimiters : Delimiters) : Scan :=
  scan.hold delimiters.tag (.reach scan.pos (scan.pos + delimiters.front.length))

/-- The scan at the end of the element's content. -/
def filled (scan : Scan) (delimiters : Delimiters) (inner : Content) : Scan :=
  (scan.opened delimiters).advance inner.render.length (inner.placed (scan.opened delimiters).pos)

/-- The scan behind the element. -/
def passed (scan : Scan) (delimiters : Delimiters) (inner : Content) : Scan :=
  scan.advance (Content.element delimiters inner .nothing).render.length
    ((Content.element delimiters inner .nothing).placed scan.pos)

private theorem opened_pos : (scan.opened delimiters).pos = scan.pos + delimiters.front.length :=
  Nat.max_eq_right (Nat.le_add_right ..)

theorem filled_pos : (scan.filled delimiters inner).pos =
    scan.pos + delimiters.front.length + inner.render.length := by
  rw [filled, advance_pos, opened_pos]

/-- The closing delimiter lets the element go, with its content between its two events. -/
theorem filled_release :
    let stop := (scan.filled delimiters inner).pos + delimiters.back.length
    (scan.filled delimiters inner).release (.reach (scan.filled delimiters inner).pos stop) =
      .ok (scan.passed delimiters inner) := by
  intro stop
  let ends := (scan.filled delimiters inner).pos
  let held : Held :=
    { opening := {
        kind := .opening
        span := .reach scan.pos (scan.pos + delimiters.front.length)
        tag := some delimiters.tag }
      inner := inner.placed (scan.opened delimiters).pos }
  have released : (scan.filled delimiters inner).release (.reach ends stop) =
      .ok ({ scan with pos := (Span.reach ends stop).stop }.add (held.close (.reach ends stop))) :=
    rfl
  have reached : (Span.reach ends stop).stop = stop := Nat.max_eq_right (Nat.le_add_right ..)
  have whole : Span.reach held.opening.start (max held.opening.stop stop) = .reach scan.pos stop := by
    simp only [held, Event.start, Event.stop, Span.reach, stop, filled_pos, Span.mk.injEq, true_and]
    omega
  have closed : held.close (.reach ends stop) =
      (Content.element delimiters inner .nothing).placed scan.pos := by
    simp only [Held.close, reached, whole]
    simp only [held, Content.placed, ends, stop, filled_pos, opened_pos]
  have length : stop = scan.pos + (Content.element delimiters inner .nothing).render.length := by
    simp only [stop, filled_pos, Content.render, List.length_append, List.length_nil]
    omega
  rw [released, closed, reached, length]
  rfl

theorem tokens_append_eq_ok {after : Scan} {first second : List Token} :
    Scan.tokens window scan (first ++ second) = .ok after ↔ ∃ between,
      Scan.tokens window scan first = .ok between ∧ Scan.tokens window between second = .ok after := by
  induction first generalizing scan with
  | nil => simp [Scan.tokens]
  | cons head rest ih =>
    simp only [List.cons_append, Scan.tokens]
    split
    · exact ih
    · simp

/-- The parts of an element are read where the scan comes to them. -/
theorem reads_element {rest : Content}
    (reads : window.Reads scan.pos (Content.element delimiters inner rest).render) :
    window.Reads scan.pos delimiters.front ∧ window.Reads (scan.opened delimiters).pos inner.render ∧
    window.Reads (scan.filled delimiters inner).pos delimiters.back := by
  have back := reads.of_append_left.of_append_right
  rw [List.length_append, ← Nat.add_assoc] at back
  rw [opened_pos, filled_pos]
  have front := reads.of_append_left.of_append_left
  exact ⟨front.of_append_left, front.of_append_right, back⟩

/-- The content after an element goes on where the element ended. -/
theorem tokens_rest {rest : Content}
    (reads : window.Reads scan.pos (Content.element delimiters inner rest).render)
    (later : ∀ {scan : Scan}, window.Reads scan.pos rest.render →
      Scan.tokens window scan tokens = .ok (scan.advance rest.render.length (rest.placed scan.pos))) :
    Scan.tokens window (scan.passed delimiters inner) tokens =
      .ok (scan.advance (Content.element delimiters inner rest).render.length
        ((Content.element delimiters inner rest).placed scan.pos)) := by
  have single : (Content.element delimiters inner .nothing).render =
      delimiters.front ++ inner.render ++ delimiters.back :=
    List.append_nil _
  have behind : (scan.passed delimiters inner).pos =
      scan.pos + (delimiters.front ++ inner.render ++ delimiters.back).length := by
    rw [passed, advance_pos, single]
  have goes := reads.of_append_right
  rw [← behind] at goes
  rw [later goes, passed, advance_advance, advance_pos]
  simp [Content.render, Content.placed, Nat.add_assoc]

/-- Where the rendering of inline content stands, its tokens are all found in their places. -/
theorem tokens_read (told : content.ToldBy tokens) (reads : window.Reads scan.pos content.render) :
    Scan.tokens window scan tokens =
      .ok (scan.advance content.render.length (content.placed scan.pos)) := by
  induction told generalizing scan with
  | nothing =>
    rw [Scan.tokens]
    exact congrArg Except.ok advance_nothing.symm
  | @leaf item rest token tokens told later ih =>
    obtain ⟨notImage, found⟩ := Window.leaf?_here told reads.of_append_left
    have stands : (item.event scan.pos).stop = scan.pos + item.render.length :=
      Nat.max_eq_right (Nat.le_add_right ..)
    have read : Scan.token window scan token =
        .ok (scan.advance item.render.length [item.event scan.pos]) := by
      rw [token_eq, told.nesting]
      simp only [notImage, ↓reduceIte, found, stands, advance]
    have goes := reads.of_append_right
    rw [← advance_pos] at goes
    rw [Scan.tokens, read]
    dsimp only
    rw [ih goes, advance_advance, advance_pos]
    simp [Content.render, Content.placed]
  | @element delimiters inner rest opening closing inside tokens opens told closes later ihInner ih =>
    obtain ⟨readsFront, readsInner, readsBack⟩ := reads_element reads
    have begins : Scan.token window scan opening = .ok (scan.opened delimiters) := by
      rw [token_eq, opens.nesting]
      simp only [opens.tag_eq_ok, Window.openingSpan_here opens readsFront, Except.map]
      rfl
    have ends : Scan.token window (scan.filled delimiters inner) closing =
        .ok (scan.passed delimiters inner) := by
      rw [token_eq, closes.nesting]
      dsimp only
      rw [Window.closingSpan_here closes readsBack]
      exact filled_release
    rw [List.cons_append, Scan.tokens, begins]
    refine tokens_append_eq_ok.mpr ⟨_, ihInner readsInner, ?_⟩
    rw [Scan.tokens, ← filled, ends]
    exact tokens_rest reads ih
  | @image target destination plain inner rest token tokens alone type url title told later ihInner ih =>
    obtain ⟨readsFront, readsInner, readsBack⟩ := reads_element reads
    have tagged : token.tag false = .ok (Delimiters.image target destination plain).tag := by
      have named : token.name = "image" := by
        rw [Token.name, type]
        rfl
      rw [tag_eq_of_name named (by decide), Delimiters.tag, ← url, ← title]
      rfl
    have begins : window.locate ['!', '['] scan.pos = .reach scan.pos (scan.pos + 2) :=
      Window.locate_here readsFront
    have fills : Scan.tokens window (scan.hold (Delimiters.image target destination plain).tag
        (.reach scan.pos (scan.pos + 2))) token.children =
          .ok (scan.filled (.image target destination plain) inner) :=
      ihInner readsInner
    have read : Scan.token window scan token =
        .ok (scan.passed (.image target destination plain) inner) := by
      rw [token_eq, alone]
      simp only [type, ↓reduceIte, tagged, begins, fills, bind, Except.bind,
        Window.bracketSpan_here plain readsBack]
      exact filled_release
    rw [Scan.tokens, read]
    exact tokens_rest reads ih

end Scan

/-- All events of the content are placed, and the scan ends behind its rendering. -/
theorem events_read {window : Window} {content : Content} {tokens : List Token} {start : Nat}
    (told : content.ToldBy tokens) (reads : window.Reads start content.render) :
    events window start tokens = .ok (content.placed start, start + content.render.length) := by
  have ran : Scan.tokens window { pos := start } tokens = _ := Scan.tokens_read told reads
  rw [events, ran]
  simp [Except.map, Scan.advance, Scan.add, Scan.finish, Scan.closeAll]

/-- The spans of the placed events read as the pieces of the rendering. -/
theorem Content.placed_text {window : Window} {content : Content} {start : Nat}
    (reads : window.Reads start content.render) :
    (content.placed start).map (·.span.text window.source) = content.pieces := by
  induction content generalizing start with
  | nothing => rfl
  | leaf item rest ih =>
    have here : (item.event start).span.text window.source = item.render := reads.of_append_left.text_eq
    simp only [Content.placed, List.map_cons, here, ih reads.of_append_right, Content.pieces]
  | element delimiters inner rest ihInner ih =>
    have whole := reads.of_append_left.text_eq
    have closing := reads.of_append_left.of_append_right.text_eq
    have later := ih reads.of_append_right
    simp only [List.length_append, ← Nat.add_assoc] at whole closing later
    simp only [Content.placed, List.map_cons, List.map_append, whole, closing, later,
      ihInner reads.of_append_left.of_append_left.of_append_right, Content.pieces]

end Inline

namespace Token

/-- The token opens a paragraph that reaches from one offset up to another: over its lines, or over all of
the source if it knows none. -/
structure OpensParagraph (token : Token) (page : Block.Page) (above below : Nat) : Prop
    extends OpensBlock token where
  type : token.type = "paragraph_open"
  reaches : match token.lines with
    | none => above = 0 ∧ below = page.source.length
    | some (first, last) =>
      page.lines.startOf first = .ok above ∧ page.lines.startOf last = .ok below

/-- The token holds the tokens of this content, and has lines from one offset up to another. -/
structure HoldsContent (token : Token) (page : Block.Page) (content : Inline.Content) (start stop : Nat) :
    Prop where
  type : token.type = "inline"
  nesting : token.nesting = .alone
  lines : ∃ first last, token.lines = some (first, last) ∧
    page.lines.startOf first = .ok start ∧ page.lines.startOf last = .ok stop
  told : content.ToldBy token.children

end Token

namespace Block.Page
variable {page : Page} {progress : Progress} {token : Token} {content : Inline.Content}
  {start stop above below : Nat}

theorem token_opens_paragraph (opens : token.OpensParagraph page above below) :
    page.token {} token = .ok {
      events := [openingEvent ({ kind := .paragraph, name := "paragraph" }, .reach above below)]
      blocks := [({ kind := .paragraph, name := "paragraph" }, .reach above below)]
      consumed := above } := by
  have tagged : token.tag true = .ok { kind := .paragraph, name := "paragraph" } := by
    have named : token.name = "paragraph" := by
      rw [Token.name, opens.type]
      rfl
    exact Inline.tag_eq_of_name named (by decide)
  have placed : page.openingSpan {} token { kind := .paragraph, name := "paragraph" } =
      .ok (.reach above below) := by
    have reaches := opens.reaches
    cases lines : token.lines with
    | none =>
      simp only [lines] at reaches
      obtain ⟨rfl, rfl⟩ := reaches
      simp only [openingSpan, lineSpan?, lines]
      rfl
    | some known =>
      simp only [lines] at reaches
      obtain ⟨top, bottom⟩ := reaches
      have begins : max above ({} : Progress).lastStart = above := Nat.max_zero above
      simp only [openingSpan, lineSpan?, lines, top, bottom, begins, bind, Except.bind, pure, Except.pure]
      rfl
  rw [token_opening opens.toOpensBlock tagged placed]
  have consumed : max 0 above = above := Nat.zero_max above
  simp only [Span.reach, consumed]
  rfl

/-- Inline tokens add the events of their content in their places, when nothing so far reaches into it. -/
theorem token_holds_content (holds : token.HoldsContent page content start stop)
    (floor : progress.floor ≤ start) (stands : content.render <+: page.source.drop start)
    (inside : start + content.render.length ≤ stop) :
    page.token progress token = .ok { progress with
      events := progress.events ++ content.placed start
      consumed := start + content.render.length } := by
  obtain ⟨first, last, lines, top, bottom⟩ := holds.lines
  let window : Inline.Window := { source := page.source, limit := stop }
  have within : start ≤ stop := Nat.le_trans (Nat.le_add_right ..) inside
  have reads : window.Reads start content.render := .of_stands stands inside
  have begins : max start progress.lastStart = start :=
    Nat.max_eq_left (Nat.le_trans (Nat.le_max_left ..) floor)
  have region : page.lineSpan? progress token = .ok (some (.reach start stop)) := by
    simp only [lineSpan?, lines, top, bottom, begins, bind, Except.bind, pure, Except.pure]
  have scanned := Inline.events_read holds.told reads
  have consumed : max progress.consumed (start + content.render.length) =
      start + content.render.length :=
    Nat.max_eq_right (Nat.le_trans (Nat.le_trans (Nat.le_max_right ..) floor) (Nat.le_add_right ..))
  rw [Page.token, holds.nesting]
  simp only [holds.type, inlineTokens, region, bind, Except.bind, Option.map_some, Option.getD_some,
    Span.reach, Nat.max_eq_left floor, Nat.max_eq_right within]
  rw [show Inline.events { source := page.source, limit := stop } start token.children = _ from scanned]
  simp only [Progress.emit, Progress.consume, consumed]
  rfl

end Block.Page

/-- A paragraph on its own, whose inline tokens begin where the rendering of their content stands, within
their lines. Each event of the content has its exact place: a leaf its own slice of the source, a closing
event its delimiter, an opening event the whole element. -/
theorem paragraph_events_placed {source : Text} {content : Inline.Content}
    {opening inline closing : Token} {above below start stop : Nat}
    (opens : opening.OpensParagraph { source, lines := .ofText source } above below)
    (holds : inline.HoldsContent { source, lines := .ofText source } content start stop)
    (closes : closing.ClosesBlock) (around : above ≤ start)
    (stands : content.render <+: source.drop start) (inside : start + content.render.length ≤ stop) :
    let block : Tag × Span := ({ kind := .paragraph, name := "paragraph" }, .reach above below)
    let page : Block.Page := { source, lines := .ofText source }
    Event.ofTokens source [opening, inline, closing] = .ok (Block.openingEvent block ::
      content.placed start ++ [Block.closingEvent block
        (max (page.trimmedEnd block.2) (start + content.render.length))]) ∧
    (content.placed start).map (·.span.text source) = content.pieces := by
  intro block page
  have reads : (Inline.Window.mk source stop).Reads start content.render := .of_stands stands inside
  obtain ⟨-, -, ordered⟩ := Inline.events_ordered (Nat.le_trans (Nat.le_add_right ..) inside)
    (Inline.events_read holds.told reads)
  refine ⟨?_, Inline.Content.placed_text reads⟩
  let begun : Block.Progress :=
    { events := [Block.openingEvent block], blocks := [block], consumed := above }
  let filled : Block.Progress := { begun with
    events := begun.events ++ content.placed start
    consumed := start + content.render.length }
  have opened : page.token {} opening = .ok begun := Block.Page.token_opens_paragraph opens
  have read : page.token begun inline = .ok filled :=
    Block.Page.token_holds_content holds (Nat.max_le.mpr ⟨around, around⟩) stands inside
  have closed : page.token filled closing =
      .ok (page.emitClosing { filled with blocks := [] } block.1 block.2) := by
    rw [Block.Page.token, closes.nesting]
    simp only [closes.shown, Bool.false_eq_true, ↓reduceIte]
    rfl
  have floor : ({ filled with blocks := [] } : Block.Progress).floor =
      start + content.render.length := by
    refine Nat.max_eq_right (Block.lastStart_le_of ?_)
    intro event member
    rcases List.mem_cons.mp member with rfl | member
    · exact Nat.le_trans around (Nat.le_add_right ..)
    · exact (ordered.begins event member).2
  have ran : page.tokens {} [opening, inline, closing] =
      .ok (page.emitClosing { filled with blocks := [] } block.1 block.2) := by
    simp only [Block.Page.tokens, opened, read, closed]
  rw [Event.ofTokens, ran, Block.Page.emitClosing_eq, floor]
  rfl

/-- The link `[]*](u)`, whose name holds a bracket and a mark. -/
def markedLink : Inline.Content :=
  .element (.link { url := some ['u'], title := none } ['u'] (by simp))
    (.leaf (.text [']', '*'] (by simp)) .nothing) .nothing

/-- An emphasis around the link, and code after it: `*[]*](u)*~a~`. -/
def crossed : Inline.Content :=
  .element (.marks .emphasis ['*'] (by simp)) markedLink (.leaf (.code ['~'] ['a'] ['a'] rfl) .nothing)

def markedLinkTokens : List Token := [
  { type := "link_open", nesting := .opening, attributes := [("href", ['u'])] },
  { type := "text", content := [']', '*'] },
  { type := "link_close", nesting := .closing }]

def crossedTokens : List Token :=
  { type := "em_open", nesting := .opening, markup := ['*'] } :: markedLinkTokens ++ [
    { type := "em_close", nesting := .closing, markup := ['*'] },
    { type := "code_inline", markup := ['~'], content := ['a'] }]

private theorem crossed_told : crossed.ToldBy crossedTokens := by
  have link : markedLink.ToldBy (markedLinkTokens[0] :: [markedLinkTokens[1]] ++ [markedLinkTokens[2]]) :=
    .element ⟨rfl, rfl, by decide, rfl, rfl⟩ (.leaf ⟨rfl, rfl, rfl⟩ .nothing) ⟨rfl, rfl, by decide⟩ .nothing
  exact .element ⟨rfl, rfl, rfl⟩ link ⟨rfl, rfl, rfl⟩ (.leaf ⟨rfl, rfl, rfl, rfl⟩ .nothing)

/-- Both delimiters are found behind their copies in the link's name. -/
theorem crossed_events_placed :
    let paragraph : Tag := { kind := .paragraph, name := "paragraph" }
    let emphasis : Tag := { kind := .emphasis, block := false, name := "em" }
    let link : Tag := { kind := .link, block := false, name := "link", url := some ['u'] }
    Event.ofTokens (crossed.render ++ ['\n']) [
        { type := "paragraph_open", nesting := .opening, lines := some (0, 1) },
        { type := "inline", lines := some (0, 1), children := crossedTokens },
        { type := "paragraph_close", nesting := .closing }] = .ok [
      { kind := .opening, span := .reach 0 13, tag := some paragraph },
      { kind := .opening, span := .reach 0 9, tag := some emphasis },
      { kind := .opening, span := .reach 1 8, tag := some link },
      { kind := .text, span := .reach 2 4, text := [']', '*'] },
      { kind := .closing, span := .reach 4 8, tag := some link },
      { kind := .closing, span := .reach 8 9, tag := some emphasis },
      { kind := .code, span := .reach 9 12, text := ['a'] },
      { kind := .closing, span := .point 12, tag := some paragraph }] := by
  intro paragraph emphasis link
  have opens : Token.OpensParagraph
      { type := "paragraph_open", nesting := .opening, lines := some (0, 1) }
      { source := crossed.render ++ ['\n'], lines := .ofText (crossed.render ++ ['\n']) } 0 13 :=
    ⟨⟨rfl, rfl⟩, rfl, rfl, rfl⟩
  have holds : Token.HoldsContent { type := "inline", lines := some (0, 1), children := crossedTokens }
      { source := crossed.render ++ ['\n'], lines := .ofText (crossed.render ++ ['\n']) } crossed 0 13 :=
    ⟨rfl, rfl, ⟨0, 1, rfl, rfl, rfl⟩, crossed_told⟩
  have stands : crossed.render <+: (crossed.render ++ ['\n']).drop 0 := List.prefix_append ..
  have closes : Token.ClosesBlock { type := "paragraph_close", nesting := .closing } := ⟨rfl, rfl⟩
  obtain ⟨read, -⟩ := paragraph_events_placed opens holds closes (Nat.le_refl 0) stands (by decide)
  exact read

end Emend
