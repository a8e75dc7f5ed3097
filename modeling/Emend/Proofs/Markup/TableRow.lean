import Mathlib
import Emend.Markup.Block
import Emend.Proofs.Markup.BlockOrder

/-! Where the cells of a table row are found. Cells know no lines, so they are looked for from where the
scan has come. The first cell is found in its place. Its closing event then stands at the end of the
row's content, since the cell counts as reaching over the rest of the row, and from there on none of the
later cells is found. -/
namespace Emend

namespace Text
variable {needle text rest : Text} {c d : Char} {offset : Nat}

/-- What is there at once is found at once. -/
theorem seek_here (needle rest : Text) (offset : Nat) : seek needle (needle ++ rest) offset = some offset := by
  cases needle with
  | nil => cases rest <;> simp [seek]
  | cons c needle =>
    have fits : (c :: needle).isPrefixOf (c :: (needle ++ rest)) = true := by simp
    rw [List.cons_append, seek, if_pos fits]

/-- A character that the needle does not begin with is passed over. -/
theorem seek_past (other : c ≠ d) : seek (c :: needle) (d :: text) offset =
    seek (c :: needle) text (offset + 1) := by
  have misses : ¬ (c :: needle).isPrefixOf (d :: text) = true := by simp [other]
  rw [seek, if_neg misses]

/-- A text without the first character of the needle does not hold the needle. -/
theorem seek_absent (absent : c ∉ text) : seek (c :: needle) text offset = none := by
  induction text generalizing offset with
  | nil => rfl
  | cons d rest ih =>
    rw [List.mem_cons, not_or] at absent
    rw [seek_past absent.1, ih absent.2]

/-- Searching a window is searching the slice in it. -/
theorem find?_eq_seek (text needle : Text) (start limit : Nat) :
    text.find? needle start limit = seek needle (text.slice start limit) start := by
  rw [find?, slice, List.drop_take]

end Text

/-- A text that may stand in a cell: it holds no bar and no line break, and does not begin with white
space. What it ends with does not matter. -/
structure CellText (text : Text) : Prop where
  unbarred : '|' ∉ text
  unbroken : ∀ c ∈ text, Block.isLineEnd c = false
  begins : ∃ c rest, text = c :: rest ∧ Text.isBlank c = false

def rowLine : List Text → Text
  | [] => ['|']
  | text :: rest => ['|', ' '] ++ text ++ [' '] ++ rowLine rest

private theorem rowLine_bar (texts : List Text) : ∃ front, rowLine texts = front ++ ['|'] := by
  induction texts with
  | nil => exact ⟨[], rfl⟩
  | cons text rest ih =>
    obtain ⟨front, same⟩ := ih
    exact ⟨['|', ' '] ++ text ++ [' '] ++ front, by simp [rowLine, same]⟩

/-- Where the cells stand in a row that begins at `start`. -/
def cellPlaces : Nat → List Text → List Span
  | _, [] => []
  | start, text :: rest => .reach (start + 2) (start + 2 + text.length) ::
      cellPlaces (start + 3 + text.length) rest

/-- At its place in the row a cell reads as its text. -/
theorem cellPlaces_text {source : Text} {texts : List Text} {start : Nat}
    (line : rowLine texts <+: source.drop start) :
    (cellPlaces start texts).map (·.text source) = texts := by
  induction texts generalizing start with
  | nil => rfl
  | cons text rest ih =>
    obtain ⟨after, whole⟩ := line
    have inside : source.drop (start + 2) = text ++ ([' '] ++ rowLine rest ++ after) := by
      rw [← List.drop_drop, ← whole]
      simp [rowLine]
    have later : source.drop (start + 3 + text.length) = rowLine rest ++ after := by
      have past : start + 3 + text.length = start + 2 + (text.length + 1) := by omega
      rw [past, ← List.drop_drop, inside, ← List.drop_drop, List.drop_left]
      rfl
    have here : (Span.reach (start + 2) (start + 2 + text.length)).text source = text := by
      simp [Span.text, Span.reach, Text.slice, inside]
    rw [cellPlaces, List.map_cons, here, ih (later ▸ List.prefix_append ..)]

namespace Inline.Window
variable {window : Window} {needle : Text} {pos found : Nat}

theorem locate_found (substance : needle ≠ [])
    (hit : Text.seek needle (window.source.slice pos window.limit) pos = some found) :
    window.locate needle pos = .reach found (found + needle.length) := by
  rw [locate, if_neg (by simpa using substance), Text.find?_eq_seek, hit]

private theorem locate_missed (substance : needle ≠ [])
    (miss : Text.seek needle (window.source.slice pos window.limit) pos = none) :
    window.locate needle pos = .point pos := by
  rw [locate, if_neg (by simpa using substance), Text.find?_eq_seek, miss]

end Inline.Window

namespace Token

/-- The token opens a block that shows. -/
structure OpensBlock (token : Token) : Prop where
  nesting : token.nesting = .opening
  shown : token.hidden = false

structure OpensRow (token : Token) (row : Int) : Prop extends OpensBlock token where
  type : token.type = "tr_open"
  lines : token.lines = some (row, row + 1)

/-- The token opens a cell, of which no line is known. -/
structure OpensCell (token : Token) : Prop extends OpensBlock token where
  type : token.type = "td_open" ∨ token.type = "th_open"
  lines : token.lines = none

structure HoldsText (token : Token) (row : Int) (text : Text) : Prop where
  type : token.type = "inline"
  nesting : token.nesting = .alone
  lines : token.lines = some (row, row + 1)
  children : ∃ leaf, token.children = [leaf] ∧ leaf.type = "text" ∧ leaf.nesting = .alone ∧
    leaf.content = text

structure ClosesBlock (token : Token) : Prop where
  nesting : token.nesting = .closing
  shown : token.hidden = false

/-- Only headings have a level that could be unreadable. -/
theorem tag_eq_ok {token : Token} {block : Bool} {kind : TagKind}
    (named : TagKind.named token.name = kind) (plain : kind ≠ .heading) :
    ∃ tag, token.tag block = .ok tag ∧ tag.kind = kind := by
  subst named
  unfold tag
  simp only [if_neg plain]
  exact ⟨_, rfl, rfl⟩

theorem OpensRow.tag_eq_ok {token : Token} {row : Int} (opens : token.OpensRow row) :
    ∃ tag, token.tag true = .ok tag ∧ tag.kind = .tableRow := by
  refine Token.tag_eq_ok ?_ (by decide)
  rw [name, opens.type]
  rfl

theorem OpensCell.tag_eq_ok {token : Token} (opens : token.OpensCell) :
    ∃ tag, token.tag true = .ok tag ∧ tag.kind = .tableCell := by
  refine Token.tag_eq_ok ?_ (by decide)
  rcases opens.type with type | type <;> (rw [name, type]; rfl)

end Token

/-- A cell of the row at a line, as a parser reports it. -/
structure TableCell (row : Int) where
  text : Text
  opening : Token
  inline : Token
  closing : Token
  plain : CellText text
  opens : opening.OpensCell
  holds : inline.HoldsText row text
  closes : closing.ClosesBlock

def TableCell.tokens {row : Int} (cell : TableCell row) : List Token :=
  [cell.opening, cell.inline, cell.closing]

/-- The texts among events, each with its span. -/
def textPlaces (events : List Event) : List (Text × Span) :=
  (events.filter (·.kind == .text)).map fun event => (event.text, event.span)

theorem textPlaces_append (events others : List Event) :
    textPlaces (events ++ others) = textPlaces events ++ textPlaces others := by
  simp [textPlaces]

namespace Block.Page
variable {page : Page} {progress next after : Progress} {first second : List Token}

theorem tokens_append (ran : page.tokens progress first = .ok next)
    (goes : page.tokens next second = .ok after) :
    page.tokens progress (first ++ second) = .ok after :=
  tokens_append_eq_ok.mpr ⟨next, ran, goes⟩

theorem tokens_single {token : Token} (ran : page.token progress token = .ok after) :
    page.tokens progress [token] = .ok after :=
  tokens_single_eq_ok.mpr ran

/-- Line breaks at the end of a span are not content. -/
theorem trimmedEnd_eq {low high : Nat} {content ending : Text} (upper : low ≤ high)
    (text : page.source.slice low high = content ++ ending) (breaks : ∀ c ∈ ending, isLineEnd c = true)
    (ends : ∀ c ∈ content.getLast?, isLineEnd c = false) :
    page.trimmedEnd (.reach low high) = high - ending.length := by
  have same : Span.reach low high = { start := low, stop := high } := by
    simp only [Span.reach, Nat.max_eq_right upper]
  have none : content.reverse.takeWhile isLineEnd = [] := by
    cases shape : content.reverse with
    | nil => rfl
    | cons c front =>
      have last : c ∈ content.getLast? := by simp [← List.head?_reverse, shape]
      simp [ends c last]
  have all : ∀ c ∈ ending.reverse, isLineEnd c = true := by simpa using breaks
  rw [trimmedEnd, same, Span.text, text, List.reverse_append, List.takeWhile_append_of_pos all, none]
  simp

/-- Where a row is open: the block of the row, and the offset that the next event may start at. -/
structure InRow (progress : Progress) (row : Tag × Span) (outer : List (Tag × Span)) (pos : Nat) :
    Prop where
  blocks : progress.blocks = row :: outer
  lastStart : progress.lastStart = pos
  consumed : progress.consumed ≤ pos

private theorem InRow.floor_eq {row : Tag × Span} {outer : List (Tag × Span)} {pos : Nat}
    (inRow : InRow progress row outer pos) : progress.floor = pos := by
  rw [Progress.floor, inRow.lastStart, Nat.max_eq_left inRow.consumed]

variable {row : Int} {start stop pos : Nat} {block : Tag × Span} {outer : List (Tag × Span)}

/-- A block that opens stays open at its span, and nothing before the span is left. -/
theorem token_opening {token : Token} {tag : Tag} {span : Span} (opens : token.OpensBlock)
    (tagged : token.tag true = .ok tag) (placed : page.openingSpan progress token tag = .ok span) :
    page.token progress token = .ok { progress with
      events := progress.events ++ [{ kind := .opening, span, tag := some tag }]
      blocks := (tag, span) :: progress.blocks
      consumed := max progress.consumed span.start } := by
  rw [Page.token, opens.nesting]
  simp only [opens.shown, Bool.false_eq_true, ↓reduceIte, openBlock, tagged, placed, Progress.emit,
    Progress.consume, bind, Except.bind, pure, Except.pure]

/-- A cell that opens reaches over all that is left of the row. -/
theorem token_opens {token : Token} (opens : token.OpensCell) (inRow : InRow progress block outer pos) :
    ∃ tag, page.token progress token = .ok { progress with
      events := progress.events ++ [
        { kind := .opening, span := .reach pos block.2.stop, tag := some tag }]
      blocks := (tag, .reach pos block.2.stop) :: block :: outer
      consumed := pos } := by
  obtain ⟨tag, tagged, kind⟩ := opens.tag_eq_ok
  have enclosing : page.enclosingEnd progress = block.2.stop := by
    rw [enclosingEnd, inRow.blocks]
  have placed : page.openingSpan progress token tag = .ok (.reach pos block.2.stop) := by
    simp only [openingSpan, lineSpan?, opens.lines, inRow.floor_eq, enclosing, bind, Except.bind, pure,
      Except.pure]
  have consumed : max progress.consumed (Span.reach pos block.2.stop).start = pos :=
    Nat.max_eq_right inRow.consumed
  refine ⟨tag, ?_⟩
  rw [token_opening opens.toOpensBlock tagged placed, consumed, inRow.blocks]

/-- The text of a cell is looked for from where the cell opened. -/
private theorem token_text {token : Token} {text : Text} (holds : token.HoldsText row text)
    (filled : text ≠ []) (top : page.lines.startOf row = .ok start)
    (bottom : page.lines.startOf (row + 1) = .ok stop) (lower : start ≤ pos) (upper : pos ≤ stop)
    (floor : progress.floor = pos) (lastStart : progress.lastStart = pos) :
    let window : Inline.Window := { source := page.source, limit := stop }
    let place := window.locate text pos
    page.token progress token = .ok { progress with
      events := progress.events ++ [{ kind := .text, span := place, text }]
      consumed := max progress.consumed place.stop } := by
  intro window place
  obtain ⟨leaf, children, type, nesting, content⟩ := holds.children
  have region : page.lineSpan? progress token = .ok (some (.reach pos stop)) := by
    simp only [lineSpan?, holds.lines, top, bottom, lastStart, bind, Except.bind, pure, Except.pure,
      Nat.max_eq_right lower]
  have scanned : Inline.events window pos [leaf] =
      .ok ([{ kind := .text, span := place, text }], place.stop) := by
    have found : window.leaf? leaf pos = some { kind := .text, span := place, text } := by
      simp [Inline.Window.leaf?, type, content, filled, place]
    rw [Inline.events, Inline.Scan.tokens, Inline.Scan.token_eq, nesting]
    simp [type, found, Inline.Scan.add, Inline.Scan.tokens, Inline.Scan.finish, Inline.Scan.closeAll,
      Except.map, Event.stop]
  rw [Page.token, holds.nesting]
  simp only [holds.type, inlineTokens, region, bind, Except.bind, Option.map_some, Option.getD_some,
    Span.reach, floor, Nat.max_self, Nat.max_eq_right upper, children]
  rw [show Inline.events { source := page.source, limit := stop } pos [leaf] = _ from scanned]
  rfl

/-- A block that closes does so at the end of its content, when nothing has gone further. -/
theorem token_closes {token : Token} {tag : Tag} {span : Span} {rest : List (Tag × Span)} {last : Nat}
    (closes : token.ClosesBlock) (blocks : progress.blocks = (tag, span) :: rest)
    (trimmed : page.trimmedEnd span = last) (floor : progress.floor ≤ last) :
    page.token progress token = .ok { progress with
      events := progress.events ++ [{ kind := .closing, span := .point last, tag := some tag }]
      blocks := rest
      consumed := last } := by
  have further : max last progress.floor = last := Nat.max_eq_left floor
  have consumed : max progress.consumed last = last :=
    Nat.max_eq_right (Nat.le_trans (Nat.le_max_right ..) floor)
  have same : ({ progress with blocks := rest } : Progress).floor = progress.floor := rfl
  rw [Page.token, closes.nesting]
  simp only [closes.shown, Bool.false_eq_true, ↓reduceIte, closeBlock, blocks, emitClosing, trimmed, same,
    further, Progress.emit, Progress.consume, consumed]

theorem lastStart_snoc {events : List Event} {event : Event} (same : progress.events = events ++ [event])
    (starts : event.start = pos) : progress.lastStart = pos := by
  simp [Progress.lastStart, same, starts]

/-- One cell of an open row: its text is where the search finds it, and after the cell the scan is at the
end of the row's content. -/
theorem tokens_cell (cell : TableCell row) {last : Nat} (inRow : InRow progress block outer pos)
    (reaches : block.2.stop = stop) (top : page.lines.startOf row = .ok start)
    (bottom : page.lines.startOf (row + 1) = .ok stop) (lower : start ≤ pos) (upper : pos ≤ last)
    (ends : last ≤ stop) (trimmed : page.trimmedEnd (.reach pos stop) = last)
    {place : Span} (found : { source := page.source, limit := stop : Inline.Window }.locate cell.text pos =
      place) (fits : place.stop ≤ last) : ∃ next,
    page.tokens progress cell.tokens = .ok next ∧ InRow next block outer last ∧
      textPlaces next.events = textPlaces progress.events ++ [(cell.text, place)] := by
  have filled : cell.text ≠ [] := by
    obtain ⟨c, rest, shape, -⟩ := cell.plain.begins
    simp [shape]
  have ordered := place.ordered
  obtain ⟨tag, opened⟩ := @token_opens page _ _ _ _ _ cell.opens inRow
  rw [reaches] at opened
  let inside : Progress := { progress with
    events := progress.events ++ [{ kind := .opening, span := .reach pos stop, tag := some tag }]
    blocks := (tag, .reach pos stop) :: block :: outer
    consumed := pos }
  have begins : inside.lastStart = pos := lastStart_snoc rfl rfl
  have floor : inside.floor = pos := by rw [Progress.floor, begins, Nat.max_self]
  have filledIn := token_text cell.holds filled top bottom lower (Nat.le_trans upper ends) floor begins
  simp only [found] at filledIn
  let read : Progress := { inside with
    events := inside.events ++ [{ kind := .text, span := place, text := cell.text }]
    consumed := max inside.consumed place.stop }
  have readFloor : read.floor ≤ last := by
    have readStart : read.lastStart = place.start := lastStart_snoc rfl rfl
    rw [Progress.floor, readStart]
    exact Nat.max_le.mpr ⟨Nat.le_trans ordered fits, Nat.max_le.mpr ⟨upper, fits⟩⟩
  -- The cell's block reaches to the end of the row, so it closes at the end of the row's content, however
  -- far before that the cell's text ended.
  have closed : page.token read cell.closing = .ok _ :=
    token_closes cell.closes rfl trimmed readFloor
  have ran := tokens_append (tokens_single opened)
    (tokens_append (tokens_single filledIn) (tokens_single closed))
  refine ⟨_, ran, ⟨rfl, lastStart_snoc rfl rfl, Nat.le_refl _⟩, ?_⟩
  simp [read, inside, textPlaces]

/-- A row that opens on lines that nothing has reached yet. -/
theorem token_opens_row {token : Token} (opens : token.OpensRow row) (floor : progress.floor ≤ start)
    (top : page.lines.startOf row = .ok start) (bottom : page.lines.startOf (row + 1) = .ok stop) :
    ∃ tag, page.token progress token = .ok { progress with
      events := progress.events ++ [
        { kind := .opening, span := .reach start stop, tag := some tag }]
      blocks := (tag, .reach start stop) :: progress.blocks
      consumed := start } := by
  obtain ⟨tag, tagged, kind⟩ := opens.tag_eq_ok
  obtain ⟨lastStart, consumed⟩ := Nat.max_le.mp floor
  have region : page.lineSpan? progress token = .ok (some (.reach start stop)) := by
    simp only [lineSpan?, opens.lines, top, bottom, bind, Except.bind, pure, Except.pure,
      Nat.max_eq_left lastStart]
  have placed : page.openingSpan progress token tag = .ok (.reach start stop) := by
    simp only [openingSpan, region, kind, reduceCtorEq, ↓reduceIte, bind, Except.bind, pure, Except.pure]
  have further : max progress.consumed (Span.reach start stop).start = start :=
    Nat.max_eq_right consumed
  refine ⟨tag, ?_⟩
  rw [token_opening opens.toOpensBlock tagged placed, further]

/-- This line of the page is a table row of these cells with a line break after it. -/
structure RowAt (page : Page) (row : Int) (texts : List Text) (ending : Text) (start stop : Nat) :
    Prop where
  indexed : page.lines = .ofText page.source
  top : page.lines.startOf row = .ok start
  bottom : page.lines.startOf (row + 1) = .ok stop
  line : page.source.slice start stop = rowLine texts ++ ending
  broken : ∀ c ∈ ending, isLineEnd c = true

namespace RowAt
variable {texts : List Text} {ending text : Text}

theorem stop_eq (laid : RowAt page row texts ending start stop) :
    start + (rowLine texts).length + ending.length = stop := by
  have lengths := congrArg List.length laid.line
  have within : stop ≤ page.source.length := by
    have bottom := laid.bottom
    rw [laid.indexed] at bottom
    exact Lines.startOf_le bottom
  have filled : 0 < (rowLine texts).length := by cases texts <;> simp [rowLine]
  simp only [Text.slice, List.length_take, List.length_drop, List.length_append] at lengths
  omega

/-- After the last bar there is nothing but the line break. -/
theorem rest_eq (laid : RowAt page row texts ending start stop) :
    page.source.slice (start + (rowLine texts).length) stop = ending := by
  have stops := laid.stop_eq
  have line := congrArg (List.drop (rowLine texts).length) laid.line
  have left : stop - start - (rowLine texts).length = stop - (start + (rowLine texts).length) := by omega
  rwa [Text.slice, List.drop_take, List.drop_drop, List.drop_left, left] at line

theorem trimmed_row (laid : RowAt page row texts ending start stop) :
    page.trimmedEnd (.reach start stop) = start + (rowLine texts).length := by
  have stops := laid.stop_eq
  have line := laid.line
  obtain ⟨front, bar⟩ := rowLine_bar texts
  rw [bar] at line
  rw [trimmedEnd_eq (by omega) line laid.broken (by simp; decide)]
  omega

theorem trimmed_rest (laid : RowAt page row texts ending start stop) :
    page.trimmedEnd (.reach (start + (rowLine texts).length) stop) =
      start + (rowLine texts).length := by
  have stops := laid.stop_eq
  have rest := laid.rest_eq
  rw [← List.nil_append ending] at rest
  rw [trimmedEnd_eq (by omega) rest laid.broken (by simp)]
  omega

/-- From the start of the row the first cell is found in its place: neither the bar nor the blank before
it could be taken for the beginning of its text. -/
theorem first_found (laid : RowAt page row (text :: texts) ending start stop) (plain : CellText text) :
    { source := page.source, limit := stop : Inline.Window }.locate text start =
      .reach (start + 2) (start + 2 + text.length) := by
  obtain ⟨c, rest, rfl, visible⟩ := plain.begins
  have bar : c ≠ '|' := fun same => plain.unbarred (same ▸ List.mem_cons_self)
  have blank : c ≠ ' ' := by
    rintro rfl
    cases visible
  apply Inline.Window.locate_found (List.cons_ne_nil c rest)
  simp only [laid.line, rowLine, List.append_assoc, List.cons_append, List.nil_append]
  rw [Text.seek_past bar, Text.seek_past blank]
  exact Text.seek_here (c :: rest) _ _

/-- After the last bar no cell is found. -/
theorem rest_missed (laid : RowAt page row texts ending start stop) (plain : CellText text) :
    { source := page.source, limit := stop : Inline.Window }.locate text
      (start + (rowLine texts).length) = .point (start + (rowLine texts).length) := by
  obtain ⟨c, rest, rfl, -⟩ := plain.begins
  apply Inline.Window.locate_missed (List.cons_ne_nil c rest)
  simp only [laid.rest_eq]
  apply Text.seek_absent
  intro member
  have breaks := laid.broken c member
  rw [plain.unbroken c List.mem_cons_self] at breaks
  cases breaks

end RowAt

/-- Once the scan is at the end of the row's content it stays there, and no cell is found. -/
theorem tokens_later {texts : List Text} {ending : Text} (cells : List (TableCell row))
    (laid : RowAt page row texts ending start stop) (reaches : block.2.stop = stop)
    (inRow : InRow progress block outer (start + (rowLine texts).length)) : ∃ next,
    page.tokens progress (cells.flatMap TableCell.tokens) = .ok next ∧
      InRow next block outer (start + (rowLine texts).length) ∧
      textPlaces next.events = textPlaces progress.events ++
        cells.map fun cell => (cell.text, .point (start + (rowLine texts).length)) := by
  induction cells generalizing progress with
  | nil => exact ⟨progress, rfl, inRow, by simp⟩
  | cons cell rest ih =>
    have stops := laid.stop_eq
    obtain ⟨between, ran, stays, places⟩ := tokens_cell cell inRow reaches laid.top laid.bottom
      (Nat.le_add_right ..) (Nat.le_refl _) (by omega) laid.trimmed_rest (laid.rest_missed cell.plain)
      (Nat.le_refl _)
    obtain ⟨next, goes, still, later⟩ := ih stays
    refine ⟨next, tokens_append ran goes, still, ?_⟩
    rw [later, places, List.map_cons, List.append_assoc]
    rfl

/-- The tokens of a whole row: of all its cells only the first is found in its place. -/
theorem tokens_row {opening closing : Token} {first : TableCell row} {rest : List (TableCell row)}
    {ending : Text} (opens : opening.OpensRow row) (closes : closing.ClosesBlock)
    (laid : RowAt page row ((first :: rest).map (·.text)) ending start stop)
    (floor : progress.floor ≤ start) :
    let last := start + (rowLine ((first :: rest).map (·.text))).length
    ∃ next, page.tokens progress
        (opening :: (first :: rest).flatMap TableCell.tokens ++ [closing]) = .ok next ∧
      textPlaces next.events = textPlaces progress.events ++
        (first.text, .reach (start + 2) (start + 2 + first.text.length)) ::
          rest.map fun cell => (cell.text, .point last) := by
  intro last
  have stops : last + ending.length = stop := laid.stop_eq
  have inside : start + 2 + first.text.length ≤ last := by
    simp only [last, List.map_cons, rowLine, List.length_append, List.length_cons]
    omega
  obtain ⟨tag, opened⟩ := token_opens_row opens floor laid.top laid.bottom
  let begun : Progress := { progress with
    events := progress.events ++ [{ kind := .opening, span := .reach start stop, tag := some tag }]
    blocks := (tag, .reach start stop) :: progress.blocks
    consumed := start }
  have inRow : InRow begun (tag, .reach start stop) progress.blocks start :=
    ⟨rfl, lastStart_snoc rfl rfl, Nat.le_refl _⟩
  have reaches : (tag, Span.reach start stop).2.stop = stop := Nat.max_eq_right (by omega)
  have fits : (Span.reach (start + 2) (start + 2 + first.text.length)).stop ≤ last :=
    Nat.max_le.mpr ⟨by omega, inside⟩
  obtain ⟨between, ran, stays, place⟩ := tokens_cell first inRow reaches laid.top laid.bottom
    (Nat.le_refl _) (by omega) (by omega) laid.trimmed_row (laid.first_found first.plain) fits
  obtain ⟨filled, goes, still, later⟩ := tokens_later rest laid reaches stays
  have closed : page.token filled closing = .ok _ :=
    token_closes closes still.blocks laid.trimmed_row (Nat.le_of_eq still.floor_eq)
  have cells := tokens_append (tokens_single opened) (tokens_append ran goes)
  refine ⟨_, tokens_append cells (tokens_single closed), ?_⟩
  have before : textPlaces begun.events = textPlaces progress.events := by simp [begun, textPlaces]
  have none (span : Span) : textPlaces [{ kind := .closing, span, tag := some tag }] = [] := rfl
  rw [textPlaces_append, later, place, before, none, List.append_nil, List.append_assoc]
  rfl

end Block.Page

/-- A row on its own, read from its tokens. The first cell has its exact place in the row. Every later one
has only the empty span at the end of the row's content, since the first cell counts as reaching up to
there. So the cells of a row are all in their places exactly when there is a single one. -/
theorem row_texts_placed {source ending : Text} {row : Int} {start stop : Nat} {opening closing : Token}
    {first : TableCell row} {rest : List (TableCell row)} (opens : opening.OpensRow row)
    (closes : closing.ClosesBlock)
    (laid : Block.Page.RowAt { source, lines := .ofText source } row ((first :: rest).map (·.text))
      ending start stop) :
    let texts := (first :: rest).map (·.text)
    ∃ events, Event.ofTokens source
        (opening :: (first :: rest).flatMap TableCell.tokens ++ [closing]) = .ok events ∧
      textPlaces events = (first.text, .reach (start + 2) (start + 2 + first.text.length)) ::
        rest.map (fun cell => (cell.text, .point (start + (rowLine texts).length))) ∧
      (cellPlaces start texts).map (·.text source) = texts ∧
      (textPlaces events = texts.zip (cellPlaces start texts) ↔ rest = []) := by
  intro texts
  have untouched : ({} : Block.Progress).floor ≤ start := Nat.zero_le start
  obtain ⟨next, ran, places⟩ := Block.Page.tokens_row opens closes laid untouched
  refine ⟨next.events, ?_, places, ?_, ?_⟩
  · rw [Event.ofTokens, ran]
    rfl
  · apply cellPlaces_text
    have whole : rowLine texts ++ ending <+: source.drop start := laid.line ▸ List.take_prefix ..
    exact (List.prefix_append ..).trans whole
  · rw [places]
    cases rest with
    | nil => simp [texts, cellPlaces, textPlaces]
    | cons cell others =>
      have apart (low high : Nat) : Span.point low ≠ .reach high (high + cell.text.length) := by
        obtain ⟨c, rest, shape, -⟩ := cell.plain.begins
        simp only [Span.point, Span.reach, shape, List.length_cons, ne_eq, Span.mk.injEq]
        omega
      simp [texts, cellPlaces, textPlaces, apart]

def cellOf (text : Text) (plain : CellText text) : TableCell 0 where
  text
  opening := { type := "td_open", nesting := .opening }
  inline := { type := "inline", lines := some (0, 1), children := [{ type := "text", content := text }] }
  closing := { type := "td_close", nesting := .closing }
  plain
  opens := ⟨⟨rfl, rfl⟩, .inl rfl, rfl⟩
  holds := ⟨rfl, rfl, rfl, _, rfl, rfl, rfl, rfl⟩
  closes := ⟨rfl, rfl⟩

def rowOpening : Token := { type := "tr_open", nesting := .opening, lines := some (0, 1) }

def rowClosing : Token := { type := "tr_close", nesting := .closing }

/-- The line `| a | b |`. -/
def pairLine : Text := ['|', ' ', 'a', ' ', '|', ' ', 'b', ' ', '|', '\n']

def cellA : TableCell 0 := cellOf ['a'] ⟨by decide, by simp [Block.isLineEnd], 'a', [], rfl, rfl⟩

def cellB : TableCell 0 := cellOf ['b'] ⟨by decide, by simp [Block.isLineEnd], 'b', [], rfl, rfl⟩

/-- The second cell is at 6, and its text is not found there. -/
theorem pairLine_texts_placed : ∃ events,
    Event.ofTokens pairLine (rowOpening :: [cellA, cellB].flatMap TableCell.tokens ++ [rowClosing]) =
      .ok events ∧
    textPlaces events = [(['a'], .reach 2 3), (['b'], .point 9)] ∧
    textPlaces events ≠ [['a'], ['b']].zip (cellPlaces 0 [['a'], ['b']]) := by
  have laid : Block.Page.RowAt { source := pairLine, lines := .ofText pairLine } 0
      ([cellA, cellB].map (·.text)) ['\n'] 0 10 :=
    ⟨rfl, rfl, rfl, rfl, by simp [Block.isLineEnd]⟩
  have opens : rowOpening.OpensRow 0 := ⟨⟨rfl, rfl⟩, rfl, rfl⟩
  have closes : rowClosing.ClosesBlock := ⟨rfl, rfl⟩
  obtain ⟨events, ran, places, -, single⟩ := row_texts_placed opens closes laid
  exact ⟨events, ran, places, fun same => List.cons_ne_nil _ _ (single.mp same)⟩

def pairEvents : List Event :=
  let row : Tag := { kind := .tableRow, name := "tr" }
  let cell : Tag := { kind := .tableCell, name := "td" }
  [{ kind := .opening, span := .reach 0 10, tag := some row },
    { kind := .opening, span := .reach 0 10, tag := some cell },
    { kind := .text, span := .reach 2 3, text := ['a'] },
    { kind := .closing, span := .point 9, tag := some cell },
    { kind := .opening, span := .reach 9 10, tag := some cell },
    { kind := .text, span := .point 9, text := ['b'] },
    { kind := .closing, span := .point 9, tag := some cell },
    { kind := .closing, span := .point 9, tag := some row }]

/-- The second cell's text is in the row, but no text among the events has its place. -/
theorem pairLine_misses_second :
    Event.ofTokens pairLine (rowOpening :: [cellA, cellB].flatMap TableCell.tokens ++ [rowClosing]) =
      .ok pairEvents ∧
    (Span.reach 6 7).text pairLine = cellB.text ∧
    ∀ event ∈ pairEvents, event.kind = .text → event.span ≠ .reach 6 7 := by
  refine ⟨?_, by cbv, by decide⟩
  cbv

end Emend
