import Emend.Markup.Inline
import Emend.Stream.Document
import Emend.Text.Blank

/-!
From tokens to events. Block containers span their whole lines, the final line break included; a heading
that is marked by number signs starts at the first of them. A closing event stands at the end of the
content, before the trailing line break. The inline tokens of a block are found by a scan of its lines.

Event starts never decrease along the result. What keeps them in order is the floor: no event starts
before the event emitted last, nor before the place that the scans so far have consumed. -/
namespace Emend.Block

structure Page where
  source : Text
  lines : Lines

/-- The events so far in order, the open blocks with the innermost first, and the furthest offset that
has been consumed. -/
structure Progress where
  events : List Event := []
  blocks : List (Tag × Span) := []
  consumed : Nat := 0

namespace Progress

def lastStart (progress : Progress) : Nat :=
  (progress.events.getLast?.map Event.start).getD 0

/-- The earliest offset that the next event may start at. -/
def floor (progress : Progress) : Nat :=
  max progress.lastStart progress.consumed

def emit (progress : Progress) (events : List Event) : Progress :=
  { progress with events := progress.events ++ events }

/-- The progress with everything before `offset` consumed. -/
def consume (progress : Progress) (offset : Nat) : Progress :=
  { progress with consumed := max progress.consumed offset }

end Progress

def isLineEnd (c : Char) : Bool :=
  c == '\r' || c == '\n'

namespace Page

/-- The end of a span's content: the line breaks at its end do not count. -/
def trimmedEnd (page : Page) (span : Span) : Nat :=
  span.stop - ((span.text page.source).reverse.takeWhile isLineEnd).length

/-- The end of the innermost open block, or of the source. -/
def enclosingEnd (page : Page) (progress : Progress) : Nat :=
  match progress.blocks with
  | [] => page.source.length
  | (_, span) :: _ => span.stop

/-- The lines of a token, from no earlier than the event emitted last; none if it knows no lines. -/
def lineSpan? (page : Page) (progress : Progress) (token : Token) : Except Fault (Option Span) :=
  match token.lines with
  | none => .ok none
  | some (first, last) => do
    let top ← page.lines.startOf first
    let bottom ← page.lines.startOf last
    return some (.reach (max top progress.lastStart) bottom)

/-- The lines of a token, or the empty span at the floor if it knows no lines. -/
def lineSpan (page : Page) (progress : Progress) (token : Token) : Except Fault Span :=
  return (← page.lineSpan? progress token).getD (.point progress.floor)

/-- The span of a heading within its lines: from its first number sign, if it is marked by them. -/
def headingSpan (page : Page) (markup : Text) (span : Span) : Span :=
  if ['#'].isPrefixOf markup then
    match page.source.find? markup span.start span.stop with
    | some mark => .reach mark span.stop
    | none => span
  else span

/-- The span of a block that opens: its lines if it knows them, else from the floor to the end of the
block around it. -/
def openingSpan (page : Page) (progress : Progress) (token : Token) (tag : Tag) : Except Fault Span := do
  match ← page.lineSpan? progress token with
  | none => return .reach progress.floor (page.enclosingEnd progress)
  | some span => return if tag.kind = .heading then page.headingSpan token.markup span else span

def openBlock (page : Page) (progress : Progress) (token : Token) : Except Fault Progress := do
  let tag ← token.tag true
  let span ← page.openingSpan progress token tag
  let emitted := progress.emit [{ kind := .opening, span, tag := some tag }]
  return { emitted with blocks := (tag, span) :: progress.blocks }.consume span.start

/-- Ends an element of these lines: at the end of its content, or at the floor if that is further. -/
def emitClosing (page : Page) (progress : Progress) (tag : Tag) (span : Span) : Progress :=
  let stop := max (page.trimmedEnd span) progress.floor
  (progress.emit [{ kind := .closing, span := .point stop, tag := some tag }]).consume stop

def closeBlock (page : Page) (progress : Progress) : Except Fault Progress :=
  match progress.blocks with
  | [] => .error .nothingOpen
  | (tag, span) :: rest => .ok (page.emitClosing { progress with blocks := rest } tag span)

/-- Whether a line closes a fence: it holds the fence's marks and more of the same, and nothing else but
white space around them. -/
def closesFence (page : Page) (line : Int) (markup : Text) : Except Fault Bool := do
  let start ← page.lines.startOf line
  let stop ← page.lines.startOf (line + 1)
  let text := (page.source.slice start stop).strip
  match markup with
  | [] => return false
  | mark :: _ => return markup.isPrefixOf text && (text.trim (· == mark)).isEmpty

/-- The body of a fence: the lines after the first, without the last one if it closes the fence. -/
def fenceBody (page : Page) (span : Span) (markup : Text) (first last : Int) : Except Fault Span := do
  let top ← page.lines.startOf (first + 1)
  let start := max span.start (min top span.stop)
  if first + 1 < last then
    if ← page.closesFence (last - 1) markup then
      return .reach start (← page.lines.startOf (last - 1))
  return .reach start span.stop

def codeBody (page : Page) (token : Token) (span : Span) : Except Fault Span :=
  match token.type, token.lines with
  | "fence", some (first, last) => page.fenceBody span token.markup first last
  | _, _ => .ok (.reach span.start (page.trimmedEnd span))

/-- A code block: a container around its content, which is one text. -/
def codeBlock (page : Page) (progress : Progress) (token : Token) : Except Fault Progress := do
  let span ← page.lineSpan progress token
  let info := token.info.strip
  let tag : Tag := {
    kind := .codeBlock
    name := token.type
    info := if info.isEmpty then none else some info }
  let body ← page.codeBody token span
  let opened := progress.emit [{ kind := .opening, span, tag := some tag }]
  let filled :=
    if token.content.isEmpty then opened
    else opened.emit [{ kind := .text, span := body, text := token.content }]
  return page.emitClosing filled tag span

/-- The inline tokens of a block, scanned for in its lines from the floor on. -/
def inlineTokens (page : Page) (progress : Progress) (token : Token) : Except Fault Progress := do
  let region ← page.lineSpan? progress token
  let limit := (region.map Span.stop).getD (page.enclosingEnd progress)
  let start := max ((region.map Span.start).getD 0) progress.floor
  let window : Inline.Window := { source := page.source, limit := max start limit }
  let (events, pos) ← Inline.events window start token.children
  return (progress.emit events).consume pos

/-- One block token. A hidden container leaves no trace, and neither does a token of an unknown type
that stands alone. -/
def token (page : Page) (progress : Progress) (token : Token) : Except Fault Progress :=
  match token.nesting with
  | .opening => if token.hidden then .ok progress else page.openBlock progress token
  | .closing => if token.hidden then .ok progress else page.closeBlock progress
  | .alone =>
    match token.type with
    | "inline" => page.inlineTokens progress token
    | "fence" | "code_block" => page.codeBlock progress token
    | "hr" => do
      let span ← page.lineSpan progress token
      return progress.emit [{ kind := .rule, span := .reach span.start (page.trimmedEnd span) }]
    | "html_block" => do
      let span ← page.lineSpan progress token
      return progress.emit [{ kind := .html, span, text := token.content }]
    | _ => .ok progress

def tokens (page : Page) : Progress → List Token → Except Fault Progress
  | progress, [] => .ok progress
  | progress, head :: rest =>
    match page.token progress head with
    | .ok next => page.tokens next rest
    | .error fault => .error fault

end Page
end Emend.Block

namespace Emend

/-- The events that a source's tokens stand for, in order, each with its span of the source. -/
def Event.ofTokens (source : Text) (tokens : List Token) : Except Fault (List Event) :=
  (Block.Page.tokens { source, lines := .ofText source } {} tokens).map (·.events)

def Document.ofTokens (source : Text) (tokens : List Token) : Except Fault Document :=
  (Event.ofTokens source tokens).map fun events => { source, events }

end Emend
