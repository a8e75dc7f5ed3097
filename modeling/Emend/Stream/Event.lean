import Emend.Source.Span

/-!
The structural units of a document. A container (a heading, a paragraph, a link) is a pair of events
that carry the same tag; everything else is a leaf with its literal text. Each event has the span of
source that it stands for: all of the element on the opening event, its closing delimiter or the empty
end of its content on the closing one, the literal itself on a leaf. -/
namespace Emend

inductive EventKind where
  | opening
  | closing
  | text
  | code
  | html
  | softBreak
  | hardBreak
  | rule
  | footnoteReference
deriving DecidableEq, Repr

/-- What a container is; `other` is any element without a kind of its own. -/
inductive TagKind where
  | heading
  | paragraph
  | blockQuote
  | bulletList
  | orderedList
  | listItem
  | codeBlock
  | table
  | tableHead
  | tableBody
  | tableRow
  | tableCell
  | emphasis
  | strong
  | strikethrough
  | link
  | image
  | other
deriving DecidableEq, Repr

def EventKind.label : EventKind → String
  | opening => "START"
  | closing => "END"
  | text => "TEXT"
  | code => "CODE"
  | html => "HTML"
  | softBreak => "SOFT_BREAK"
  | hardBreak => "HARD_BREAK"
  | rule => "RULE"
  | footnoteReference => "FOOTNOTE_REFERENCE"

def EventKind.all : List EventKind :=
  [opening, closing, text, code, html, softBreak, hardBreak, rule, footnoteReference]

def EventKind.ofLabel? (name : String) : Option EventKind :=
  all.find? (·.label == name)

def TagKind.label : TagKind → String
  | heading => "HEADING"
  | paragraph => "PARAGRAPH"
  | blockQuote => "BLOCK_QUOTE"
  | bulletList => "BULLET_LIST"
  | orderedList => "ORDERED_LIST"
  | listItem => "LIST_ITEM"
  | codeBlock => "CODE_BLOCK"
  | table => "TABLE"
  | tableHead => "TABLE_HEAD"
  | tableBody => "TABLE_BODY"
  | tableRow => "TABLE_ROW"
  | tableCell => "TABLE_CELL"
  | emphasis => "EMPHASIS"
  | strong => "STRONG"
  | strikethrough => "STRIKETHROUGH"
  | link => "LINK"
  | image => "IMAGE"
  | other => "OTHER"

def TagKind.all : List TagKind :=
  [heading, paragraph, blockQuote, bulletList, orderedList, listItem, codeBlock, table, tableHead,
    tableBody, tableRow, tableCell, emphasis, strong, strikethrough, link, image, other]

def TagKind.ofLabel? (name : String) : Option TagKind :=
  all.find? (·.label == name)

/-- A container: its kind, the parser's own name for it, and what belongs to single kinds only. -/
structure Tag where
  kind : TagKind
  block : Bool := true
  name : String := ""
  level : Option Int := none
  url : Option Text := none
  title : Option Text := none
  info : Option Text := none
deriving DecidableEq, Repr

/-- One structural unit: the tag belongs to containers, the text to leaves. -/
structure Event where
  kind : EventKind
  span : Span
  tag : Option Tag := none
  text : Text := []
deriving DecidableEq, Repr

namespace Event

def start (event : Event) : Nat :=
  event.span.start

def stop (event : Event) : Nat :=
  event.span.stop

/-- Whether the event's tag is of a kind; no kind given asks for nothing. -/
def tagged (event : Event) : Option TagKind → Bool
  | none => true
  | some kind => event.tag.any (·.kind == kind)

/-- Whether the event opens a container, of the given kind if there is one. -/
def isOpening (event : Event) (kind : Option TagKind := none) : Bool :=
  event.kind == .opening && event.tagged kind

/-- Whether the event closes a container, of the given kind if there is one. -/
def isClosing (event : Event) (kind : Option TagKind := none) : Bool :=
  event.kind == .closing && event.tagged kind

/-- The longest text that is shown whole. -/
def shownLength : Nat := 20

/-- The text cut short for display: a long one keeps its first characters and ends in three dots. -/
def shownText (event : Event) : Text :=
  if shownLength < event.text.length then event.text.take (shownLength - 3) ++ ['.', '.', '.']
  else event.text

/-- What an event is shown by: its tag with the level if it has a tag, its quoted text otherwise. -/
def label (event : Event) : String :=
  match event.tag with
  | some tag => tag.kind.label ++ (tag.level.map toString).getD ""
  | none => String.ofList event.shownText.quoted

def render (event : Event) : String :=
  s!"Event({event.kind.label}, {event.label}, {event.span.render})"

end Event
end Emend
