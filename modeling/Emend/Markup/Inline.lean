import Emend.Markup.Token

/-!
Finding the inline tokens of one block in its source. A scan walks the window of the block from left to
right: each token is looked for from where the one before it ended, and what cannot be found verbatim
gets an empty span there. So every token has an extent that starts no earlier than the scan, and the
scan goes on at the extent's end.

An opening event is held back until its closing one, because it spans the whole element; the events in
between wait with it. -/
namespace Emend.Inline

/-- The source of a block, read up to a limit. -/
structure Window where
  source : Text
  limit : Nat

namespace Window

/-- The first place at or after `pos` where `needle` stands, or the empty span at `pos`. -/
def locate (window : Window) (needle : Text) (pos : Nat) : Span :=
  if needle.isEmpty then .point pos
  else
    match window.source.find? needle pos window.limit with
    | some found => .reach found (found + needle.length)
    | none => .point pos

/-- The offset after the parenthesis that brings `depth` back to zero, in a text read from `offset`. -/
def matchingParen : Text → Nat → Nat → Option Nat
  | [], _, _ => none
  | c :: rest, depth, offset =>
    if c = '(' then matchingParen rest (depth + 1) (offset + 1)
    else if c = ')' then
      if depth = 1 then some (offset + 1) else matchingParen rest (depth - 1) (offset + 1)
    else matchingParen rest depth (offset + 1)

/-- Where a destination in parentheses or a label in brackets ends that starts at `start`. -/
def destinationEnd (window : Window) (start : Nat) : Option Nat :=
  match window.source.slice start window.limit with
  | '(' :: rest => matchingParen rest 1 (start + 1)
  | '[' :: _ => (window.source.find? [']'] start window.limit).map (· + 1)
  | _ => none

/-- The closing bracket of a link or an image, with the destination or label that may follow it. -/
def bracketSpan (window : Window) (pos : Nat) : Span :=
  let bracket := window.locate [']'] pos
  match window.destinationEnd bracket.stop with
  | some stop => .reach bracket.start stop
  | none => bracket

/-- A code span: its marks with all between them, or the first mark alone when there is no second. -/
def codeSpan (window : Window) (markup : Text) (pos : Nat) : Span :=
  let first := window.locate markup pos
  let second := window.locate markup first.stop
  if second.isEmpty then first else .reach first.start second.stop

/-- A footnote reference, from its opening mark to the next closing bracket. -/
def footnoteSpan (window : Window) (pos : Nat) : Span :=
  let mark := window.locate ['[', '^'] pos
  let bracket := window.locate [']'] mark.stop
  .reach mark.start (max mark.stop bracket.stop)

def openingSpan (window : Window) (token : Token) (pos : Nat) : Span :=
  if token.type = "link_open" then
    window.locate (if token.markup = "autolink".toList then ['<'] else ['[']) pos
  else window.locate token.markup pos

def closingSpan (window : Window) (token : Token) (pos : Nat) : Span :=
  if token.type = "link_close" then
    if token.markup = "autolink".toList then window.locate ['>'] pos else window.bracketSpan pos
  else window.locate token.markup pos

/-- The leaf event of a token that stands alone, if it has one. -/
def leaf? (window : Window) (token : Token) (pos : Nat) : Option Event :=
  match token.type with
  | "text" =>
    if token.content.isEmpty then none
    else some { kind := .text, span := window.locate token.content pos, text := token.content }
  | "code_inline" =>
    some { kind := .code, span := window.codeSpan token.markup pos, text := token.content }
  | "html_inline" =>
    some { kind := .html, span := window.locate token.content pos, text := token.content }
  | "softbreak" => some { kind := .softBreak, span := window.locate ['\n'] pos }
  | "hardbreak" => some { kind := .hardBreak, span := window.locate ['\n'] pos }
  | "footnote_ref" =>
    some { kind := .footnoteReference, span := window.footnoteSpan pos, text := token.label }
  | _ => none

end Window

/-- An opening event that waits for its closing one, with the events after it. -/
structure Held where
  opening : Event
  inner : List Event := []

/-- A held element with its closing delimiter: the opening event reaches over all of it. -/
def Held.close (held : Held) (closing : Span) : List Event :=
  let span := Span.reach held.opening.start (max held.opening.stop closing.stop)
  { held.opening with span } ::
    held.inner ++ [{ kind := .closing, span := closing, tag := held.opening.tag }]

/-- How far a scan has come, what it holds back (innermost first), and what it has let go, in order. -/
structure Scan where
  pos : Nat
  held : List Held := []
  done : List Event := []

namespace Scan

/-- Adds finished events, to the innermost element that is held back if there is one. -/
def add (scan : Scan) (events : List Event) : Scan :=
  match scan.held with
  | [] => { scan with done := scan.done ++ events }
  | held :: rest => { scan with held := { held with inner := held.inner ++ events } :: rest }

/-- Holds back the opening event of an element that starts with the delimiter `span`. -/
def hold (scan : Scan) (tag : Tag) (span : Span) : Scan :=
  { scan with
    pos := span.stop
    held := { opening := { kind := .opening, span, tag := some tag } } :: scan.held }

/-- Lets the innermost held element go, closed by the delimiter `span`. -/
def release (scan : Scan) (span : Span) : Except Fault Scan :=
  match scan.held with
  | [] => .error .nothingOpen
  | held :: rest => .ok ({ scan with pos := span.stop, held := rest }.add (held.close span))

mutual

/-- One token. An image is an element around the tokens that describe it. -/
def token (window : Window) (scan : Scan) : Token → Except Fault Scan
  | tok@{ nesting := .opening, .. } =>
    (tok.tag false).map fun tag => scan.hold tag (window.openingSpan tok scan.pos)
  | tok@{ nesting := .closing, .. } => scan.release (window.closingSpan tok scan.pos)
  | tok@{ type, nesting := .alone, children, .. } =>
    if type = "image" then do
      let tag ← tok.tag false
      let inside ← tokens window (scan.hold tag (window.locate ['!', '['] scan.pos)) children
      inside.release (window.bracketSpan inside.pos)
    else
      match window.leaf? tok scan.pos with
      | some event => .ok ({ scan with pos := event.stop }.add [event])
      | none => .ok scan

def tokens (window : Window) (scan : Scan) : List Token → Except Fault Scan
  | [] => .ok scan
  | head :: rest =>
    match token window scan head with
    | .ok next => tokens window next rest
    | .error fault => .error fault

end

/-- One token, by its nesting: the step in terms of the token's own fields. -/
theorem token_eq (window : Window) (scan : Scan) (tok : Token) :
    token window scan tok =
      match tok.nesting with
      | .opening => (tok.tag false).map fun tag => scan.hold tag (window.openingSpan tok scan.pos)
      | .closing => scan.release (window.closingSpan tok scan.pos)
      | .alone =>
        if tok.type = "image" then do
          let tag ← tok.tag false
          let inside ← tokens window (scan.hold tag (window.locate ['!', '['] scan.pos)) tok.children
          inside.release (window.bracketSpan inside.pos)
        else
          match window.leaf? tok scan.pos with
          | some event => .ok ({ scan with pos := event.stop }.add [event])
          | none => .ok scan := by
  obtain ⟨_, _, nesting, _⟩ := tok
  cases nesting <;> rfl

/-- What was held back when the tokens ran out is closed where the scan stopped, innermost first. -/
def closeAll (pos : Nat) : List Held → List Event → List Event
  | [], inner => inner
  | held :: outer, inner =>
    closeAll pos outer ({ held with inner := held.inner ++ inner }.close (.point pos))

def finish (scan : Scan) : List Event :=
  scan.done ++ closeAll scan.pos scan.held []

end Scan

/-- The events of the inline tokens of one block, looked for from `start` up to the window's limit, and
where the scan for them ended. -/
def events (window : Window) (start : Nat) (tokens : List Token) : Except Fault (List Event × Nat) :=
  (Scan.tokens window { pos := start } tokens).map fun scan => (scan.finish, scan.pos)

end Emend.Inline
