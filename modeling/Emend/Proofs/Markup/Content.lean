import Emend.Markup.Token

/-! Inline content as a tree: how it is written, which tokens report it, and where its events stand when
it is written at an offset. What could be taken for something else has no place in the tree: texts are not
empty, marks do not occur inside the code that they enclose, and destinations have no parentheses. -/
namespace Emend.Inline

/-- A leaf of inline content. The content that a code span is reported with may differ from what stands
between its marks, in which the marks do not occur before the end. -/
inductive Leaf where
  | text (literal : Text) (substance : literal ≠ [])
  | html (literal : Text) (substance : literal ≠ [])
  | softBreak
  | hardBreak
  | code (marks raw content : Text) (first : Text.seek marks (raw ++ marks) 0 = some raw.length)

namespace Leaf

def render : Leaf → Text
  | text literal _ | html literal _ => literal
  | softBreak | hardBreak => ['\n']
  | code marks raw _ _ => marks ++ raw ++ marks

def kind : Leaf → EventKind
  | text .. => .text
  | html .. => .html
  | softBreak => .softBreak
  | hardBreak => .hardBreak
  | code .. => .code

def content : Leaf → Text
  | text literal _ | html literal _ => literal
  | softBreak | hardBreak => []
  | code _ _ content _ => content

def event (leaf : Leaf) (start : Nat) : Event :=
  { kind := leaf.kind, span := .reach start (start + leaf.render.length), text := leaf.content }

structure ToldBy (leaf : Leaf) (token : Token) : Prop where
  nesting : token.nesting = .alone
  reports : match leaf with
    | text literal _ => token.type = "text" ∧ token.content = literal
    | html literal _ => token.type = "html_inline" ∧ token.content = literal
    | softBreak => token.type = "softbreak"
    | hardBreak => token.type = "hardbreak"
    | code marks _ content _ =>
      token.type = "code_inline" ∧ token.markup = marks ∧ token.content = content

end Leaf

/-- An element that is written with the same marks before and after its content. -/
inductive Style where
  | emphasis
  | strong
  | strikethrough

namespace Style

def kind : Style → TagKind
  | emphasis => .emphasis
  | strong => .strong
  | strikethrough => .strikethrough

def name : Style → String
  | emphasis => "em"
  | strong => "strong"
  | strikethrough => "s"

end Style

/-- Where a link or an image leads, as its token reports it. -/
structure Target where
  url : Option Text
  title : Option Text

/-- How an element is written. A destination has no parentheses of its own. -/
inductive Delimiters where
  | marks (style : Style) (markup : Text) (substance : markup ≠ [])
  | angles (target : Target)
  | link (target : Target) (destination : Text) (plain : '(' ∉ destination ∧ ')' ∉ destination)
  | image (target : Target) (destination : Text) (plain : '(' ∉ destination ∧ ')' ∉ destination)

namespace Delimiters

def front : Delimiters → Text
  | marks _ markup _ => markup
  | angles _ => ['<']
  | link .. => ['[']
  | image .. => ['!', '[']

def back : Delimiters → Text
  | marks _ markup _ => markup
  | angles _ => ['>']
  | link _ destination _ | image _ destination _ => [']', '('] ++ destination ++ [')']

def tag : Delimiters → Tag
  | marks style _ _ => { kind := style.kind, block := false, name := style.name }
  | angles target | link target _ _ =>
    { kind := .link, block := false, name := "link", url := target.url, title := target.title }
  | image target _ _ =>
    { kind := .image, block := false, name := "image", url := target.url, title := target.title }

structure OpenedBy (delimiters : Delimiters) (token : Token) : Prop where
  nesting : token.nesting = .opening
  reports : match delimiters with
    | marks style markup _ => token.type = style.name ++ "_open" ∧ token.markup = markup
    | angles target => token.type = "link_open" ∧ token.markup = "autolink".toList ∧
      token.attributes.lookup "href" = target.url ∧ token.attributes.lookup "title" = target.title
    | link target _ _ => token.type = "link_open" ∧ token.markup ≠ "autolink".toList ∧
      token.attributes.lookup "href" = target.url ∧ token.attributes.lookup "title" = target.title
    | image .. => False

structure ClosedBy (delimiters : Delimiters) (token : Token) : Prop where
  nesting : token.nesting = .closing
  reports : match delimiters with
    | marks style markup _ => token.type = style.name ++ "_close" ∧ token.markup = markup
    | angles _ => token.type = "link_close" ∧ token.markup = "autolink".toList
    | link .. => token.type = "link_close" ∧ token.markup ≠ "autolink".toList
    | image .. => False

end Delimiters

/-- Inline content: a leaf or an element, and the content that follows it. -/
inductive Content where
  | nothing
  | leaf (item : Leaf) (rest : Content)
  | element (delimiters : Delimiters) (inner rest : Content)

namespace Content

def render : Content → Text
  | nothing => []
  | leaf item rest => item.render ++ rest.render
  | element delimiters inner rest =>
    delimiters.front ++ inner.render ++ delimiters.back ++ rest.render

/-- The source that each event of the content stands for: a leaf, a closing delimiter, or for an opening
event the whole element. -/
def pieces : Content → List Text
  | nothing => []
  | leaf item rest => item.render :: rest.pieces
  | element delimiters inner rest =>
    (delimiters.front ++ inner.render ++ delimiters.back) :: inner.pieces ++
      delimiters.back :: rest.pieces

/-- The events of the content when its rendering stands at an offset. -/
def placed : Content → Nat → List Event
  | nothing, _ => []
  | leaf item rest, start => item.event start :: rest.placed (start + item.render.length)
  | element delimiters inner rest, start =>
    let begins := start + delimiters.front.length
    let ends := begins + inner.render.length
    let stop := ends + delimiters.back.length
    { kind := .opening, span := .reach start stop, tag := some delimiters.tag } ::
      inner.placed begins ++
      { kind := .closing, span := .reach ends stop, tag := some delimiters.tag } :: rest.placed stop

/-- The tokens report this content. All of an image is told by one token, which holds the tokens of what
describes it. -/
inductive ToldBy : Content → List Token → Prop where
  | nothing : ToldBy .nothing []
  | leaf {item : Leaf} {rest : Content} {token : Token} {tokens : List Token}
    (told : item.ToldBy token) (later : rest.ToldBy tokens) : ToldBy (.leaf item rest) (token :: tokens)
  | element {delimiters : Delimiters} {inner rest : Content} {opening closing : Token}
    {inside tokens : List Token} (opens : delimiters.OpenedBy opening) (told : inner.ToldBy inside)
    (closes : delimiters.ClosedBy closing) (later : rest.ToldBy tokens) :
    ToldBy (.element delimiters inner rest) (opening :: inside ++ closing :: tokens)
  | image {target : Target} {destination : Text} {plain : '(' ∉ destination ∧ ')' ∉ destination}
    {inner rest : Content} {token : Token} {tokens : List Token} (alone : token.nesting = .alone)
    (type : token.type = "image") (url : token.attributes.lookup "src" = target.url)
    (title : token.attributes.lookup "title" = target.title) (told : inner.ToldBy token.children)
    (later : rest.ToldBy tokens) :
    ToldBy (.element (.image target destination plain) inner rest) (token :: tokens)

end Content

end Emend.Inline
