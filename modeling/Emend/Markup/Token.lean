import Emend.Stream.Event

/-!
Tokens of a Markdown text, as a block parser and its inline parser report them. Block tokens know the
lines they come from; inline tokens know no place at all, and where each stands in the source is worked
out from its markup and content. Here are the token itself and the tag that it stands for. -/
namespace Emend

inductive Nesting where
  | opening
  | closing
  | alone
deriving DecidableEq, Repr

/-- A token with the tokens inside it. `lines` holds the first line and the one after the last;
`label` is the label of a footnote reference. -/
structure Token where
  type : String
  element : Text := []
  nesting : Nesting := .alone
  lines : Option (Int × Int) := none
  markup : Text := []
  content : Text := []
  info : Text := []
  hidden : Bool := false
  attributes : List (String × Text) := []
  label : Text := []
  children : List Token := []
deriving Inhabited

def TagKind.named : String → TagKind
  | "heading" => heading
  | "paragraph" => paragraph
  | "blockquote" => blockQuote
  | "bullet_list" => bulletList
  | "ordered_list" => orderedList
  | "list_item" => listItem
  | "table" => table
  | "thead" => tableHead
  | "tbody" => tableBody
  | "tr" => tableRow
  | "th" => tableCell
  | "td" => tableCell
  | "em" => emphasis
  | "strong" => strong
  | "s" => strikethrough
  | "link" => link
  | "image" => image
  | _ => other

namespace Token

/-- The parser's name for the container: the type without the endings that tell its two tokens apart. -/
def name (token : Token) : String :=
  let type : Text := token.type.toList
  String.ofList ((type.dropTail "_open".toList).dropTail "_close".toList)

/-- The level of a heading: the number after the first letter of its element, when digits and nothing
else stand there. -/
def level (token : Token) : Except Fault (Option Int) :=
  let digits := token.element.drop 1
  if digits.isEmpty || !digits.all Text.isDigit then .ok none
  else
    match Text.readNumber digits with
    | .number value => .ok (some value)
    | .tooLong count => .error (.numberTooLong count)
    | .unreadable => .error (.unreadableNumber digits)

/-- The attribute that holds the destination of a container. -/
def destinationKey : TagKind → Option String
  | .link => some "href"
  | .image => some "src"
  | _ => none

/-- The tag that the token stands for. Only headings have a level, and only links and images a
destination and a title. -/
def tag (token : Token) (block : Bool) : Except Fault Tag := do
  let kind := TagKind.named token.name
  let level ← if kind = .heading then token.level else .ok none
  let key := destinationKey kind
  return {
    kind, block, level
    name := token.name
    url := key.bind (token.attributes.lookup ·)
    title := key.bind fun _ => token.attributes.lookup "title" }

end Token
end Emend
