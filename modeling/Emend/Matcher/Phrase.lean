import Emend.Matcher.Tree

/-!
Ready-made checks over what an event says: its text, or the destination of a link. Each is named after
itself and the quoted needle. -/
namespace Emend.Predicate

variable {World : Type}

/-- The check that reads the event under the cursor and nothing else. -/
def onEvent (label : String) (holds : Event → Bool) : Predicate World where
  label
  run cursor := pure (cursor.current.any holds)

/-- Text events whose content passes a test; without a name it goes by the inner function's. -/
def text (holds : Text → Bool) (name : String := "text") : Predicate World :=
  onEvent (labelFor name (some "check")) fun event => event.kind == .text && holds event.text

/-- The name of a check for a needle. -/
def needleName (name : String) (needle : Text) : String :=
  name ++ "(" ++ String.ofList needle.quoted ++ ")"

/-- Text events that say exactly `needle`. -/
def saying (needle : Text) : Predicate World :=
  text (· == needle) (needleName "exact_text" needle)

/-- Text events in which `needle` occurs. -/
def mentioning (needle : Text) : Predicate World :=
  text (·.contains needle) (needleName "text_containing" needle)

/-- Openings of links in whose destination `needle` occurs. A link without one has an empty one. -/
def linkingTo (needle : Text) : Predicate World :=
  onEvent (needleName "link_with_url_containing" needle) fun event =>
    event.isOpening (some .link) && event.tag.any fun tag => (tag.url.getD []).contains needle

end Emend.Predicate
