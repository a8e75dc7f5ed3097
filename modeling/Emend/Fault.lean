import Emend.Text.Digit
import Emend.Text.Quoted

/-!
Everything that can go wrong, by cause, and the one wording of each. Offsets and lengths in a fault are
integers, because what was asked for may lie before the text as well as past its end. -/
namespace Emend

inductive Fault where
  /-- A span that starts before the text or ends before it starts. -/
  | malformedSpan (start stop : Int)
  /-- An event that starts before its predecessor does. -/
  | spanOrder (index previous start : Int)
  /-- A span or an offset that does not fit a source of the given length. -/
  | outsideSource (what : String) (start stop length : Int)
  /-- A region that was still open at the end of the document, under the policy that refuses it. -/
  | unterminated (index start stop : Int)
  /-- An offset past the end of the region being edited. -/
  | pastRegion (offset bound : Int)
  /-- A heading matcher for a level that no heading has. -/
  | headingLevel (level : Int)
  /-- A policy word that names no policy. -/
  | unknownPolicy (word : Text)
  /-- A heading level written with a digit that has no decimal value. -/
  | unreadableNumber (digits : Text)
  /-- A heading level with more digits than a number may have. -/
  | numberTooLong (digits : Nat)
  /-- A closing token with nothing open. -/
  | nothingOpen
  /-- A line counted back past the first one. -/
  | noSuchLine
  /-- An event looked for outside a region. -/
  | noSuchEvent
  /-- A place further off than numbers of places go. -/
  | placeBeyondReach
  /-- A plain value where a matcher or a check was expected. -/
  | notAMatcher (type : String)
  /-- A matcher of a kind that evaluation does not know. -/
  | unknownMatcher (name : String)
  /-- A plain value or a bare check asked for what only matchers can do. -/
  | notSupported (type operation : String)
  /-- A fault of the caller's own making, from a check or a callback, of a kind that the caller names. -/
  | raised (kind message : String)
  /-- A broken contract described in words. -/
  | invariant (message : String)
  /-- A problem with one edit, described in words. -/
  | editing (message : String)
  /-- Any other problem described in words. -/
  | other (message : String)
deriving DecidableEq, Repr, Inhabited

/-- A quoted text that ends a number's message is cut to this many characters. -/
def Fault.quotedLimit : Nat := 200

def Fault.message : Fault → String
  | malformedSpan start stop => s!"malformed span [{start}, {stop})"
  | spanOrder index previous start =>
    s!"event {index} starts at {start}, before the previous event ({previous})"
  | outsideSource what start stop length =>
    s!"{what} [{start}, {stop}) is outside source of length {length}"
  | unterminated index start stop =>
    s!"edit region opened at event {index} (offset {start}) " ++
      s!"was still open at end of document (offset {stop})"
  | pastRegion offset bound => s!"offset {offset} is past the end of the edit region ({bound})"
  | headingLevel level => s!"heading level must be between 1 and 6, got {level}"
  | unknownPolicy word => String.ofList word.quoted ++ " is not a valid UnterminatedPolicy"
  | unreadableNumber digits =>
    "invalid literal for int() with base 10: " ++ String.ofList (digits.quoted.take quotedLimit)
  | numberTooLong digits =>
    s!"Exceeds the limit ({Text.longestNumber} digits) for integer string conversion: " ++
      s!"value has {digits} digits; use sys.set_int_max_str_digits() to increase the limit"
  | nothingOpen => "pop from empty list"
  | noSuchLine => "list index out of range"
  | noSuchEvent => "tuple index out of range"
  | placeBeyondReach => "cannot fit 'int' into an index-sized integer"
  | notAMatcher type => s!"expected a Matcher or a callable, got {type}"
  | unknownMatcher name => s!"unknown matcher variant: {name}"
  | notSupported type operation => s!"'{type}' object has no attribute '{operation}'"
  | raised _ message | invariant message | editing message | other message => message

end Emend
