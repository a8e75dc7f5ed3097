import Emend.Markup.Block
import Emend.Value

/-!
Settings of an editing pass: where tokens come from, and what becomes of a region that is still open at
the end of the document. One set of settings is current at a time; `within` puts another in its place for
the length of a computation and takes it back however that ends. -/
namespace Emend

/-- What to do with a region whose stop matcher never fires. -/
inductive Policy where
  /-- The rest of the document goes to the callback. -/
  | handOver
  /-- The pass fails. -/
  | fail
deriving DecidableEq, Repr

def Policy.word : Policy → String
  | handOver => "hand_to_callback"
  | fail => "fail"

def Policy.ofWord (word : Text) : Except Fault Policy :=
  if word = Policy.handOver.word.toList then .ok .handOver
  else if word = Policy.fail.word.toList then .ok .fail
  else .error (.unknownPolicy word)

abbrev Tokenizer := Text → List Token

structure Extensions where
  table : Bool := false
  strikethrough : Bool := false
deriving DecidableEq, Repr

/-- The settings. A tokenizer of the caller's own takes the place of the grammar and its extensions. -/
structure Settings where
  extensions : Extensions := {}
  unterminated : Policy := .handOver
  tokenizer : Option Tokenizer := none

inductive EventSource where
  | grammar (extensions : Extensions)
  | own (tokenizer : Tokenizer)

namespace Settings

/-- The settings with one more entry. Entries under other keys are passed over. -/
def put (settings : Settings) (key : String) (value : Value) : Except Fault Settings :=
  match key, value with
  | "tables_enabled", .flag table => .ok { settings with extensions.table := table }
  | "strikethrough_enabled", .flag strikethrough =>
    .ok { settings with extensions.strikethrough := strikethrough }
  | "unterminated", .text word => (Policy.ofWord word).map ({ settings with unterminated := · })
  | _, _ => .ok settings

/-- The default settings, changed by the given entries. -/
def ofEntries (entries : List (String × Value)) : Except Fault Settings :=
  entries.foldlM (fun settings entry => settings.put entry.1 entry.2) {}

def eventSource (settings : Settings) : EventSource :=
  match settings.tokenizer with
  | some tokenizer => .own tokenizer
  | none => .grammar settings.extensions

/-- Reads a source under these settings. The Markdown grammar itself is the caller's. -/
def read (settings : Settings) (grammar : Extensions → Tokenizer) (source : Text) :
    Except Fault Document :=
  match settings.eventSource with
  | .grammar extensions => Document.ofTokens source (grammar extensions source)
  | .own tokenizer => Document.ofTokens source (tokenizer source)

/-- Runs `body` with `settings` as the current ones, and puts those that were current before back in
place, whether it fails or not. `current` and `replace` are how the state holds the settings. -/
def within {σ α : Type} (current : σ → Settings) (replace : Settings → σ → σ) (settings : Settings)
    (body : EStateM Fault σ α) : EStateM Fault σ α := fun state =>
  match body (replace settings state) with
  | .ok answer after => .ok answer (replace (current state) after)
  | .error fault after => .error fault (replace (current state) after)

end Settings
end Emend
