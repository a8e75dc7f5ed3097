import Emend.Edit.Binding
import Emend.Edit.Journal
import Emend.Edit.Pass
import Emend.Edit.Region
import Emend.Edit.Script
import Emend.Edit.Writer
import Emend.Fault
import Emend.Log
import Emend.Markup.Block
import Emend.Markup.Inline
import Emend.Markup.Token
import Emend.Matcher.Phrase
import Emend.Matcher.Registers
import Emend.Matcher.Render
import Emend.Matcher.Search
import Emend.Matcher.Timing
import Emend.Matcher.Tree
import Emend.Place
import Emend.Settings
import Emend.Source.Lines
import Emend.Source.Span
import Emend.Stream.Cursor
import Emend.Stream.Document
import Emend.Stream.Event
import Emend.Text
import Emend.Text.Blank
import Emend.Text.Digit
import Emend.Text.Printable
import Emend.Text.Quoted
import Emend.Value
import Emend.Proofs.Computation
import Emend.Proofs.Edit.Accounting
import Emend.Proofs.Edit.Steps
import Emend.Proofs.Edit.Turns
import Emend.Proofs.Edit.Output
import Emend.Proofs.Markup.InlineOrder
import Emend.Proofs.Markup.BlockOrder
import Emend.Proofs.Edit.Endings
import Emend.Proofs.Edit.Greedy
import Emend.Proofs.Edit.Refinement
import Emend.Proofs.Matcher.Locality
import Emend.Proofs.Edit.Priority
import Emend.Proofs.Edit.Pairing
import Emend.Proofs.Matcher.Meaning
import Emend.Proofs.Edit.History
import Emend.Proofs.Edit.Insertion
import Emend.Proofs.Markup.TableRow
import Emend.Proofs.Markup.Elements
import Emend.Proofs.Markup.Coverage
import Emend.Proofs.Markup.Content
import Emend.Proofs.Markup.Rendering
import Emend.Proofs.Stream.Nesting
import Emend.Proofs.Source.LineOrder
import Emend.Proofs.Source.LineNumbers
import Emend.Proofs.Edit.Schedule
import Emend.Proofs.Edit.Replay
import Emend.Proofs.Lockstep
import Emend.Proofs.Matcher.Renaming
import Emend.Proofs.Edit.Abreast
import Emend.Proofs.Edit.Renewal
import Emend.Proofs.Edit.Moves
import Emend.Proofs.Edit.Progress
import Emend.Proofs.Edit.Policies
import Emend.Proofs.Edit.Faithful
import Emend.Proofs.Matcher.NextLine
import Emend.Proofs.Matcher.Stretch
import Emend.Proofs.Edit.Inertness
import Emend.Proofs.Edit.Placement
import Emend.Proofs.Markup.Totality
import Emend.Proofs.Markup.Leaves
import Emend.Proofs.Markup.WholeLines
import Emend.Proofs.Edit.Sections
import Emend.Proofs.Markup.Extents
import Emend.Proofs.Markup.SoftBreaks
import Emend.Proofs.Markup.Fences
import Emend.Proofs.Edit.Refusals
import Emend.Proofs.Edit.Trailing
import Emend.Proofs.Matcher.Scanning
import Emend.Proofs.Matcher.Restoring
import Emend.Proofs.Stream.Promises
import Emend.Proofs.Matcher.Checking
import Emend.Proofs.Edit.Breaches
