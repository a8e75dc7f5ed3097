import Mathlib
import Emend.Proofs.Edit.Walk

/-! The exact text of a pass. Between the turns of the callbacks the source comes out as it is; what a
callback adds stands where its region stood, and what it copies is source of that region which no
earlier region has reached. So whatever lies outside all regions comes out once, in order, whatever the
callbacks do. -/
namespace Emend
variable {World : Type} {reached low high length : Nat} {turn : Turn} {turns : List Turn}

/-- How far into the source a pass has come after these turns. -/
def furthest (reached : Nat) (turns : List Turn) : Nat :=
  turns.foldl (fun reached turn => max reached turn.region.span.stop) reached

/-- The output of turns that follow one another: the source up to each region, and in the region's
place what its callback added. -/
def woven (reached : Nat) : List Turn → List Part
  | [] => []
  | turn :: rest => .copied (.reach reached turn.region.span.start) ::
      turn.added ++ woven (max reached turn.region.span.stop) rest

/-- The output of a whole pass over a source of this length. -/
def pieces (length : Nat) (turns : List Turn) : List Part :=
  woven 0 turns ++ [.copied (.reach (furthest 0 turns) length)]

/-- Each callback left what it found in the output, and what it copied from the source are slices of
its own region, in order, past everything that was reached before. -/
def Confined (reached : Nat) : List Turn → Prop
  | [] => True
  | turn :: rest => turn.before.parts ++ turn.added = turn.after.parts ∧
      Ascending (max reached turn.region.span.start) turn.region.span.stop turn.added ∧
      Confined (max reached turn.region.span.stop) rest

/-- The offsets of the source that a part copies, in order. -/
def Part.offsets : Part → List Nat
  | .copied span => List.range' span.start span.length
  | .inserted _ => []

/-- Whether an offset lies outside the regions of all these turns. -/
def outside (turns : List Turn) (offset : Nat) : Bool :=
  turns.all fun turn => !turn.region.span.contains offset

/-- The offset at which a region is open, if one is. -/
def Mode.opening : Mode World → Option Nat
  | .searching => none
  | .editing active => some active.opening.start

/-- The pieces that are out when these turns are over and a region may be open at `opening`. -/
def piecesUpTo (turns : List Turn) : Option Nat → List Part
  | none => woven 0 turns
  | some start => woven 0 turns ++ [.copied (.reach (furthest 0 turns) start)]

/-- The output so far is woven from the turns so far, and the writer stands where the next piece of
source begins: behind all regions, and at the start of the region that is open. -/
structure Woven (source : Text) (opening : Option Nat) (pass : Pass World) : Prop where
  ready : pass.Ready source
  confined : Confined 0 pass.journal.turns
  within : furthest 0 pass.journal.turns ≤ source.length
  reached : pass.writer.reached = max (furthest 0 pass.journal.turns) (opening.getD 0)
  output : pass.writer.output = (piecesUpTo pass.journal.turns opening).flatMap (·.text source)

namespace Woven
variable {source : Text} {opening : Option Nat} {pass between after : Pass World} {nothing : Unit}
  {active : Active World} {region : Region} {position index start : Nat} {binding : Binding World}
  {bindings : List (Binding World)} {cursor : Cursor} {event : Event} {policy : Policy}

/-- Notes that give nobody a turn leave the account as it is. -/
theorem of_silent {notes : Journal} (woven : Woven source opening pass) (silent : Silent notes)
    (journal : after.journal = pass.journal ++ notes) (writer : after.writer = pass.writer) :
    Woven source opening after := by
  obtain ⟨ready, turns⟩ := woven.ready.of_silent silent journal
    (by rw [writer, woven.ready.anchored]) (by rw [writer, woven.ready.free])
  refine ⟨ready, ?_, ?_, ?_, ?_⟩ <;> simp only [turns, writer]
  · exact woven.confined
  · exact woven.within
  · exact woven.reached
  · exact woven.output

private theorem of_heard (woven : Woven source opening pass) (heard : pass.Heard after) :
    Woven source opening after := by
  obtain ⟨notes, silent, journal⟩ := heard.silent_notes
  exact woven.of_silent silent journal heard.writer

end Woven

/-- Three events, the second of them inside the first. -/
def nested : Document where
  source := ['a', 'b', 'c', 'd', 'e', 'f']
  events := [
    { kind := .opening, span := { start := 0, stop := 4 } },
    { kind := .text, span := { start := 1, stop := 3 } },
    { kind := .rule, span := { start := 4, stop := 6 } }]

end Emend
