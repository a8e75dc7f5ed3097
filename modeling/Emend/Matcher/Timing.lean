/-!
The three timing patterns as pure steps. Each takes its state and one observation to the next state and
the answer for that observation, so a pattern can be studied on plain sequences, apart from documents
and matchers. -/
namespace Emend

inductive OneShotState where
  | armed
  | fired
deriving DecidableEq, Repr

/-- The first true observation is answered true, everything after it false. -/
def OneShotState.step : OneShotState → Bool → OneShotState × Bool
  | fired, _ => (fired, false)
  | armed, true => (fired, true)
  | armed, false => (armed, false)

/-- True where the observation is false and the one before it, kept as the state, was true. -/
def fallingEdgeStep (previous observed : Bool) : Bool × Bool :=
  (observed, previous && !observed)

/-- Whether a next-line matcher watches for a line change. -/
inductive NextLinePhase where
  | waiting
  | armed
deriving DecidableEq, Repr

/-- The phase of a next-line matcher and the last line its matches have covered, -1 before any. -/
structure NextLineState where
  phase : NextLinePhase := .waiting
  line : Int := -1
deriving DecidableEq, Repr

/-- One event at lines `first` to `last`. An armed state answers true when the event starts past the
watched line, and then waits again. An observed event arms the state and can only move the watched line
forward, also when the same event is answered true. -/
def NextLineState.step (state : NextLineState) (observed : Bool) (first last : Int) :
    NextLineState × Bool :=
  let fired := state.phase == .armed && state.line < first
  if observed then (⟨.armed, max state.line last⟩, fired)
  else if fired then ({}, true)
  else (state, false)

end Emend
