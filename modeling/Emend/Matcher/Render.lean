import Emend.Matcher.Tree

/-!
Matchers as they are shown: the tree with the state that the registers hold for it. -/
namespace Emend

def OneShotState.label : OneShotState → String
  | armed => "ARMED"
  | fired => "FIRED"

def OneShotState.render (state : OneShotState) : String :=
  let number : Nat := if state = armed then 1 else 2
  s!"<OneShotState.{state.label}: {number}>"

def NextLinePhase.label : NextLinePhase → String
  | waiting => "WAITING"
  | armed => "ARMED"

def NextLinePhase.render (phase : NextLinePhase) : String :=
  let number : Nat := if phase = waiting then 1 else 2
  s!"<NextLinePhase.{phase.label}: {number}>"

def NextLineState.render (state : NextLineState) : String :=
  s!"NextLineState(phase={state.phase.render}, line={state.line})"

/-- What is no matcher as it is shown: a plain value by its own form, all else by its type. -/
def Foreign.render : Foreign → String
  | value given => given.render
  | thing => s!"{thing.typeName}()"

def Matcher.render {World : Type} (registers : Registers) : Matcher World → String
  | always => "Always()"
  | heading level =>
    let shown := (level.map fun asked => toString asked.value).getD "None"
    s!"Heading(level={shown})"
  | predicate check => s!"Predicate({check.label})"
  | both left right => s!"And(left={left.render registers}, right={right.render registers})"
  | oneShot slot inner =>
    let state := (registers.get slot).shot.render
    s!"OneShot(inner={inner.render registers}, state={state})"
  | fallingEdge slot inner =>
    let previous := renderBool (registers.get slot).observed
    s!"FallingEdge(inner={inner.render registers}, previous={previous})"
  | nextLine slot inner =>
    let state := (registers.get slot).line.render
    s!"StartOfNextLine(inner={inner.render registers}, state={state})"
  | foreign thing => thing.render

end Emend
