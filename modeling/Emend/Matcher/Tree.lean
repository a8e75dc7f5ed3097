import Emend.Matcher.Registers
import Emend.Stream.Cursor
import Emend.Value

/-!
Matchers ask of an event "does the stream match here?". A matcher is a tree: three plain leaves, a
conjunction, and three timing patterns around an inner matcher, each with the slot that holds its
state. Trees may share slots, which is how one stateful matcher stands in several places. Evaluation is
recursion on the tree; both sides of a conjunction are always evaluated, so that stateful parts see the
whole stream, and a fired one-shot no longer asks its inner matcher. A tree may hold what is no matcher,
which is refused only when it is asked or reset; `reset_of_complete` says that nothing else is. -/
namespace Emend

structure HeadingLevel where
  value : Nat
  inRange : 1 ≤ value ∧ value ≤ 6 := by decide
deriving DecidableEq, Repr

/-- The level with this number, if headings have it. -/
def HeadingLevel.of (level : Int) : Except Fault HeadingLevel :=
  if h : 1 ≤ level ∧ level ≤ 6 then .ok ⟨level.toNat, by omega⟩ else .error (.headingLevel level)

/-- A check over the cursor, with the label it is shown by. It may act on the world and may fail. -/
structure Predicate (World : Type) where
  label : String
  run : Cursor → EStateM Fault World Bool

/-- The label of a check: its own name, else the name of the function behind it, else a plain word. -/
def Predicate.labelFor (name : String) (functionName : Option String) : String :=
  if name.isEmpty then functionName.getD "predicate" else name

/-- What evaluation does not know how to ask, though it stands in a matcher's place. -/
inductive Foreign where
  /-- A matcher of a kind of its own. -/
  | kind (name : String)
  /-- A check that was not made a predicate. -/
  | check
  /-- A plain value. -/
  | value (value : Value)

/-- The name of its type, which its refusal gives. -/
def Foreign.typeName : Foreign → String
  | kind name => name
  | check => "function"
  | value given => given.typeName

/-- The fault of asking it for what only matchers can do. -/
def Foreign.refusal (thing : Foreign) (operation : String) : Fault :=
  .notSupported thing.typeName operation

/-- A matcher tree. The last variant stands for what evaluation does not know and refuses to ask. -/
inductive Matcher (World : Type) where
  | always
  | heading (level : Option HeadingLevel)
  | predicate (check : Predicate World)
  | both (left right : Matcher World)
  | oneShot (slot : Slot) (inner : Matcher World)
  | fallingEdge (slot : Slot) (inner : Matcher World)
  | nextLine (slot : Slot) (inner : Matcher World)
  | foreign (thing : Foreign)

/-- Something that acts on the memory and may fail; what it did before failing stands. -/
abbrev Watch (World : Type) := EStateM Fault (Memory World)

namespace Matcher

variable {World : Type}

/-- The slots of a tree, one entry for each stateful place. -/
def slots : Matcher World → List Slot
  | always | heading _ | predicate _ | foreign _ => []
  | both left right => left.slots ++ right.slots
  | oneShot slot inner | fallingEdge slot inner | nextLine slot inner => slot :: inner.slots

/-- Puts the whole tree back into its initial state, each matcher before what it holds and left before
right. A check or a plain value in a matcher's place cannot be reset: what came before it is reset by
then, and the rest is not. -/
def reset : Matcher World → EStateM Fault Registers Unit
  | always | heading _ | predicate _ | foreign (.kind _) => pure ()
  | both left right => do
    left.reset
    right.reset
  | oneShot slot inner | fallingEdge slot inner | nextLine slot inner => do
    modify (·.forget slot)
    inner.reset
  | foreign thing => throw (thing.refusal "reset")

/-- Whether every place of the tree holds a matcher. -/
def complete : Matcher World → Bool
  | always | heading _ | predicate _ | foreign (.kind _) => true
  | both left right => left.complete && right.complete
  | oneShot _ inner | fallingEdge _ inner | nextLine _ inner => inner.complete
  | foreign _ => false

/-- A tree of matchers only can always be reset, and the reset forgets just its slots. -/
theorem reset_of_complete {matcher : Matcher World} (whole : matcher.complete = true)
    (registers : Registers) :
    matcher.reset registers = .ok () (registers.forgetAll matcher.slots) := by
  induction matcher generalizing registers with
  | always | heading | predicate => rfl
  | both left right left_ih right_ih =>
    simp only [complete, Bool.and_eq_true] at whole
    simp only [reset, bind, EStateM.bind, left_ih whole.1, right_ih whole.2, slots,
      Registers.forgetAll, List.foldl_append]
  | oneShot slot inner ih | fallingEdge slot inner ih | nextLine slot inner ih =>
    exact ih whole (registers.forget slot)
  | foreign thing =>
    cases thing with
    | kind => rfl
    | check | value => cases whole

/-- The tree with every slot moved by `distance`: what was shared stays shared, with nothing else. -/
def shift (distance : Slot) : Matcher World → Matcher World
  | always => always
  | heading level => heading level
  | predicate check => predicate check
  | both left right => both (left.shift distance) (right.shift distance)
  | oneShot slot inner => oneShot (distance + slot) (inner.shift distance)
  | fallingEdge slot inner => fallingEdge (distance + slot) (inner.shift distance)
  | nextLine slot inner => nextLine (distance + slot) (inner.shift distance)
  | foreign thing => foreign thing

/-- A copy of the tree in its initial state, on slots of its own. As every used slot is below `free`,
moving them all by `free` keeps clear of every other tree. There is no copy of a tree that cannot be
reset. -/
def fresh (matcher : Matcher World) : Watch World (Matcher World) := fun memory =>
  let copy := matcher.shift memory.free
  match copy.reset memory.registers with
  | .ok () registers => .ok copy { memory with registers, free := memory.free + memory.free }
  | .error fault _ => .error fault memory

def opensHeading (level : Option HeadingLevel) (event : Event) : Bool :=
  event.isOpening (some .heading) &&
    match level with
    | none => true
    | some asked => event.tag.any fun tag => tag.level == some (asked.value : Int)

def check (check : Predicate World) (cursor : Cursor) : Watch World Bool := fun memory =>
  match check.run cursor memory.world with
  | .ok answer world => .ok answer { memory with world }
  | .error fault world => .error fault { memory with world }

def remembered (slot : Slot) : Watch World Cell := fun memory =>
  .ok (memory.registers.get slot) memory

def remember (slot : Slot) (cell : Cell) : Watch World Unit := fun memory =>
  .ok () { memory with registers := memory.registers.set slot cell }

/-- The answer at an event that is there. A timing pattern reads its slot, asks the inner matcher, and
then writes the slot: where a matcher is nested in itself, the outer place has the last word. -/
def observe (cursor : Cursor) (event : Event) : Matcher World → Watch World Bool
  | always => pure true
  | heading level => pure (opensHeading level event)
  | predicate p => check p cursor
  | both left right => do
    let leftAnswer ← left.observe cursor event
    let rightAnswer ← right.observe cursor event
    return leftAnswer && rightAnswer
  | oneShot slot inner => do
    let cell ← remembered slot
    match cell.shot with
    | .fired => return false
    | .armed =>
      let (shot, answer) := OneShotState.step .armed (← inner.observe cursor event)
      remember slot { cell with shot }
      return answer
  | fallingEdge slot inner => do
    let cell ← remembered slot
    let (observed, answer) := fallingEdgeStep cell.observed (← inner.observe cursor event)
    remember slot { cell with observed }
    return answer
  | nextLine slot inner => do
    let cell ← remembered slot
    let observed ← inner.observe cursor event
    let first ← ofExcept (cursor.lineAt event.start)
    let last ← ofExcept (cursor.lineAt (max (event.start : Int) (event.stop - 1)))
    let (line, answer) := cell.line.step observed first last
    remember slot { cell with line }
    return answer
  | foreign thing => throw (.unknownMatcher thing.typeName)

/-- The answer at the cursor's event. At the end of the stream it is false, and nothing is asked. -/
def evaluate (matcher : Matcher World) (cursor : Cursor) : Watch World Bool :=
  match cursor.current with
  | none => pure false
  | some event => matcher.observe cursor event

end Matcher

/-- What may be given where a matcher is expected. -/
inductive Operand (World : Type) where
  | matcher (tree : Matcher World)
  | check (predicate : Predicate World)
  | value (value : Value)

/-- The matcher that an operand stands for: a bare check becomes a predicate, and a plain value is
refused. -/
def Operand.toMatcher {World : Type} : Operand World → Except Fault (Matcher World)
  | .matcher tree => .ok tree
  | .check predicate => .ok (.predicate predicate)
  | .value given => .error (.notAMatcher given.typeName)

/-- The operand put in a matcher's place as it is. Nothing is refused here, but what is no matcher is
foreign there. -/
def Operand.asGiven {World : Type} : Operand World → Matcher World
  | .matcher tree => tree
  | .check _ => .foreign .check
  | .value given => .foreign (.value given)

/-- The matcher that an operand is, for an operation that only matchers have. -/
def Operand.asking {World : Type} (operation : String) : Operand World → Except Fault (Matcher World)
  | .matcher tree => .ok tree
  | .check _ => .error (Foreign.check.refusal operation)
  | .value given => .error ((Foreign.value given).refusal operation)

end Emend
