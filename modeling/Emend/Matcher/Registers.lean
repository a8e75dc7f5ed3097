import Emend.Matcher.Timing

/-!
Where stateful matchers keep their state. A matcher names a slot, and two matchers that name the same
slot are one matcher as far as state goes. A slot that was never written holds the initial state, so
forgetting a slot and setting it back are the same thing. -/
namespace Emend

/-- The place of one stateful matcher. -/
abbrev Slot := Nat

/-- What a slot holds. A matcher reads and writes the part for its own timing pattern. -/
structure Cell where
  shot : OneShotState := .armed
  observed : Bool := false
  line : NextLineState := {}
deriving DecidableEq, Repr

/-- The written slots, each at most once. -/
structure Registers where
  cells : List (Slot × Cell) := []
deriving DecidableEq, Repr

namespace Registers

/-- What a slot holds; the initial state if it was never written. -/
def get (registers : Registers) (slot : Slot) : Cell :=
  (registers.cells.lookup slot).getD {}

/-- The registers without a slot, which is then back in its initial state. -/
def forget (registers : Registers) (slot : Slot) : Registers :=
  ⟨registers.cells.filter (·.1 != slot)⟩

def set (registers : Registers) (slot : Slot) (cell : Cell) : Registers :=
  ⟨(slot, cell) :: (registers.forget slot).cells⟩

def forgetAll (registers : Registers) (slots : List Slot) : Registers :=
  slots.foldl forget registers

private theorem lookup_filter_self (cells : List (Slot × Cell)) (slot : Slot) :
    (cells.filter (·.1 != slot)).lookup slot = none := by
  induction cells with
  | nil => rfl
  | cons head rest ih =>
    obtain ⟨key, cell⟩ := head
    by_cases same : key = slot
    · simp [same, ih]
    · have apart : (slot == key) = false := by simpa using fun h => same h.symm
      simp [same, List.lookup_cons, apart, ih]

private theorem lookup_filter_of_ne (cells : List (Slot × Cell)) {slot other : Slot}
    (ne : other ≠ slot) : (cells.filter (·.1 != slot)).lookup other = cells.lookup other := by
  induction cells with
  | nil => rfl
  | cons head rest ih =>
    obtain ⟨key, cell⟩ := head
    by_cases same : key = slot
    · have apart : (other == slot) = false := by simpa using ne
      simp [same, List.lookup_cons, apart, ih]
    · simp [same, List.lookup_cons, ih]

@[simp] theorem get_forget_self (registers : Registers) (slot : Slot) :
    (registers.forget slot).get slot = {} := by
  simp [get, forget, lookup_filter_self]

@[simp] theorem get_forget_of_ne (registers : Registers) {slot other : Slot} (ne : other ≠ slot) :
    (registers.forget slot).get other = registers.get other := by
  simp [get, forget, lookup_filter_of_ne _ ne]

@[simp] theorem get_set_self (registers : Registers) (slot : Slot) (cell : Cell) :
    (registers.set slot cell).get slot = cell := by
  simp [get, set]

@[simp] theorem get_set_of_ne (registers : Registers) {slot other : Slot} (cell : Cell)
    (ne : other ≠ slot) : (registers.set slot cell).get other = registers.get other := by
  have apart : (other == slot) = false := by simpa using ne
  simp [get, set, forget, List.lookup_cons, apart, lookup_filter_of_ne _ ne]

/-- Forgetting several slots puts those back into the initial state and leaves the others alone. -/
theorem get_forgetAll (registers : Registers) (slots : List Slot) (slot : Slot) :
    (registers.forgetAll slots).get slot = if slot ∈ slots then {} else registers.get slot := by
  induction slots generalizing registers with
  | nil => rfl
  | cons head rest ih =>
    have next := ih (registers.forget head)
    simp only [forgetAll, List.foldl_cons] at next ⊢
    rw [next]
    by_cases same : slot = head
    · subst same
      simp
    · simp [same]

end Registers

/-- All that evaluation can change: the registers, and the world that checks and callbacks act on. Every
slot from `free` on is unused. -/
structure Memory (World : Type) where
  registers : Registers := {}
  free : Slot := 0
  world : World

def Memory.claim {World : Type} (memory : Memory World) : Slot × Memory World :=
  (memory.free, { memory with free := memory.free + 1 })

end Emend
