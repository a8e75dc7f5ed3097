import Emend.Proofs.Lockstep
import Emend.Proofs.Matcher.Observation

/-! A matcher tree depends on its slots only by what they hold and by which of its places share one. So
two trees that differ in the names of their slots alone, on registers that hold the same under both names,
go through any document in lockstep, faults included. -/
namespace Emend
variable {World : Type}

/-- The answer of the check, or its fault, depends on the cursor and not on the world. -/
def Predicate.Detached (check : Predicate World) : Prop :=
  ∀ cursor, Lockstep Eq (fun _ _ => True) (check.run cursor) (check.run cursor)

/-- The registers of the memories are related. What the worlds are does not count. -/
def OnRegisters (alike : Registers → Registers → Prop) (first second : Memory World) : Prop :=
  alike first.registers second.registers

namespace Matcher
variable {scope : List Slot} {here there change : Slot → Slot} {matcher : Matcher World}

/-- All checks of the tree are detached from the world. -/
def Detached : Matcher World → Prop
  | always | heading _ | foreign _ => True
  | predicate check => check.Detached
  | both left right => left.Detached ∧ right.Detached
  | oneShot _ inner | fallingEdge _ inner | nextLine _ inner => inner.Detached

/-- The tree with other slots in the places of its own. -/
def rename (change : Slot → Slot) : Matcher World → Matcher World
  | always => always
  | heading level => heading level
  | predicate check => predicate check
  | both left right => both (left.rename change) (right.rename change)
  | oneShot slot inner => oneShot (change slot) (inner.rename change)
  | fallingEdge slot inner => fallingEdge (change slot) (inner.rename change)
  | nextLine slot inner => nextLine (change slot) (inner.rename change)
  | foreign thing => foreign thing

theorem rename_id (matcher : Matcher World) : matcher.rename id = matcher := by
  induction matcher with
  | always | heading | predicate | foreign => rfl
  | both left right ihLeft ihRight => rw [rename, ihLeft, ihRight]
  | oneShot slot inner ih | fallingEdge slot inner ih | nextLine slot inner ih => rw [rename, ih, id]

theorem slots_rename (matcher : Matcher World) (change : Slot → Slot) :
    (matcher.rename change).slots = matcher.slots.map change := by
  induction matcher with
  | always | heading | predicate | foreign => rfl
  | both left right ihLeft ihRight => simp only [rename, slots, ihLeft, ihRight, List.map_append]
  | oneShot slot inner ih | fallingEdge slot inner ih | nextLine slot inner ih =>
    simp only [rename, slots, ih, List.map_cons]

/-- Shifting a tree is one way to rename its slots; only what becomes of those counts. -/
theorem shift_eq_rename {distance : Slot}
    (same : ∀ slot ∈ matcher.slots, change slot = distance + slot) :
    matcher.shift distance = matcher.rename change := by
  induction matcher with
  | always | heading | predicate | foreign => rfl
  | both left right ihLeft ihRight =>
    rw [shift, rename, ihLeft fun slot member => same slot (List.mem_append_left _ member),
      ihRight fun slot member => same slot (List.mem_append_right _ member)]
  | oneShot slot inner ih | fallingEdge slot inner ih | nextLine slot inner ih =>
    rw [shift, rename, ih fun slot member => same slot (List.mem_cons_of_mem _ member),
      same slot List.mem_cons_self]

private theorem Detached.checks_detached (detached : matcher.Detached) :
    ∀ p ∈ matcher.checks, p.Detached := by
  induction matcher with
  | always | heading | foreign => exact fun p member => nomatch member
  | predicate own =>
    intro p member
    cases List.mem_singleton.mp member
    exact detached
  | both left right ihLeft ihRight =>
    intro p member
    rcases List.mem_append.mp member with member | member
    · exact ihLeft detached.1 p member
    · exact ihRight detached.2 p member
  | oneShot slot inner ih | fallingEdge slot inner ih | nextLine slot inner ih => exact ih detached

/-- A tree under two names for its slots goes in lockstep if its checks do, and reading and writing one of
its slots under both names. -/
theorem observe_lockstep_of {states : Memory World → Memory World → Prop} {cursor : Cursor} {event : Event}
    (checked : ∀ p ∈ matcher.checks, Lockstep Eq states (check p cursor) (check p cursor))
    (reads : ∀ slot ∈ matcher.slots, Lockstep Eq states (remembered (here slot) : Watch World Cell)
      (remembered (there slot)))
    (writes : ∀ slot ∈ matcher.slots, ∀ cell, Lockstep Eq states
      (remember (here slot) cell : Watch World Unit) (remember (there slot) cell)) :
    Lockstep Eq states ((matcher.rename here).observe cursor event)
      ((matcher.rename there).observe cursor event) := by
  induction matcher with
  | always | heading => exact .pure rfl
  | foreign => exact .throw _
  | predicate p => exact checked p List.mem_cons_self
  | both left right ihLeft ihRight =>
    have goesLeft := ihLeft (fun p member => checked p (List.mem_append_left _ member))
      (fun slot member => reads slot (List.mem_append_left _ member))
      fun slot member => writes slot (List.mem_append_left _ member)
    have goesRight := ihRight (fun p member => checked p (List.mem_append_right _ member))
      (fun slot member => reads slot (List.mem_append_right _ member))
      fun slot member => writes slot (List.mem_append_right _ member)
    refine goesLeft.bind ?_
    rintro first _ rfl
    refine goesRight.bind ?_
    rintro second _ rfl
    exact .pure rfl
  | oneShot slot inner ih =>
    have goes := ih checked (fun slot member => reads slot (List.mem_cons_of_mem _ member))
      fun slot member => writes slot (List.mem_cons_of_mem _ member)
    refine (reads slot List.mem_cons_self).bind ?_
    rintro cell _ rfl
    cases cell.shot with
    | fired => exact .pure rfl
    | armed =>
      refine goes.bind ?_
      rintro observed _ rfl
      refine (writes slot List.mem_cons_self _).bind ?_
      rintro _ _ -
      exact .pure rfl
  | fallingEdge slot inner ih =>
    have goes := ih checked (fun slot member => reads slot (List.mem_cons_of_mem _ member))
      fun slot member => writes slot (List.mem_cons_of_mem _ member)
    refine (reads slot List.mem_cons_self).bind ?_
    rintro cell _ rfl
    refine goes.bind ?_
    rintro observed _ rfl
    refine (writes slot List.mem_cons_self _).bind ?_
    rintro _ _ -
    exact .pure rfl
  | nextLine slot inner ih =>
    have goes := ih checked (fun slot member => reads slot (List.mem_cons_of_mem _ member))
      fun slot member => writes slot (List.mem_cons_of_mem _ member)
    refine (reads slot List.mem_cons_self).bind ?_
    rintro cell _ rfl
    refine goes.bind ?_
    rintro observed _ rfl
    refine (Lockstep.ofExcept _).bind ?_
    rintro first _ rfl
    refine (Lockstep.ofExcept _).bind ?_
    rintro last _ rfl
    refine (writes slot List.mem_cons_self _).bind ?_
    rintro _ _ -
    exact .pure rfl

/-- The registers hold the same for each of these slots, each under its own name for it. -/
def Renamed (scope : List Slot) (here there : Slot → Slot) (first second : Registers) : Prop :=
  ∀ slot ∈ scope, first.get (here slot) = second.get (there slot)

/-- Two names of which each stands for one slot only. -/
structure Names (scope : List Slot) (here there : Slot → Slot) : Prop where
  here : ∀ slot ∈ scope, ∀ other ∈ scope, here slot = here other → slot = other
  there : ∀ slot ∈ scope, ∀ other ∈ scope, there slot = there other → slot = other

theorem remembered_lockstep {slot : Slot} (member : slot ∈ scope) :
    Lockstep Eq (OnRegisters (Renamed scope here there)) (remembered (here slot) : Watch World Cell)
      (remembered (there slot)) :=
  fun _ _ renamed => .ok (renamed slot member) renamed

theorem remember_lockstep {slot : Slot} (names : Names scope here there) (member : slot ∈ scope)
    (cell : Cell) : Lockstep Eq (OnRegisters (Renamed scope here there))
      (remember (here slot) cell : Watch World Unit) (remember (there slot) cell) := by
  intro first second renamed
  refine .ok rfl fun other inside => ?_
  by_cases same : other = slot
  · rw [same]
    exact (Registers.get_set_self ..).trans (Registers.get_set_self ..).symm
  · have apartHere : here other ≠ here slot := fun equal => same (names.here _ inside _ member equal)
    have apartThere : there other ≠ there slot := fun equal => same (names.there _ inside _ member equal)
    exact (Registers.get_set_of_ne _ _ apartHere).trans
      ((renamed other inside).trans (Registers.get_set_of_ne _ _ apartThere).symm)

theorem check_lockstep {p : Predicate World} (detached : p.Detached) (cursor : Cursor) :
    Lockstep Eq (OnRegisters (Renamed scope here there)) (check p cursor) (check p cursor) := by
  intro first second renamed
  have ended := detached cursor first.world second.world trivial
  unfold check
  generalize p.run cursor first.world = one, p.run cursor second.world = other at ended
  cases ended with
  | ok answered => exact .ok answered renamed
  | error => exact .error renamed

theorem observe_lockstep (names : Names scope here there) (cursor : Cursor) (event : Event)
    (detached : matcher.Detached) (part : ∀ slot ∈ matcher.slots, slot ∈ scope) :
    Lockstep Eq (OnRegisters (Renamed scope here there)) ((matcher.rename here).observe cursor event)
      ((matcher.rename there).observe cursor event) :=
  observe_lockstep_of (fun p member => check_lockstep (detached.checks_detached p member) cursor)
    (fun slot own => remembered_lockstep (part slot own))
    fun slot own => remember_lockstep names (part slot own)

/-- Under two names for its slots a tree goes through a document in lockstep. -/
theorem evaluate_lockstep (names : Names scope here there) (detached : matcher.Detached)
    (part : ∀ slot ∈ matcher.slots, slot ∈ scope) (cursor : Cursor) :
    Lockstep Eq (OnRegisters (Renamed scope here there)) ((matcher.rename here).evaluate cursor)
      ((matcher.rename there).evaluate cursor) := by
  unfold evaluate
  cases cursor.current with
  | none => exact .pure rfl
  | some event => exact observe_lockstep names cursor event detached part

theorem detached_shift (detached : matcher.Detached) (distance : Slot) :
    (matcher.shift distance).Detached := by
  induction matcher with
  | always | heading | foreign => trivial
  | predicate => exact detached
  | both left right ihLeft ihRight => exact ⟨ihLeft detached.1, ihRight detached.2⟩
  | oneShot slot inner ih | fallingEdge slot inner ih | nextLine slot inner ih => exact ih detached

theorem complete_shift (matcher : Matcher World) (distance : Slot) :
    (matcher.shift distance).complete = matcher.complete := by
  induction matcher with
  | always | heading | predicate => rfl
  | foreign thing => cases thing <;> rfl
  | both left right ihLeft ihRight => simp only [shift, complete, ihLeft, ihRight]
  | oneShot slot inner ih | fallingEdge slot inner ih | nextLine slot inner ih => exact ih

/-- The slots of a copy are in their initial state, and nothing else has changed. -/
theorem fresh_of_complete (whole : matcher.complete = true)
    (memory : Memory World) : matcher.fresh memory = .ok (matcher.shift memory.free)
      { memory with
        registers := memory.registers.forgetAll (matcher.shift memory.free).slots
        free := memory.free + memory.free } := by
  have cleared := reset_of_complete ((complete_shift matcher memory.free).trans whole) memory.registers
  simp only [fresh, cleared]

end Matcher
end Emend
